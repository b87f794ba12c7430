import LogFollower.FileSystem.Lookup

/-!
# Changing files

The things that other programs do to files: an `Edit` each, and `apply`, which carries it out or
tells why it cannot be done. New objects go to the end of the table, so numbers are never reused.
-/

namespace LogFollower

/-- One change. -/
inductive Edit
  | create (path : Path)
  | append (path : Path) (bytes : Bytes)
  | overwrite (path : Path) (offset : Nat) (bytes : Bytes)
  | truncate (path : Path) (length : Nat)
  | remove (path : Path)
  | rename (path newPath : Path)
  | hardlink (path newPath : Path)
  | symlink (path target : Path)
  | copy (path newPath : Path)
  | makeDirectory (path : Path)
  | removeDirectory (path : Path)
  | socket (path : Path)
  deriving DecidableEq, Repr

namespace FileSystem

def setBody (fs : FileSystem) (number : Nat) (body : Body) : FileSystem :=
  ⟨fs.bodies.set number body⟩

theorem bytes?_setBody {number other : Nat} (h : number ≠ other) (fs : FileSystem) (body : Body) :
    (fs.setBody number body).bytes? other = fs.bytes? other := by
  simp [setBody, bytes?, List.getElem?_set_ne h]

/-- Puts an entry into a directory, in the place of the one that had its name. -/
def bind (fs : FileSystem) (directory : Nat) (name : Bytes) (entry : Entry) : FileSystem :=
  match fs.entries? directory with
  | some entries =>
    fs.setBody directory (.directory ((name, entry) :: entries.filter (·.1 ≠ name)))
  | none => fs

def unbind (fs : FileSystem) (directory : Nat) (name : Bytes) : FileSystem :=
  match fs.entries? directory with
  | some entries => fs.setBody directory (.directory (entries.filter (·.1 ≠ name)))
  | none => fs

def add (fs : FileSystem) (directory : Nat) (name : Bytes) (body : Body) : FileSystem :=
  (⟨fs.bodies ++ [body]⟩ : FileSystem).bind directory name (.object fs.bodies.length)

/-- The directory and the name that a path ends in. The directory is followed; what the name
stands for is not looked at. -/
def slot (fs : FileSystem) (p : Path) : Except Fault (Nat × Bytes) :=
  match refuse? p with
  | some f => .error f
  | none =>
    let body := Path.trim p.segments
    match fs.walk maxLinks [0] body.dropLast, body.getLast? with
    | .error f, _ => .error f
    | .ok (.vacant _ _), _ => .error (.system .noEntry)
    | .ok (.object _), none => .error (.system .invalid)
    | .ok (.object trail), some name =>
      if (fs.entries? (trail.headD 0)).isNone then .error (.system .notDirectory)
      else if name = Path.dotDot then .error (.system .invalid)
      else if maxName < name.length then .error (.system .nameTooLong)
      else .ok (trail.headD 0, name)

def entry? (fs : FileSystem) (directory : Nat) (name : Bytes) : Option Entry :=
  (fs.entries? directory).bind (·.lookup name)

def taken (fs : FileSystem) (p : Path) : Except Fault (Nat × Bytes × Entry) := do
  let (directory, name) ← fs.slot p
  match fs.entry? directory name with
  | some entry => .ok (directory, name, entry)
  | none => .error (.system .noEntry)

def free (fs : FileSystem) (p : Path) : Except Fault (Nat × Bytes) := do
  let (directory, name) ← fs.slot p
  match fs.entry? directory name with
  | some _ => .error (.system .alreadyExists)
  | none => .ok (directory, name)

/-- Changes the bytes of the regular file that a path leads to. -/
def modify (fs : FileSystem) (p : Path) (f : Bytes → Bytes) : Except Fault FileSystem := do
  let n ← fs.find p
  match fs.bodies[n]? with
  | some (.regular bytes) => .ok (fs.setBody n (.regular (f bytes)))
  | some (.directory _) => .error (.system .isDirectory)
  | _ => .error (.system .noDevice)

/-- Changes the bytes of the regular file that a path leads to, and makes an empty one first where
there is none. -/
def write (fs : FileSystem) (p : Path) (f : Bytes → Bytes) : Except Fault FileSystem :=
  if p.endsInSlash ∧ (fs.slot p).toBool then .error (.system .isDirectory)
  else
    match fs.reach p with
    | .ok (.vacant directory name) => .ok (fs.add directory name (.regular (f [])))
    | .ok (.object _) => fs.modify p f
    | .error f => .error f

/-- Bytes brought to a length, cut or filled up with zeros. -/
def resize (length : Nat) (bytes : Bytes) : Bytes :=
  bytes.take length ++ List.replicate (length - bytes.length) 0

/-- Bytes with others put over them from an offset on. A gap before them is filled up with zeros;
putting nothing makes no gap. -/
def putAt (offset : Nat) (new bytes : Bytes) : Bytes :=
  if new = [] then bytes else resize offset bytes ++ new ++ bytes.drop (offset + new.length)

def isDirectory (fs : FileSystem) : Entry → Bool
  | .object n => (fs.entries? n).isSome
  | .link _ => false

/-- Whether an entry is a directory that holds something. -/
def occupied (fs : FileSystem) : Entry → Bool
  | .object n => fs.entries? n ≠ some [] && (fs.entries? n).isSome
  | .link _ => false

/-- The objects that a directory lies in, itself first. -/
def trailOf (fs : FileSystem) (p : Path) : List Nat :=
  match fs.walk maxLinks [0] (Path.trim p.segments).dropLast with
  | .ok (.object trail) => trail
  | _ => []

/-- Moves an entry to another name, in the place of what is there. -/
def move (fs : FileSystem) (p p' : Path) : Except Fault FileSystem := do
  let (source, name, entry) ← fs.taken p
  let (target, newName) ← fs.slot p'
  let moved := (fs.unbind source name).bind target newName entry
  match fs.entry? target newName with
  | none =>
    match entry with
    | .object n => if n ∈ fs.trailOf p' then .error (.system .invalid) else .ok moved
    | .link _ => .ok moved
  | some old =>
    if old = entry ∧ ¬ fs.isDirectory old then
      match old with
      | .object _ => .ok fs
      | .link _ => .ok moved
    else if fs.isDirectory old ∧ ¬ fs.isDirectory entry then .error (.system .isDirectory)
    else if fs.isDirectory entry ∧ ¬ fs.isDirectory old then .error (.system .notDirectory)
    else if fs.occupied old then .error (.system .notEmpty)
    else .ok moved

def apply (fs : FileSystem) : Edit → Except Fault FileSystem
  | .create p => fs.write p fun _ => []
  | .append p bytes => fs.write p (· ++ bytes)
  | .overwrite p offset bytes => fs.modify p (putAt offset bytes)
  | .truncate p length => fs.modify p (resize length)
  | .remove p => do
    let (directory, name, entry) ← fs.taken p
    if fs.isDirectory entry then .error (.system .isDirectory)
    else .ok (fs.unbind directory name)
  | .rename p p' => fs.move p p'
  | .hardlink p p' => do
    let (_, _, entry) ← fs.taken p
    let (directory, name) ← fs.free p'
    if fs.isDirectory entry then .error (.system ⟨1⟩) else .ok (fs.bind directory name entry)
  | .symlink p target => do
    let (directory, name) ← fs.free p
    .ok (fs.bind directory name (.link target))
  | .copy p p' => do
    let bytes ← fs.readAll p
    fs.write p' fun _ => bytes
  | .makeDirectory p => do
    let (directory, name) ← fs.free p
    .ok (fs.add directory name (.directory []))
  | .removeDirectory p => do
    let (directory, name, entry) ← fs.taken p
    if ¬ fs.isDirectory entry then .error (.system .notDirectory)
    else if fs.occupied entry then .error (.system .notEmpty)
    else .ok (fs.unbind directory name)
  | .socket p => do
    let (directory, name) ← fs.free p
    .ok (fs.add directory name .socket)

/-- Carries out a change; one that cannot be done changes nothing. -/
def edit (fs : FileSystem) (e : Edit) : FileSystem :=
  match fs.apply e with
  | .ok changed => changed
  | .error _ => fs

end FileSystem
end LogFollower
