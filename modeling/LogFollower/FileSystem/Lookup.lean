import LogFollower.FileSystem.Basic

/-!
# Following a path

A path is followed segment by segment from the current directory. Each segment needs a directory
to be looked up in; a symbolic link is replaced by the segments of its target, at most forty times
in one path.

`reach` tells what a path leads to, or the vacant name it ends in. `find` wants an object there,
`stat` looks at it and `openFile` opens it.
-/

namespace LogFollower

/-- Where a path leads: through the directories that hold it, innermost first, to an object, or to
a name that its directory does not hold. -/
inductive Place
  | object (trail : List Nat)
  | vacant (directory : Nat) (name : Bytes)
  deriving DecidableEq, Repr

namespace FileSystem

def maxName : Nat := 255

def maxPath : Nat := 4095

/-- How many symbolic links one path may go through. -/
def maxLinks : Nat := 40

/-- The trail of the directory above. -/
def above : List Nat → List Nat
  | _ :: outer :: rest => outer :: rest
  | trail => trail

/-- Follows segments from the object at the head of the trail. `through` follows the segments that
stand for a symbolic link. -/
def walkWith (fs : FileSystem) (through : List Nat → List Bytes → Except Fault Place) :
    List Nat → List Bytes → Except Fault Place
  | trail, [] => .ok (.object trail)
  | trail, s :: rest =>
    match fs.entries? (trail.headD 0) with
    | none => .error (.system .notDirectory)
    | some entries =>
      if Path.blank s then walkWith fs through trail rest
      else if s = Path.dotDot then walkWith fs through (above trail) rest
      else if maxName < s.length then .error (.system .nameTooLong)
      else
        match entries.lookup s with
        | some (.object number) => walkWith fs through (number :: trail) rest
        | some (.link target) =>
          through (if target.bytes.head? = some slash then [0] else trail)
            (target.segments ++ rest)
        | none =>
          if rest = [] then .ok (.vacant (trail.headD 0) s)
          else .error (.system .noEntry)

def walk (fs : FileSystem) : (links : Nat) → List Nat → List Bytes → Except Fault Place
  | 0 => fs.walkWith fun _ _ => .error (.system .tooManyLinks)
  | links + 1 => fs.walkWith (fs.walk links)

/-- What keeps a path from being followed at all. -/
def refuse? (p : Path) : Option Fault :=
  if 0 ∈ p.bytes then some .zeroByte
  else if p.bytes = [] then some (.system .noEntry)
  else if maxPath < p.bytes.length then some (.system .nameTooLong)
  else none

/-- What a path leads to. -/
def reach (fs : FileSystem) (p : Path) : Except Fault Place :=
  match refuse? p with
  | some f => .error f
  | none => fs.walk maxLinks [0] p.segments

def find (fs : FileSystem) (p : Path) : Except Fault Nat :=
  match fs.reach p with
  | .ok (.object trail) => .ok (trail.headD 0)
  | .ok (.vacant _ _) => .error (.system .noEntry)
  | .error f => .error f

def stat (fs : FileSystem) (p : Path) : Except Fault Stat :=
  match fs.find p with
  | .ok n => .ok ⟨identify n, fs.length n⟩
  | .error f => .error f

/-- Opens what a path leads to for reading. A socket cannot be opened; a directory can, though it
cannot be read. -/
def openFile (fs : FileSystem) (p : Path) : Except Fault Nat :=
  match fs.find p with
  | .ok n =>
    match fs.bodies[n]? with
    | some (.regular _) => .ok n
    | some (.directory _) => .ok n
    | _ => .error (.system .noDevice)
  | .error f => .error f

def readAll (fs : FileSystem) (p : Path) : Except Fault Bytes :=
  match fs.openFile p with
  | .ok n => fs.read n 0 (fs.length n)
  | .error f => .error f

end FileSystem
end LogFollower
