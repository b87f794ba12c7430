import LogFollower.Fault
import LogFollower.Identity
import LogFollower.Path

/-!
# Files and directories

A `FileSystem` is a table of objects. An object is a regular file, a directory or a socket; its
number is its place in the table and is never given to another object, so a file that left every
directory can still be read through a handle. Object 0 is the current directory.

Directories hold entries under names. A symbolic link is an entry that holds a path.

Left out are devices, pipes and the generated files of a kernel, whose length or content may be
something else at every look, and disks that fail: a regular file can always be read, and every
handle can be positioned and asked for the length and the identity of its object.
-/

namespace LogFollower

/-- What a directory holds under a name. -/
inductive Entry
  | object (number : Nat)
  | link (target : Path)
  deriving DecidableEq, Repr

/-- What an object is. -/
inductive Body
  | regular (bytes : Bytes)
  | directory (entries : List (Bytes × Entry))
  | socket
  deriving DecidableEq, Repr

/-- The objects by their numbers. -/
structure FileSystem where
  bodies : List Body
  deriving DecidableEq, Repr

/-- What looking at a path tells. -/
structure Stat where
  identifier : FileIdentifier
  length : Nat
  deriving DecidableEq, Repr

namespace FileSystem

/-- An empty current directory. -/
def empty : FileSystem := ⟨[.directory []]⟩

/-- The device that all objects are on. -/
def device : Nat := 66310

def identify (number : Nat) : FileIdentifier := .ofObject device number

def bytes? (fs : FileSystem) (number : Nat) : Option Bytes :=
  match fs.bodies[number]? with
  | some (.regular bytes) => some bytes
  | _ => none

def entries? (fs : FileSystem) (number : Nat) : Option (List (Bytes × Entry)) :=
  match fs.bodies[number]? with
  | some (.directory entries) => some entries
  | _ => none

def length (fs : FileSystem) (number : Nat) : Nat :=
  match fs.bodies[number]? with
  | some (.regular bytes) => bytes.length
  | some (.directory _) => 4096
  | _ => 0

/-- The number of bytes in all regular files. -/
def size (fs : FileSystem) : Nat :=
  ((List.range fs.bodies.length).map fs.length).foldr (· + ·) 0

/-- Reads at most `count` bytes of an object from an offset on; nothing at the end of a file. -/
def read (fs : FileSystem) (number offset count : Nat) : Except Fault Bytes :=
  match fs.bodies[number]? with
  | some (.regular bytes) => .ok ((bytes.drop offset).take count)
  | some (.directory _) => .error (.system .isDirectory)
  | _ => .error (.system .noDevice)

theorem read_regular {fs : FileSystem} {number : Nat} {bytes : Bytes}
    (h : fs.bytes? number = some bytes) (offset count : Nat) :
    fs.read number offset count = .ok ((bytes.drop offset).take count) := by
  unfold bytes? at h
  unfold read
  split at h
  · next e => cases h; rw [e]
  · simp at h

/-- Only regular files can be read. -/
theorem bytes?_of_read {fs : FileSystem} {number offset count : Nat} {bytes : Bytes}
    (h : fs.read number offset count = .ok bytes) :
    ∃ all, fs.bytes? number = some all ∧ bytes = (all.drop offset).take count := by
  unfold read at h
  unfold bytes?
  split at h
  · next all e => exact ⟨all, by rw [e], (Except.ok.inj h).symm⟩
  · cases h
  · cases h

theorem read_length {fs : FileSystem} {number offset count : Nat} {bytes : Bytes}
    (h : fs.read number offset count = .ok bytes) :
    fs.read number offset bytes.length = .ok bytes := by
  obtain ⟨all, ha, rfl⟩ := bytes?_of_read h
  rw [read_regular ha, List.length_take, ← List.take_eq_take_min]

end FileSystem
end LogFollower
