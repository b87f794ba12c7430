import LogFollower.Error
import LogFollower.Identity

/-!
# Positions in a file

A `SeekInfo` says where reading starts, and a `ReadPosition` where it stood. Both may carry the
identifier of the file they were recorded for: against another file they mean its beginning.
-/

namespace LogFollower

def maxOffset : Int := 0x7FFFFFFFFFFFFFFF

def minOffset : Int := -0x8000000000000000

/-- A sum kept within the signed 64-bit numbers. -/
def saturate (n : Int) : Int := max minOffset (min maxOffset n)

/-- What an offset is measured from. A file just opened stands at its beginning, so `current` and
`start` mean the same. -/
inductive Whence
  | start
  | current
  | finish
  deriving DecidableEq, Repr

namespace Whence

def number : Whence → Nat
  | start => 0
  | current => 1
  | finish => 2

def ofNumber? : Nat → Option Whence
  | 0 => some start
  | 1 => some current
  | 2 => some finish
  | _ => none

def name : Whence → String
  | start => "Start"
  | current => "Current"
  | finish => "End"

/-- What is said of a number that is no whence. -/
def refusal (n : Nat) : String :=
  "invalid whence " ++ toString n ++ ", expected 0, 1 or 2"

@[simp] theorem ofNumber?_number (w : Whence) : ofNumber? w.number = some w := by cases w <;> rfl

end Whence

/-- Where to start reading. -/
structure SeekInfo where
  offset : Int
  whence : Whence
  identifier : Option FileIdentifier
  deriving DecidableEq, Repr

namespace SeekInfo

def start : SeekInfo := ⟨0, .start, none⟩

def finish : SeekInfo := ⟨0, .finish, none⟩

/-- An offset in the file with the identifier. -/
def resume (offset : Nat) (identifier : Option FileIdentifier) : SeekInfo :=
  ⟨min offset maxOffset, .start, identifier⟩

/-- The number that the offset is added to, in a file of a length. -/
def base (s : SeekInfo) (length : Nat) : Int :=
  match s.whence with
  | .finish => min length maxOffset
  | _ => 0

/-- The offset to start at in the file `current`. A position before the start of the file is
refused. -/
def resolve (s : SeekInfo) (current : FileIdentifier) (length : Nat) : Except TailError Nat :=
  if s.identifier.any (· ≠ current) then .ok 0
  else
    let position := saturate (s.base length + s.offset)
    if position < 0 then .error (.config (.beforeStart position)) else .ok position.toNat

theorem resolve_of_ne {s : SeekInfo} {current id : FileIdentifier} (hs : s.identifier = some id)
    (h : id ≠ current) (length : Nat) : s.resolve current length = .ok 0 := by
  simp [resolve, hs, h]

theorem resolve_resume {offset : Nat} {identifier : Option FileIdentifier}
    {current : FileIdentifier} (h : ∀ id, identifier = some id → id = current) (length : Nat) :
    (resume offset identifier).resolve current length = .ok (min (offset : Int) maxOffset).toNat := by
  have hsame : identifier.any (· ≠ current) = false := by
    cases identifier with
    | none => rfl
    | some id => simp [h id rfl]
  have hbase : (resume offset identifier).base length = 0 := rfl
  have hsum : saturate (0 + min (offset : Int) maxOffset) = min (offset : Int) maxOffset := by
    unfold saturate minOffset maxOffset
    omega
  have hpos : ¬ min (offset : Int) maxOffset < 0 := by
    unfold maxOffset
    omega
  unfold resolve
  rw [hbase]
  simp only [resume, hsame, hsum, if_neg hpos, Bool.false_eq_true, if_false]

def shown (s : SeekInfo) : String :=
  let identifier :=
    match s.identifier with
    | none => "None"
    | some id => "Some(FileIdentifier(" ++ Text.shown id.token ++ "))"
  "SeekInfo \x7b offset: " ++ toString s.offset ++ ", whence: " ++ s.whence.name
    ++ ", file_identifier: " ++ identifier ++ " \x7d"

end SeekInfo

/-- Where reading stood in one incarnation of a file. -/
structure ReadPosition where
  offset : Nat
  identifier : Option FileIdentifier
  deriving DecidableEq, Repr

/-- The offset to go on at in the file `current`. -/
def ReadPosition.resolve (p : ReadPosition) (current : FileIdentifier) : Nat :=
  if p.identifier.any (· ≠ current) then 0 else p.offset

end LogFollower
