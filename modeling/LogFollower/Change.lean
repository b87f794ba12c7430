import LogFollower.Error
import LogFollower.FileSystem.Lookup

/-!
# Changes of a followed file

`classify` compares what a path leads to with the file that was opened and read up to an offset.
Both ways of watching decide by it alone, since events of a directory do not tell a rotation from
an append.
-/

namespace LogFollower

/-- What happened since the last look. -/
inductive Change
  | none
  /-- There is more to read. -/
  | modified
  /-- The file became shorter than what was read. -/
  | truncated
  /-- The path does not lead to the file any more. -/
  | deleted
  deriving DecidableEq, Repr

namespace Change

def name : Change → String
  | none => "None"
  | modified => "Modified"
  | truncated => "Truncated"
  | deleted => "Deleted"

/-- The change that a length says, after reading up to an offset. -/
def ofLength (length offset : Nat) : Change :=
  if offset < length then modified else if length < offset then truncated else none

theorem ofLength_ne_deleted (length offset : Nat) : ofLength length offset ≠ deleted := by
  unfold ofLength
  split
  · exact nofun
  · split <;> exact nofun

theorem ofLength_eq_none {length offset : Nat} (h : ofLength length offset = none) :
    length = offset := by
  unfold ofLength at h
  split at h
  · cases h
  · split at h
    · cases h
    · omega

theorem ofLength_eq_modified {length offset : Nat} (h : ofLength length offset = modified) :
    offset < length := by
  unfold ofLength at h
  split at h
  · assumption
  · split at h <;> cases h

theorem ofLength_eq_truncated {length offset : Nat} (h : ofLength length offset = truncated) :
    length < offset := by
  unfold ofLength at h
  split at h
  · cases h
  · split at h
    · assumption
    · cases h

end Change

/-- The change that a look at the path says. A file whose identity is unknown counts as gone; any
other failure is passed on. -/
def classify (look : Except TailError Stat) (opened : FileIdentifier) (offset : Nat) :
    Except TailError Change :=
  match look with
  | .ok stat =>
    if stat.identifier = opened then .ok (.ofLength stat.length offset) else .ok .deleted
  | .error (.file f) => if f.notFound then .ok .deleted else .error (.file f)
  | .error (.noIdentity _) => .ok .deleted
  | .error e => .error e

def FileSystem.look (fs : FileSystem) (p : Path) : Except TailError Stat :=
  match fs.stat p with
  | .ok stat => .ok stat
  | .error f => .error (.file f)

theorem classify_look (fs : FileSystem) (p : Path) (opened : FileIdentifier) (offset : Nat) :
    classify (fs.look p) opened offset =
      match fs.find p with
      | .ok n =>
        if FileSystem.identify n = opened then .ok (.ofLength (fs.length n) offset)
        else .ok .deleted
      | .error f => if f.notFound then .ok .deleted else .error (.file f) := by
  unfold FileSystem.look FileSystem.stat
  cases fs.find p <;> rfl

theorem ofLength_of_classify {fs : FileSystem} {p : Path} {opened : FileIdentifier} {offset : Nat}
    {change : Change} (h : classify (fs.look p) opened offset = .ok change)
    (hc : change ≠ .deleted) :
    ∃ n, fs.find p = .ok n ∧ FileSystem.identify n = opened ∧
      Change.ofLength (fs.length n) offset = change := by
  rw [classify_look] at h
  cases hf : fs.find p with
  | error f =>
    simp only [hf] at h
    split at h
    · exact absurd (Except.ok.inj h).symm hc
    · cases h
  | ok n =>
    simp only [hf] at h
    split at h
    · next hi => exact ⟨n, rfl, hi, Except.ok.inj h⟩
    · exact absurd (Except.ok.inj h).symm hc

/-- The opened file is gone when the path leads to another object, or to none. -/
theorem find_of_deleted {fs : FileSystem} {p : Path} {opened : FileIdentifier} {offset : Nat}
    (h : classify (fs.look p) opened offset = .ok .deleted) :
    (∃ n, fs.find p = .ok n ∧ FileSystem.identify n ≠ opened) ∨
      ∃ f, fs.find p = .error f ∧ f.notFound := by
  rw [classify_look] at h
  cases hf : fs.find p with
  | error f =>
    simp only [hf] at h
    split at h
    · next hn => exact .inr ⟨f, rfl, hn⟩
    · cases h
  | ok n =>
    simp only [hf] at h
    split at h
    · exact absurd (Except.ok.inj h) (Change.ofLength_ne_deleted _ _)
    · next hi => exact .inl ⟨n, rfl, hi⟩

end LogFollower
