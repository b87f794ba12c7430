import LogFollower.Text.Quoted
import LogFollower.Text.Utf8

/-!
# Paths

A `Path` is a string of bytes cut by slashes into segments. An empty segment and the segment `.`
are blank: they name the directory before them. Blank segments at the end of a path are not part
of it, apart from a slash or a `.` at its very beginning, which is its anchor.

`fileName` is the name a path ends in and `directory` the path of what holds it.
-/

namespace LogFollower

/-- The byte between two segments. -/
def slash : UInt8 := 0x2F

/-- A path, as the bytes it is written with. -/
structure Path where
  bytes : Bytes
  deriving DecidableEq, Repr

namespace Path

def ofString (s : String) : Path := ⟨Text.encode s⟩

def display (p : Path) : String := Text.lossy p.bytes

/-- The path in quotes. -/
def shown (p : Path) : String := Text.shown p.display

def dot : Bytes := [0x2E]

/-- The directory above. -/
def dotDot : Bytes := [0x2E, 0x2E]

/-- The parts of a string of bytes between its slashes. -/
def cut : Bytes → List Bytes
  | [] => [[]]
  | b :: rest =>
    if b = slash then [] :: cut rest
    else
      match cut rest with
      | [] => [[b]]
      | s :: more => (b :: s) :: more

theorem cut_ne_nil (bytes : Bytes) : cut bytes ≠ [] := by
  cases bytes with
  | nil => simp [cut]
  | cons b rest => unfold cut; split <;> (try split) <;> simp

def segments (p : Path) : List Bytes := cut p.bytes

/-- Whether a segment names the directory before it. -/
def blank (s : Bytes) : Bool := s = [] || s = dot

/-- Segments without the blank ones at their end. -/
def trim (segments : List Bytes) : List Bytes := (segments.reverse.dropWhile blank).reverse

/-- What a path starts from. -/
inductive Anchor
  | root
  | here
  | none
  deriving DecidableEq, Repr

/-- The anchor of a path and the segments behind it. -/
def parts (p : Path) : Anchor × List Bytes :=
  match p.segments with
  | [] => (.none, [])
  | [[]] => (.none, [])
  | [] :: rest => (.root, trim rest)
  | s :: rest => if s = dot then (.here, trim rest) else (.none, trim (s :: rest))

/-- The name that a path ends in; a path that ends in `..` has none. -/
def fileName (p : Path) : Option Bytes :=
  match p.parts.2.getLast? with
  | some s => if s = dotDot then none else some s
  | none => none

/-- Segments with slashes between them. -/
def join (segments : List Bytes) : Bytes := [slash].intercalate segments

theorem join_cons_cons (s t : Bytes) (more : List Bytes) :
    join (s :: t :: more) = s ++ slash :: join (t :: more) := by
  simp [join, List.intercalate, List.intersperse]

theorem join_cut (bytes : Bytes) : join (cut bytes) = bytes := by
  induction bytes with
  | nil => rfl
  | cons b rest ih =>
    unfold cut
    split
    · next h =>
      obtain ⟨s, more, hs⟩ := List.exists_cons_of_ne_nil (cut_ne_nil rest)
      rw [hs] at ih ⊢
      rw [join_cons_cons, ih, h]; rfl
    · split
      · next h => exact absurd h (cut_ne_nil rest)
      · next s more hs =>
        rw [hs] at ih
        cases more with
        | nil => simpa [join] using ih
        | cons t more => rw [join_cons_cons] at ih ⊢; simp [ih]

/-- An anchor and the segments behind it as one path. -/
def ofParts : Anchor → List Bytes → Path
  | .root, body => ⟨slash :: join body⟩
  | .here, [] => ⟨dot⟩
  | .here, body => ⟨dot ++ slash :: join body⟩
  | .none, body => ⟨join body⟩

/-- The directory that holds what a path names: the path without its last segment, and the current
directory where nothing is left. -/
def directory (p : Path) : Path :=
  match p.parts with
  | (_, []) => ⟨dot⟩
  | (.none, body) =>
    match trim body.dropLast with
    | [] => ⟨dot⟩
    | rest => ofParts .none rest
  | (anchor, body) => ofParts anchor (trim body.dropLast)

def endsInSlash (p : Path) : Bool := p.bytes.getLast? = some slash

end Path
end LogFollower
