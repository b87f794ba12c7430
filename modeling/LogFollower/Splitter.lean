import LogFollower.Text.Utf8

/-!
# Cutting bytes into lines

A `Splitter` takes the bytes of a file as they are read and gives back the pieces that are
complete: those ended by a line feed, and those cut from a line that is longer than the limit. The
rest stays held until more bytes come or `finish` asks for it.

Every piece keeps its bytes, so the pieces and the held bytes together are what was pushed
(`flatten_push`); `stop` is the offset in the file just behind a piece. What is consumed grows by
what is pushed (`consumed_push`).

Offsets are natural numbers and do not wrap. A run starts at an offset below `2 ^ 63`, where
`SeekInfo.resolve` saturates, and cuts the bytes of one file, of which there are fewer than
`2 ^ 63`; so no offset of a run comes near `2 ^ 64`.
-/

namespace LogFollower

/-- The byte that ends a line. -/
def lineFeed : UInt8 := 0x0A

/-- The byte that a line feed takes with it when it stands directly before it. -/
def carriageReturn : UInt8 := 0x0D

/-- Bytes cut out of a file, the line feed included, and the offset just behind them. -/
structure Piece where
  bytes : Bytes
  stop : Nat
  deriving DecidableEq, Repr

namespace Piece

/-- Whether a line feed ended the piece. -/
def terminated (p : Piece) : Bool := p.bytes.getLast? = some lineFeed

/-- The bytes of the line: without the line feed, and then without one carriage return. -/
def content (p : Piece) : Bytes :=
  if p.terminated then
    let line := p.bytes.dropLast
    if line.getLast? = some carriageReturn then line.dropLast else line
  else p.bytes

def text (p : Piece) : String := Text.lossy p.content

end Piece

/-- Cuts the bytes of one file, from an offset on. -/
structure Splitter where
  /-- The longest line that stays whole. -/
  limit : Option Nat
  /-- The offset just behind the last piece. -/
  committed : Nat
  /-- The bytes behind the last piece, newest first. -/
  held : Bytes
  deriving DecidableEq, Repr

namespace Splitter

def start (offset : Nat) (limit : Option Nat) : Splitter := ⟨limit, offset, []⟩

/-- The bytes behind the last piece, in the order of the file. -/
def pending (s : Splitter) : Bytes := s.held.reverse

/-- The offset of the next byte to push. -/
def consumed (s : Splitter) : Nat := s.committed + s.held.length

/-- Drops what is held and goes on at an offset. -/
def reset (s : Splitter) (offset : Nat) : Splitter := { s with committed := offset, held := [] }

/-- Takes bytes one by one. `size` is the number of held bytes, and `done` holds the pieces so far,
newest first. A line feed ends a piece; any other byte that comes when the held bytes fill the
limit begins the next one. -/
def scan (limit : Option Nat) : Bytes → (committed : Nat) → (held : Bytes) → (size : Nat) →
    (done : List Piece) → List Piece × Splitter
  | [], committed, held, _, done => (done.reverse, ⟨limit, committed, held⟩)
  | b :: rest, committed, held, size, done =>
    if b = lineFeed then
      let stop := committed + size + 1
      scan limit rest stop [] 0 (⟨(b :: held).reverse, stop⟩ :: done)
    else if size ≠ 0 ∧ limit = some size then
      let stop := committed + size
      scan limit rest stop [b] 1 (⟨held.reverse, stop⟩ :: done)
    else scan limit rest committed (b :: held) (size + 1) done

/-- Pushes bytes: the pieces they complete, and the splitter after them. -/
def push (s : Splitter) (bytes : Bytes) : List Piece × Splitter :=
  scan s.limit bytes s.committed s.held s.held.length []

/-- Gives up what is held as a last piece, if there is any. -/
def finish (s : Splitter) : Option Piece × Splitter :=
  if s.held = [] then (none, s)
  else (some ⟨s.pending, s.consumed⟩, s.reset s.consumed)

/-! ## What the operations do -/

@[simp] theorem pending_start (offset : Nat) (limit : Option Nat) :
    (start offset limit).pending = [] := rfl

@[simp] theorem consumed_start (offset : Nat) (limit : Option Nat) :
    (start offset limit).consumed = offset := rfl

@[simp] theorem pending_reset (s : Splitter) (offset : Nat) : (s.reset offset).pending = [] := rfl

@[simp] theorem consumed_reset (s : Splitter) (offset : Nat) :
    (s.reset offset).consumed = offset := rfl

@[simp] theorem length_pending (s : Splitter) : s.pending.length = s.held.length := by
  simp [pending]

@[simp] theorem push_nil (s : Splitter) : s.push [] = ([], s) := rfl

/-- The pieces found before do not matter for those that follow. -/
theorem scan_done (limit : Option Nat) (bytes : Bytes) (committed : Nat) (held : Bytes)
    (size : Nat) (done : List Piece) :
    scan limit bytes committed held size done =
      (done.reverse ++ (scan limit bytes committed held size []).1,
        (scan limit bytes committed held size []).2) := by
  induction bytes generalizing committed held size done with
  | nil => simp [scan]
  | cons b rest ih =>
    simp only [scan]
    split
    · rw [ih, ih _ _ _ [_]]; simp
    · split
      · rw [ih, ih _ _ _ [_]]; simp
      · exact ih ..

theorem consumed_scan (limit : Option Nat) (bytes : Bytes) (committed : Nat) (held : Bytes)
    (done : List Piece) :
    (scan limit bytes committed held held.length done).2.consumed =
      committed + held.length + bytes.length := by
  induction bytes generalizing committed held done with
  | nil => simp [scan, consumed]
  | cons b rest ih =>
    simp only [scan]
    split
    · have := ih (committed + held.length + 1) []
      simp only [List.length_nil] at this
      rw [this]; simp only [List.length_cons]; omega
    · split
      · have := ih (committed + held.length) [b]
        simp only [List.length_singleton] at this
        rw [this]; simp only [List.length_cons]; omega
      · have := ih committed (b :: held)
        simp only [List.length_cons] at this
        rw [this]; simp only [List.length_cons]; omega

@[simp] theorem consumed_push (s : Splitter) (bytes : Bytes) :
    (s.push bytes).2.consumed = s.consumed + bytes.length := consumed_scan ..

theorem limit_scan (limit : Option Nat) (bytes : Bytes) (committed : Nat) (held : Bytes)
    (size : Nat) (done : List Piece) :
    (scan limit bytes committed held size done).2.limit = limit := by
  induction bytes generalizing committed held size done with
  | nil => rfl
  | cons b rest ih => simp only [scan]; split <;> (try split) <;> exact ih ..

@[simp] theorem limit_push (s : Splitter) (bytes : Bytes) : (s.push bytes).2.limit = s.limit :=
  limit_scan ..

theorem length_scan_le (limit : Option Nat) (bytes : Bytes) (committed : Nat) (held : Bytes)
    (size : Nat) (done : List Piece) :
    (scan limit bytes committed held size done).1.length ≤ done.length + bytes.length := by
  induction bytes generalizing committed held size done with
  | nil => simp [scan]
  | cons b rest ih =>
    simp only [scan]
    split
    · have := ih (committed + size + 1) [] 0 (⟨(b :: held).reverse, committed + size + 1⟩ :: done)
      simp only [List.length_cons] at this ⊢
      omega
    · split
      · have := ih (committed + size) [b] 1 (⟨held.reverse, committed + size⟩ :: done)
        simp only [List.length_cons] at this ⊢
        omega
      · have := ih committed (b :: held) (size + 1) done
        simp only [List.length_cons] at this ⊢
        omega

/-- No byte completes more than one piece. -/
theorem length_push_le (s : Splitter) (bytes : Bytes) : (s.push bytes).1.length ≤ bytes.length := by
  simpa [push] using length_scan_le s.limit bytes s.committed s.held s.held.length []

theorem flatten_scan (limit : Option Nat) (bytes : Bytes) (committed : Nat) (held : Bytes)
    (size : Nat) (done : List Piece) :
    ((scan limit bytes committed held size done).1.map Piece.bytes).flatten ++
        (scan limit bytes committed held size done).2.pending =
      (done.reverse.map Piece.bytes).flatten ++ held.reverse ++ bytes := by
  induction bytes generalizing committed held size done with
  | nil => simp [scan, pending]
  | cons b rest ih =>
    simp only [scan]
    split
    · rw [ih]; simp
    · split
      · rw [ih]; simp
      · rw [ih]; simp

theorem flatten_push (s : Splitter) (bytes : Bytes) :
    ((s.push bytes).1.map Piece.bytes).flatten ++ (s.push bytes).2.pending =
      s.pending ++ bytes := by
  simpa [push, pending] using flatten_scan s.limit bytes s.committed s.held s.held.length []

end Splitter
end LogFollower
