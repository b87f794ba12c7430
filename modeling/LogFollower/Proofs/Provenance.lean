import LogFollower.Proofs.Ledger
import LogFollower.Proofs.Splitter.Lines

/-!
# Where lines come from

Every line of text has its bytes. They were read through the handle of the newest section, behind
those of the line before: the lines of a section tile what was read in it, from the offset where the
handle was placed (`Section.Covers`). `lines_tile_reads` says that this holds in every run, whatever
is done to the files between two steps, and however often the handle is placed anew.
-/

namespace LogFollower

namespace Section

/-- The bytes read from one offset up to another. -/
def slice (s : Section) (start stop : Nat) : Bytes :=
  (s.input.drop (start - s.base)).take (stop - start)

/-- A line is that of the bytes read from an offset up to its own. -/
structure Gives (s : Section) (start : Nat) (l : Line) : Prop where
  identity : l.identifier = some s.identifier
  start_lt : start < l.offset
  read : l.offset ≤ s.base + s.input.length
  text : ∃ line, Strips (s.slice start l.offset) line ∧ l.text = Text.lossy line

/-- Lines that begin where the one before ended, the first at an offset. -/
def Covers (s : Section) : Nat → List Line → Prop
  | _, [] => True
  | start, l :: more => s.Gives start l ∧ s.Covers l.offset more

theorem Covers.lt {s : Section} {start : Nat} {lines : List Line} (h : s.Covers start lines) :
    ∀ l ∈ lines, start < l.offset := by
  induction lines generalizing start with
  | nil => exact nofun
  | cons l lines ih =>
    refine List.forall_mem_cons.2 ⟨h.1.start_lt, fun l' hl' => ?_⟩
    exact h.1.start_lt.trans (ih h.2 l' hl')

theorem Covers.pairwise {s : Section} {start : Nat} {lines : List Line}
    (h : s.Covers start lines) : (lines.map Line.offset).Pairwise (· < ·) := by
  induction lines generalizing start with
  | nil => exact .nil
  | cons l lines ih =>
    rw [List.map_cons, List.pairwise_cons]
    refine ⟨fun o ho => ?_, ih h.2⟩
    obtain ⟨l', hl', rfl⟩ := List.mem_map.1 ho
    exact h.2.lt l' hl'

theorem Covers.mono {s : Section} {start : Nat} {lines more : List Line}
    (h : s.Covers start more) (hp : lines <+: more) : s.Covers start lines := by
  induction lines generalizing start more with
  | nil => trivial
  | cons l lines ih =>
    obtain ⟨rest, rfl⟩ := hp
    exact ⟨h.1, ih h.2 (List.prefix_append _ _)⟩

theorem slice_append {s : Section} {done p more : Bytes} (h : s.input = done ++ p ++ more) :
    s.slice (s.base + done.length) (s.base + done.length + p.length) = p := by
  unfold slice
  rw [h, Nat.add_sub_cancel_left, Nat.add_sub_cancel_left, List.append_assoc, List.drop_left,
    List.take_left]

/-- Pieces that follow one another in what was read give lines that tile it. -/
theorem covers_place (s : Section) (done : Bytes) {ps : List Bytes} (hne : ∀ p ∈ ps, p ≠ [])
    (hin : done ++ ps.flatten <+: s.input) :
    s.Covers (s.base + done.length)
      ((Greedy.place (s.base + done.length) ps).map (Line.ofPiece (some s.identifier))) := by
  induction ps generalizing done with
  | nil => trivial
  | cons p ps ih =>
    obtain ⟨hp, hps⟩ := List.forall_mem_cons.1 hne
    have hpos := List.length_pos_of_ne_nil hp
    rw [List.flatten_cons, ← List.append_assoc] at hin
    have hlen := hin.length_le
    simp only [List.length_append] at hlen
    have hslice : s.slice (s.base + done.length) (s.base + done.length + p.length) = p := by
      obtain ⟨more, hmore⟩ := hin
      rw [List.append_assoc] at hmore
      exact slice_append hmore.symm
    refine ⟨⟨rfl, ?_, ?_, (⟨p, s.base + done.length + p.length⟩ : Piece).content, ?_, rfl⟩, ?_⟩
    · show _ < s.base + done.length + p.length
      omega
    · show s.base + done.length + p.length ≤ _
      omega
    · show Strips (s.slice _ (s.base + done.length + p.length)) _
      rw [hslice]
      exact strips_content ⟨p, _⟩
    · have := ih (done ++ p) hps hin
      rwa [List.length_append, ← Nat.add_assoc] at this

theorem covers_script (s : Section) {limit : Option Nat} (hl : limit ≠ some 0) (flushed : Bool) :
    s.Covers s.base (s.script limit flushed) := by
  have hdiv : Greedy.Divides limit s.input _ (Greedy.rest limit s.input) :=
    (Greedy.divides_iff hl).2 rfl
  unfold script pieces
  cases flushed with
  | true =>
    rw [if_pos rfl, Greedy.pieces_append_remainder hl]
    refine covers_place s [] (hdiv.ne_nil hl) ?_
    rw [List.nil_append, hdiv.flatten hl]
  | false =>
    rw [if_neg Bool.false_ne_true, List.append_nil]
    refine covers_place s [] (fun p hp => hdiv.ne_nil hl p (List.mem_append_left _ hp)) ?_
    exact ⟨Greedy.rest limit s.input, Greedy.flatten_split hl s.input⟩

end Section

/-- **Every line of text given out has its bytes**: the lines are those of the sections, and the
lines of a section tile what was read in it from where its handle was placed. -/
theorem lines_tile_reads {fs : FileSystem} {path : Path} {config : Config} {t : Tailer}
    (h : Tailer.start fs path config = .ok t) {w : World}
    (hw : (World.start fs t).Reaches World.anyMove w) :
    texts (w.taken ++ w.tailer.queue) = told w.sections ∧
      ∀ s ∈ w.sections, Section.Contiguous s.base s.reads ∧ s.Covers s.base s.lines ∧
        (s.lines.map Line.offset).Pairwise (· < ·) := by
  have ha := hw.accounted (World.accounted_start h)
  refine ⟨ha.told, fun s hs => ?_⟩
  obtain ⟨flushed, hp⟩ := ha.ledger.lines_begin s hs
  have hc := (s.covers_script ha.sound.limit_ne_zero flushed).mono hp
  exact ⟨ha.reads s hs, hc, hc.pairwise⟩

theorem lines_tile_reads_rotated :
    Sample.rotated.taken.map Line.offset = [3, 4, 2] ∧
      texts (Sample.rotated.taken ++ Sample.rotated.tailer.queue) = told Sample.rotated.sections ∧
      ∀ s ∈ Sample.rotated.sections, Section.Contiguous s.base s.reads ∧ s.Covers s.base s.lines ∧
        (s.lines.map Line.offset).Pairwise (· < ·) := by
  refine ⟨by decide, lines_tile_reads Sample.start_eq ?_⟩
  have hstart : (World.start Sample.files Sample.tailer).Reaches World.anyMove
      (World.start Sample.files Sample.tailer) := .here
  have hfirst := World.reaches_works hstart (fun _ => trivial) 3
  have hmoved := (hfirst.move (m := .edit (.rename Sample.name Sample.other)) trivial).move
    (m := .edit (.append Sample.name [0x7A, lineFeed])) trivial
  exact (World.reaches_works hmoved (fun _ => trivial) 18).move (m := .receive none) trivial

end LogFollower
