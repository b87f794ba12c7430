import LogFollower.Proofs.OneShot
import LogFollower.Proofs.Resume

/-!
# Abreast of a file

A tailer that has a file open is `Abreast` of it while it is not past its end: what it read in its
newest section is what the file holds there. Every step that leaves the file open keeps it so
(`Abreast.turn`), and so does every change that leaves what was read where it is (`Abreast.edit`).
When the engine waits for a change, it has read all there is (`Abreast.caughtUp`).

The lines of a section and those of the file meet in `Section.linesFrom_eq`: the lines of a file are
those of what was read of it, and then those from the committed offset on. That offset is where the
last line of text ended (`Section.committed_splitter`).

A tailer is `Attentive` to a file as long as no look at the path finds the file gone.
-/

namespace LogFollower

/-! ## Where lines end -/

/-- Where the last line of text among some ended; if there is none, where it would have begun. -/
def lastOffset (start : Nat) (lines : List Line) : Nat :=
  ((texts lines).getLast?.map Line.offset).getD start

theorem lastOffset_append (start : Nat) (a b : List Line) :
    lastOffset start (a ++ b) = lastOffset (lastOffset start a) b := by
  unfold lastOffset
  rw [texts_append, List.getLast?_append]
  cases (texts b).getLast? <;> rfl

theorem lastOffset_place (identifier : Option FileIdentifier) (start : Nat) (ps : List Bytes) :
    lastOffset start ((Greedy.place start ps).map (Line.ofPiece identifier)) =
      start + ps.flatten.length := by
  induction ps generalizing start with
  | nil => rfl
  | cons p ps ih =>
    have hfirst : lastOffset start [Line.ofPiece identifier ⟨p, start + p.length⟩] =
        start + p.length := rfl
    rw [Greedy.place, List.map_cons, ← List.singleton_append, lastOffset_append, hfirst, ih,
      List.flatten_cons, List.length_append, Nat.add_assoc]

namespace Section

variable {s : Section} {limit : Option Nat} {bytes : Bytes}

theorem committed_splitter (s : Section) (hl : limit ≠ some 0) (flushed : Bool) :
    (s.splitter limit flushed).committed = lastOffset s.base (s.script limit flushed) := by
  unfold script pieces
  cases flushed with
  | false =>
    rw [if_neg Bool.false_ne_true, List.append_nil, Greedy.pieces, lastOffset_place]
    rfl
  | true =>
    have hdiv : Greedy.Divides limit s.input _ (Greedy.rest limit s.input) :=
      (Greedy.divides_iff hl).2 rfl
    rw [if_pos rfl, Greedy.pieces_append_remainder hl, lastOffset_place, hdiv.flatten hl]
    rfl

/-- Behind the committed offset there is what is held, and what was not read yet. -/
theorem drop_committed (hl : limit ≠ some 0) {more : Bytes}
    (h : s.input ++ more = bytes.drop s.base) :
    bytes.drop (s.splitter limit false).committed = Greedy.rest limit s.input ++ more := by
  have hwhole : s.input ++ more =
      (Greedy.split limit s.input).1.flatten ++ (Greedy.rest limit s.input ++ more) := by
    rw [← List.append_assoc, Greedy.flatten_split hl]
  show bytes.drop (s.base + (Greedy.split limit s.input).1.flatten.length) = _
  rw [← List.drop_drop, ← h, hwhole, List.drop_left]

/-- The lines of a file are those of what was read of it, and then those from the committed
offset on. -/
theorem linesFrom_eq (hl : limit ≠ some 0) (hin : s.input <+: bytes.drop s.base) :
    linesFrom limit s.base s.object bytes = s.script limit false ++
      linesFrom limit (s.splitter limit false).committed s.object bytes := by
  obtain ⟨more, hmore⟩ := hin
  unfold linesFrom script pieces
  rw [drop_committed hl hmore, ← hmore, Greedy.pieces_append hl, if_neg Bool.false_ne_true,
    List.append_nil, List.map_append]
  rfl

theorem script_eq_linesFrom (hin : s.input = bytes.drop s.base) :
    s.script limit false = linesFrom limit s.base s.object bytes := by
  unfold script pieces linesFrom
  rw [hin, if_neg Bool.false_ne_true, List.append_nil]
  rfl

end Section

/-! ## The lines underway -/

/-- The lines that were taken, that wait in the channel and that are about to be put there, oldest
first. -/
def World.stream (w : World) : List Line :=
  w.taken ++ (w.tailer.queue ++ w.tailer.engine.phase.inHand)

theorem World.stream_receive (w : World) (max : Option Nat) :
    (w.move (.receive max)).stream = w.stream := by
  show w.taken ++ (w.tailer.receive max).1 ++ ((w.tailer.receive max).2.2.queue ++ _) = _
  rw [List.append_assoc, ← List.append_assoc _ (w.tailer.receive max).2.2.queue,
    w.tailer.queue_receive max]
  rfl

theorem World.Quiet.stream_eq {w : World} (h : w.Quiet) :
    w.stream = w.taken ++ w.tailer.queue := by
  obtain ⟨-, due, next, hp⟩ := h
  rw [World.stream, hp]
  exact congrArg (w.taken ++ ·) (List.append_nil _)

/-! ## An open file -/

/-- The engine has a file open, and its handle stands behind what was read in the newest
section. -/
structure Holding (w : World) (s : Section) (past : List Section) (bytes : Bytes) : Prop where
  sections : w.sections = s :: past
  handle : w.tailer.engine.source = .opened ⟨s.object, s.identifier, s.base + s.input.length⟩
  file : w.fs.bytes? s.object = some bytes

namespace Holding

variable {w : World} {s : Section} {past : List Section} {bytes : Bytes}

theorem opened_eq (h : Holding w s past bytes) {hd : Session}
    (hs : w.tailer.engine.source = .opened hd) :
    hd = ⟨s.object, s.identifier, s.base + s.input.length⟩ :=
  Source.opened.inj (hs.symm.trans h.handle)

theorem consumed_eq (h : Holding w s past bytes) (ha : w.Accounted) :
    w.tailer.engine.splitter.consumed = s.base + s.input.length :=
  (ha.sound.position _ h.handle).symm

theorem «open» (h : Holding w s past bytes) (ha : w.Accounted) :
    ∃ flushed, s.Open w.tailer.engine.config.maxLineSize w.tailer.engine flushed := by
  obtain ⟨s', past', flushed, hsec, -, hs⟩ := ha.ledger.open h.handle
  obtain ⟨rfl, rfl⟩ := List.cons.inj (h.sections.symm.trans hsec)
  rw [ha.sound.limit] at hs
  exact ⟨flushed, hs⟩

theorem reading (h : Holding w s past bytes) (ha : w.Accounted)
    (hover : w.tailer.engine.phase.over = false) :
    w.tailer.engine.splitter = s.splitter w.tailer.engine.config.maxLineSize false ∧
      texts w.stream = told past ++ s.script w.tailer.engine.config.maxLineSize false := by
  obtain ⟨flushed, hs⟩ := h.open ha
  obtain rfl := hs.not_flushed hover
  have hon : w.tailer.engine.phase ≠ .ended := by
    intro he
    rw [he] at hover
    cases hover
  refine ⟨hs.cutting, ?_⟩
  rw [World.stream, ← List.append_assoc, texts_append, ha.told, h.sections, told_cons,
    List.append_assoc, hs.rest hon]

end Holding

/-! ## Reading on -/

/-- The engine has a file open, and is not past its end. -/
structure Abreast (path : Path) (w : World) (s : Section) (past : List Section) (bytes : Bytes) :
    Prop extends Holding w s past bytes where
  base : s.base ≤ bytes.length
  input : s.input <+: bytes.drop s.base
  quiet : w.looked = true → ∀ due next, w.tailer.engine.phase = .asleep due true next →
    next = .clear ∧ w.fs.find path = .ok s.object ∧ s.input = bytes.drop s.base

namespace Abreast

open Tailer Engine

variable {path : Path} {w w' : World} {s : Section} {past : List Section} {bytes : Bytes}
  {t : Tailer}

theorem place {hd : Session} (hsec : w.sections = .ofSession hd :: past)
    (hsrc : w.tailer.engine.source = .opened hd)
    (hid : hd.identifier = FileSystem.identify hd.object)
    (hb : w.fs.bytes? hd.object = some bytes) (hle : hd.position ≤ bytes.length)
    (hq : ∀ due next, w.tailer.engine.phase ≠ .asleep due true next) :
    Abreast path w (.ofSession hd) past bytes where
  sections := hsec
  handle := by
    rw [hsrc]
    show _ = Source.opened ⟨hd.object, FileSystem.identify hd.object, hd.position⟩
    rw [← hid]
  file := hb
  base := hle
  input := List.nil_prefix
  quiet := fun _ due next hp => absurd hp (hq due next)

theorem stop_le (h : Abreast path w s past bytes) : s.base + s.input.length ≤ bytes.length := by
  have hin := h.input.length_le
  have hbase := h.base
  rw [List.length_drop] at hin
  omega

theorem keep (h : Abreast path w s past bytes) (lines : List Line) (hfs : w'.fs = w.fs)
    (hsec : w'.sections = { s with lines } :: past)
    (hsrc : w'.tailer.engine.source = w.tailer.engine.source)
    (hq : w'.looked = true → ∀ due next, w'.tailer.engine.phase = .asleep due true next →
      next = .clear ∧ w.fs.find path = .ok s.object ∧ s.input = bytes.drop s.base) :
    Abreast path w' { s with lines } past bytes where
  sections := hsec
  handle := hsrc.trans h.handle
  file := hfs ▸ h.file
  base := h.base
  input := h.input
  quiet := hfs ▸ hq

/-- A look that finds nothing changed finds the file at the path, read to its end. -/
theorem found (h : Abreast path w s past bytes)
    (hc : classify (w.fs.look path) s.identifier (s.base + s.input.length) = .ok .none) :
    w.fs.find path = .ok s.object ∧ s.input = bytes.drop s.base := by
  obtain ⟨n, hn, hi, hlen⟩ := ofLength_of_classify hc nofun
  obtain rfl := FileSystem.identify_inj hi
  have hlen := Change.ofLength_eq_none hlen
  rw [FileSystem.length_of_bytes? h.file] at hlen
  exact ⟨hn, h.input.eq_of_length (by rw [List.length_drop]; omega)⟩

/-- Bytes that are read go on from what was read of the section. -/
theorem read (h : Abreast path w s past bytes) {new : Bytes} (hq : t.queue = w.tailer.queue)
    (hr : w.fs.read s.object (s.base + s.input.length) chunkSize = .ok new) (hb : new ≠ [])
    (hsrc : t.engine.source =
      .opened ⟨s.object, s.identifier, s.base + s.input.length + new.length⟩)
    (hquiet : ∀ due next, t.engine.phase ≠ .asleep due true next) :
    Abreast path (w.after t)
      { s with reads := s.reads ++ [(s.base + s.input.length, new)] } past bytes := by
  have hin := s.input_read (s.base + s.input.length) new
  refine ⟨⟨?_, ?_, h.file⟩, h.base, ?_, fun _ due next hp => absurd hp (hquiet due next)⟩
  · refine Eq.trans (World.sections_after_read hq h.handle hsrc hr hb) ?_
    rw [h.sections]
    rfl
  · refine hsrc.trans ?_
    rw [hin, List.length_append, ← Nat.add_assoc]
    rfl
  · rw [hin]
    exact Rotation.input_read_prefix h.input h.file hr

/-- A step that leaves the file open reads on in the section. -/
theorem turn (h : Abreast path w s past bytes) (ha : w.Accounted)
    (hpath : w.tailer.engine.path = path) (ht : Turn w.fs w.now w.tailer t)
    (ho : t.engine.source.isAway = false) :
    ∃ s', Abreast path (w.after t) s' past bytes ∧ s'.object = s.object ∧ s'.base = s.base := by
  have goes {t : Tailer} (hqueue : t.queue = w.tailer.queue)
      (hsrc : t.engine.source = w.tailer.engine.source)
      (hq : (w.after t).looked = true → ∀ due next, t.engine.phase = .asleep due true next →
        next = .clear ∧ w.fs.find path = .ok s.object ∧ s.input = bytes.drop s.base) :
      ∃ s', Abreast path (w.after t) s' past bytes ∧ s'.object = s.object ∧ s'.base = s.base :=
    ⟨s, h.keep s.lines rfl ((World.sections_after hqueue hsrc).trans h.sections) hsrc hq, rfl, rfl⟩
  have not_seeking {stage : Stage} (hw : w.tailer.Works stage) : stage.seeks = false := by
    rw [ha.sound.fits stage hw.stage_eq, h.handle]
    rfl
  cases ht with
  | idle =>
    refine goes rfl rfl fun hl due next hp => h.quiet ?_ due next hp
    exact World.looked_of_after hl (by rw [hp]; exact fun _ => nofun)
  | @hand line lines rest next hp =>
    refine ⟨_, h.keep (s.lines ++ texts [line]) rfl ?_ rfl fun _ _ _ => nofun, rfl, rfl⟩
    refine Eq.trans (World.sections_after_hand rfl rfl) ?_
    rw [h.sections]
    rfl
  | @wait stage next hw hp =>
    cases hp with
    | missing => cases not_seeking hw
    | same hs hc =>
      obtain rfl := h.opened_eq hs
      rw [hpath, h.consumed_eq ha] at hc
      refine goes rfl rfl fun _ due next hp => ?_
      cases hp
      exact ⟨rfl, h.found hc⟩
  | «open» hw => cases not_seeking hw
  | @rewind hd hw hs hc =>
    obtain rfl := h.opened_eq hs
    obtain ⟨n, hn, hi, hlen⟩ := ofLength_of_classify hc nofun
    obtain rfl := FileSystem.identify_inj hi
    have hlt := Change.ofLength_eq_truncated hlen
    have hle := h.stop_le
    rw [FileSystem.length_of_bytes? h.file, h.consumed_eq ha] at hlt
    omega
  | @read hd goal new hw hs hr hb =>
    obtain rfl := h.opened_eq hs
    exact ⟨_, h.read rfl hr hb rfl fun _ _ => nofun, rfl, rfl⟩
  | leave => cases ho
  | _ => exact goes rfl rfl fun _ _ _ => nofun

theorem outer (h : Abreast path w s past bytes) {m : Move} (hwork : m ≠ .work)
    (hedit : ∀ change, m ≠ .edit change) : Abreast path (w.move m) s past bytes := by
  cases m with
  | edit change => exact absurd rfl (hedit change)
  | work => exact absurd rfl hwork
  | _ => exact ⟨⟨h.sections, h.handle, h.file⟩, h.base, h.input, h.quiet⟩

theorem edit (h : Abreast path w s past bytes) {change : Edit} {new : Bytes}
    (hb : (w.fs.edit change).bytes? s.object = some new) (hle : s.base ≤ new.length)
    (hin : s.input <+: new.drop s.base) :
    Abreast path (w.move (.edit change)) s past new :=
  ⟨⟨h.sections, h.handle, hb⟩, hle, hin, nofun⟩

theorem grow (h : Abreast path w s past bytes) {change : Edit} {more : Bytes}
    (hb : (w.fs.edit change).bytes? s.object = some (bytes ++ more)) :
    Abreast path (w.move (.edit change)) s past (bytes ++ more) := by
  have hbase := h.base
  refine h.edit hb (by rw [List.length_append]; omega) ?_
  rw [List.drop_append_of_le_length hbase]
  exact h.input.trans (List.prefix_append _ _)

/-- When the engine waits, it has read all there is: the lines given out are those of the
file. -/
theorem caughtUp (h : Abreast path w s past bytes) (ha : w.Accounted) (hq : w.Quiet) :
    w.fs.find path = .ok s.object ∧ s.input = bytes.drop s.base ∧
      w.tailer.engine.splitter = s.splitter w.tailer.engine.config.maxLineSize false ∧
      s.lines = linesFrom w.tailer.engine.config.maxLineSize s.base s.object bytes := by
  have htold := ha.told
  rw [← hq.stream_eq] at htold
  obtain ⟨hlooked, due, next, hp⟩ := hq
  obtain ⟨rfl, hfind, hin⟩ := h.quiet hlooked due next hp
  obtain ⟨hcut, htexts⟩ := h.reading ha (by rw [hp]; rfl)
  rw [htold, h.sections, told_cons, Section.script_eq_linesFrom hin] at htexts
  exact ⟨hfind, hin, hcut, List.append_cancel_left htexts⟩

end Abreast

/-! ## A file that is never found gone -/

/-- The path leads to the file, or cannot be followed for another reason than that there is nothing
at its end. -/
def FileSystem.NotGone (fs : FileSystem) (path : Path) (n : Nat) : Prop :=
  fs.find path = .ok n ∨ ∃ f, fs.find path = .error f ∧ f.notFound = false

theorem FileSystem.NotGone.classify_ne {fs : FileSystem} {path : Path} {n : Nat}
    (h : fs.NotGone path n) (offset : Nat) :
    classify (fs.look path) (identify n) offset ≠ .ok .deleted := by
  intro hc
  obtain ⟨m, hm, hne⟩ | ⟨f, hf, hn⟩ := find_of_deleted hc
  · obtain hfind | ⟨f, hfind, -⟩ := h
    · exact hne (by rw [Except.ok.inj (hm.symm.trans hfind)])
    · cases hm.symm.trans hfind
  · obtain hfind | ⟨f', hfind, hn'⟩ := h
    · cases hf.symm.trans hfind
    · rw [Except.error.inj (hf.symm.trans hfind), hn'] at hn
      cases hn

/-- The engine follows a file that no look has found gone, and nobody stops it. -/
structure Attentive (path : Path) (config : Config) (n : Nat) (w : World) : Prop where
  accounted : w.Accounted
  config_eq : w.tailer.engine.config = config
  path_eq : w.tailer.engine.path = path
  follow : config.follow = true
  on : w.tailer.stopRequested = false ∧ w.tailer.closed = false
  there : w.fs.NotGone path n
  regular : ∃ bytes, w.fs.bytes? n = some bytes
  opened : ∃ position, w.tailer.engine.source = .opened ⟨n, FileSystem.identify n, position⟩
  attends : ∃ stage, w.tailer.engine.phase.stage? = some stage ∧ stage.attends = true

namespace Attentive

open Tailer Engine

variable {path : Path} {config : Config} {n : Nat} {w : World} {s : Section} {past : List Section}
  {bytes : Bytes} {t : Tailer} {stage next : Stage}

theorem attends_of (h : Attentive path config n w)
    (hp : w.tailer.engine.phase.stage? = some stage) : stage.attends = true := by
  obtain ⟨stage', hp', hs⟩ := h.attends
  exact Option.some.inj (hp'.symm.trans hp) ▸ hs

theorem not_works (h : Attentive path config n w) (hs : stage.attends = false) :
    ¬ w.tailer.Works stage := fun hw =>
  absurd (hs.symm.trans (h.attends_of hw.stage_eq)) nofun

theorem opened_eq (h : Attentive path config n w) {hd : Session}
    (hs : w.tailer.engine.source = .opened hd) :
    hd.object = n ∧ hd.identifier = FileSystem.identify n := by
  obtain ⟨position, ho⟩ := h.opened
  obtain rfl := Source.opened.inj (hs.symm.trans ho)
  exact ⟨rfl, rfl⟩

theorem limit_ne_zero (h : Attentive path config n w) : config.maxLineSize ≠ some 0 :=
  limit_ne_zero_of_valid (h.config_eq ▸ h.accounted.sound.valid)

theorem reading (h : Attentive path config n w) (hs : Holding w s past bytes) :
    w.tailer.engine.splitter = s.splitter config.maxLineSize false ∧
      texts w.stream = told past ++ s.script config.maxLineSize false := by
  obtain ⟨stage, hp, hattends⟩ := h.attends
  have hover : w.tailer.engine.phase.over = false := by
    unfold Phase.over
    rw [hp]
    cases stage <;> first | rfl | cases hattends
  have hreading := hs.reading h.accounted hover
  rwa [h.config_eq] at hreading

theorem passes (h : Attentive path config n w) {watcher : Watcher}
    (hp : Passes w.fs w.tailer.engine stage next watcher) (hs : stage.attends = true) :
    next.attends = true := by
  cases hp with
  | @readOut hd goal _ _ hf =>
    cases goal with
    | drain => cases hs
    | catchUp =>
      have := hf rfl
      rw [h.config_eq, h.follow] at this
      cases this
  | gone hs' hc =>
    rw [h.path_eq, (h.opened_eq hs').2] at hc
    exact absurd hc (h.there.classify_ne _)
  | caughtUp => rfl
  | clear => rfl
  | grown => rfl
  | _ => cases hs

/-- Nothing fails but a look, and only because the path cannot be followed. -/
theorem fails (h : Attentive path config n w) {error : TailError}
    (he : Fails w.fs w.tailer.engine stage error next) (hs : stage.attends = true) :
    next = .read .catchUp ∧ w.fs.find path ≠ .ok n := by
  cases he with
  | look => cases hs
  | reopen => cases hs
  | read hs' hr =>
    obtain ⟨bytes, hb⟩ := h.regular
    rw [FileSystem.read_regular (by rw [(h.opened_eq hs').1]; exact hb)] at hr
    cases hr
  | check hs' hc =>
    refine ⟨rfl, fun hfind => ?_⟩
    rw [h.path_eq, classify_look, hfind] at hc
    simp only at hc
    split_ifs at hc

/-- A step goes on following the file. -/
theorem turn (h : Attentive path config n w) (ht : Turn w.fs w.now w.tailer t) :
    (∃ position, t.engine.source = .opened ⟨n, FileSystem.identify n, position⟩) ∧
      ∃ stage, t.engine.phase.stage? = some stage ∧ stage.attends = true := by
  have held {hd : Session} (hs : w.tailer.engine.source = .opened hd) (position : Nat) :
      Source.opened { hd with position } = .opened ⟨n, FileSystem.identify n, position⟩ := by
    obtain ⟨hobject, hid⟩ := h.opened_eq hs
    rw [hobject, hid]
  cases ht with
  | idle => exact ⟨h.opened, h.attends⟩
  | quit hq => rcases hq with hq | hq <;> simp [h.on] at hq
  | @hand _ _ _ next hp | @rest next hp | @resume next hp | @wake _ _ next _ hp =>
    exact ⟨h.opened, next, rfl, h.attends_of (by rw [hp]; rfl)⟩
  | @pass stage next _ hw hp =>
    exact ⟨h.opened, next, rfl, h.passes hp (h.attends_of hw.stage_eq)⟩
  | @fail stage next _ hw he =>
    obtain ⟨rfl, -⟩ := h.fails he (h.attends_of hw.stage_eq)
    exact ⟨h.opened, _, rfl, rfl⟩
  | @wait stage next hw hp =>
    cases hp with
    | missing => exact absurd hw (h.not_works rfl)
    | same => exact ⟨h.opened, _, rfl, rfl⟩
  | rewind _ hs => exact ⟨⟨_, held hs 0⟩, _, rfl, rfl⟩
  | @read hd goal bytes hw hs => exact ⟨⟨_, held hs _⟩, _, rfl, h.attends_of hw.stage_eq⟩
  | «open» hw | flush hw | leave hw | last hw | finish hw => exact absurd hw (h.not_works rfl)

/-- What a step adds to the lines underway: lines of text, or the report of a failure. -/
theorem adds (h : Attentive path config n w) (ht : Turn w.fs w.now w.tailer t) :
    (∃ more, (w.after t).stream = w.stream ++ more ∧ ∀ l ∈ more, l.isError = false) ∨
      ∃ stage error next, w.tailer.Works stage ∧ Fails w.fs w.tailer.engine stage error next ∧
        (w.after t).stream = w.stream ++ [w.tailer.engine.errorLine error] := by
  have same {t : Tailer}
      (hlines : t.queue ++ t.engine.phase.inHand =
        w.tailer.queue ++ w.tailer.engine.phase.inHand) :
      ∃ more, (w.after t).stream = w.stream ++ more ∧ ∀ l ∈ more, l.isError = false :=
    ⟨[], by rw [List.append_nil]; exact congrArg (w.taken ++ ·) hlines, nofun⟩
  have behind {stage : Stage} (hw : w.tailer.Works stage) (lines : List Line) :
      w.taken ++ (w.tailer.queue ++ lines) = w.stream ++ lines := by
    rw [World.stream, hw.1]
    show _ = w.taken ++ (w.tailer.queue ++ []) ++ lines
    rw [List.append_nil, List.append_assoc]
  cases ht with
  | idle => exact .inl (same rfl)
  | quit hq => rcases hq with hq | hq <;> simp [h.on] at hq
  | @hand line lines rest next hp =>
    refine .inl (same ?_)
    rw [hp]
    exact List.append_assoc _ [line] lines
  | rest hp | resume hp | wake hp => exact .inl (same (by rw [hp]; rfl))
  | pass hw | wait hw | rewind hw => exact .inl (same (by rw [hw.1]; rfl))
  | fail hw he => exact .inr ⟨_, _, _, hw, he, behind hw _⟩
  | read hw => exact .inl ⟨_, behind hw _, List.forall_mem_map.2 fun _ _ => rfl⟩
  | «open» hw | flush hw | leave hw | last hw | finish hw => exact absurd hw (h.not_works rfl)

theorem routine (h : Attentive path config n w) {m : Move} (hm : m.routine = true) :
    Attentive path config n (w.move m) := by
  have accounted := h.accounted.move m
  cases m with
  | work =>
    have ht := turn_step h.accounted.sound.fits w.fs w.now
    obtain ⟨opened, attends⟩ := h.turn ht
    exact ⟨accounted, ht.config_eq.trans h.config_eq, ht.path_eq.trans h.path_eq, h.follow,
      ⟨ht.stopRequested_eq.trans h.on.1, ht.closed_eq.trans h.on.2⟩, h.there, h.regular, opened,
      attends⟩
  | wait | notify | receive => exact { h with accounted }
  | edit | stop | cleanup => cases hm

/-- A change that lets no look find the file gone is no matter. -/
theorem edit (h : Attentive path config n w) {change : Edit}
    (hc : (w.fs.edit change).NotGone path n) : Attentive path config n (w.move (.edit change)) :=
  have hkeeps := FileSystem.keeps_edit w.fs change n .regular
  { h with
    accounted := h.accounted.move _
    there := hc
    regular := FileSystem.kind?_regular_iff.1 (hkeeps (FileSystem.kind?_regular_iff.2 h.regular)) }

theorem reads_on (h : Attentive path config n w) (hs : Abreast path w s past bytes) {m : Move}
    (hm : m.routine = true) :
    ∃ s', Abreast path (w.move m) s' past bytes ∧ s'.object = s.object ∧ s'.base = s.base := by
  cases m with
  | work =>
    have ht := turn_step h.accounted.sound.fits w.fs w.now
    obtain ⟨position, ho⟩ := (h.turn ht).1
    exact hs.turn h.accounted h.path_eq ht (by rw [ho]; rfl)
  | wait | notify | receive => exact ⟨s, hs.outer nofun fun _ => nofun, rfl, rfl⟩
  | edit | stop | cleanup => cases hm

end Attentive

/-! ## Starting -/

theorem Tailer.start_opened {fs : FileSystem} {path : Path} {config : Config} {t : Tailer}
    {n o : Nat} {bytes : Bytes} (h : Tailer.start fs path config = .ok t)
    (hn : fs.find path = .ok n) (hb : fs.bytes? n = some bytes)
    (ho : config.startOffset (FileSystem.identify n) bytes.length = .ok o) :
    t = ⟨⟨path, config, .opened ⟨n, FileSystem.identify n, o⟩, .start o config.maxLineSize,
      .start fs path config, .ready (.read .catchUp)⟩, [], max 1 config.channelCapacity, false,
      false⟩ := by
  obtain ⟨-, ⟨n', o', hopen, ho', rfl⟩ | ⟨f, hopen, -, -, rfl⟩⟩ := start_cases h
  · obtain rfl := Except.ok.inj ((FileSystem.find_of_openFile hopen).symm.trans hn)
    rw [FileSystem.length_of_bytes? hb] at ho'
    obtain rfl := Except.ok.inj (ho'.symm.trans ho)
    rfl
  · cases (FileSystem.openFile_of_bytes? hn hb).symm.trans hopen

section Starting

variable {fs : FileSystem} {path : Path} {config : Config} {t : Tailer} {n o : Nat} {bytes : Bytes}

theorem abreast_start (h : Tailer.start fs path config = .ok t) (hn : fs.find path = .ok n)
    (hb : fs.bytes? n = some bytes)
    (ho : config.startOffset (FileSystem.identify n) bytes.length = .ok o)
    (hle : o ≤ bytes.length) :
    Abreast path (World.start fs t) (.ofSession ⟨n, FileSystem.identify n, o⟩) [] bytes := by
  obtain rfl := Tailer.start_opened h hn hb ho
  exact .place rfl rfl rfl hb hle nofun

theorem attentive_start (h : Tailer.start fs path config = .ok t) (hf : config.follow = true)
    (hn : fs.find path = .ok n) (hb : fs.bytes? n = some bytes)
    (ho : config.startOffset (FileSystem.identify n) bytes.length = .ok o) :
    Attentive path config n (World.start fs t) := by
  have accounted := World.accounted_start h
  obtain rfl := Tailer.start_opened h hn hb ho
  exact ⟨accounted, rfl, rfl, hf, ⟨rfl, rfl⟩, .inl hn, ⟨bytes, hb⟩, ⟨o, rfl⟩, _, rfl, rfl⟩

theorem stream_start (h : Tailer.start fs path config = .ok t) :
    (World.start fs t).stream = [] := by
  obtain ⟨-, ⟨n, offset, -, -, rfl⟩ | ⟨f, -, -, -, rfl⟩⟩ := Tailer.start_cases h <;> rfl

end Starting

end LogFollower
