import LogFollower.Proofs.Files
import LogFollower.Proofs.Provenance

/-!
# Positions that lines hand out

A line says where to start to get what follows it. That position is safe if it means the beginning
of every file but the one that it was measured in, so that nothing is skipped which the tailer has
not gone over.

A line that names its file is safe, and so is one that says offset 0. All lines name the file that
was open when they were made (`Placed.named`), with an offset in what was read of it. When no file
is open there are only errors of looking at the path and of opening it. They name no file, but say
the offset that the file before was left at (`Placed.nameless`): where that is not 0 they are not
safe. `skips_nothing_iff` says so of every line of every run, and `skips_supplanted` has a run with
such a line.
-/

namespace LogFollower

open FileSystem

/-- An offset where the handle of a section stood or that it went over. -/
def Section.Spans (s : Section) (offset : Nat) : Prop :=
  s.base ≤ offset ∧ offset ≤ s.base + s.input.length

/-- An offset at which a file was left, or 0 if none was open before. -/
def LeftAt (sections : List Section) (offset : Nat) : Prop :=
  offset = 0 ∨ ∃ s ∈ sections, s.Spans offset

/-- Where the offset of a line was measured. -/
inductive Line.Placed (sections : List Section) (l : Line) : Prop
  /-- In the file that the line names. -/
  | named {s : Section} (hs : s ∈ sections) (identity : l.identifier = some s.identifier)
      (spans : s.Spans l.offset)
  /-- In the file that was open before, while none was open and the path led to something that
  cannot be looked at or opened. -/
  | nameless {f : Fault} (identity : l.identifier = none) (error : l.error = some (.file f))
      (met : f.notFound = false) (left : LeftAt sections l.offset)

/-! ## Sections grow -/

/-- Sections that have gone on, and others beside them. -/
def Grown (sections sections' : List Section) : Prop :=
  ∀ s ∈ sections, ∃ s' ∈ sections', s'.object = s.object ∧ s'.base = s.base ∧
    s.input.length ≤ s'.input.length

namespace Grown

variable {sections sections' sections'' : List Section}

theorem refl (sections : List Section) : Grown sections sections :=
  fun s hs => ⟨s, hs, rfl, rfl, le_rfl⟩

theorem trans (h : Grown sections sections') (h' : Grown sections' sections'') :
    Grown sections sections'' := by
  intro s hs
  obtain ⟨s', hs', ho, hb, hlen⟩ := h s hs
  obtain ⟨s'', hs'', ho', hb', hlen'⟩ := h' s' hs'
  exact ⟨s'', hs'', ho'.trans ho, hb'.trans hb, hlen.trans hlen'⟩

theorem cons (s : Section) (sections : List Section) : Grown sections (s :: sections) :=
  fun s' hs' => ⟨s', List.mem_cons_of_mem s hs', rfl, rfl, le_rfl⟩

theorem noteLines (lines : List Line) (sections : List Section) :
    Grown sections (noteLines lines sections) := by
  cases sections with
  | nil => exact refl []
  | cons s past =>
    refine List.forall_mem_cons.2 ⟨⟨_, List.mem_cons_self, rfl, rfl, le_rfl⟩, fun s' hs' => ?_⟩
    exact ⟨s', List.mem_cons_of_mem _ hs', rfl, rfl, le_rfl⟩

theorem noteRead (offset : Nat) (bytes : Bytes) (sections : List Section) :
    Grown sections (noteRead offset bytes sections) := by
  cases sections with
  | nil => exact refl []
  | cons s past =>
    refine List.forall_mem_cons.2 ⟨⟨_, List.mem_cons_self, rfl, rfl, ?_⟩, fun s' hs' => ?_⟩
    · rw [s.input_read, List.length_append]
      exact Nat.le_add_right _ _
    · exact ⟨s', List.mem_cons_of_mem _ hs', rfl, rfl, le_rfl⟩

theorem noteSource (fs : FileSystem) (sections : List Section) (source source' : Source) :
    Grown sections (noteSource fs sections source source') := by
  cases source' with
  | away p => rw [noteSource_away]; exact refl sections
  | opened hd =>
    cases source with
    | away p => exact cons _ sections
    | opened hd' =>
      simp only [LogFollower.noteSource]
      split_ifs
      · exact cons _ sections
      · exact noteRead _ _ sections
      · exact refl sections

theorem after (w : World) (t : Tailer) : Grown w.sections (w.after t).sections :=
  (noteSource w.fs w.sections _ _).trans (noteLines _ _)

theorem leftAt (h : Grown sections sections') {offset : Nat} (hl : LeftAt sections offset) :
    LeftAt sections' offset := by
  refine hl.imp_right ?_
  rintro ⟨s, hs, hbase, hend⟩
  obtain ⟨s', hs', -, hb, hlen⟩ := h s hs
  exact ⟨s', hs', by omega, by omega⟩

theorem placed (h : Grown sections sections') {l : Line} (hl : l.Placed sections) :
    l.Placed sections' := by
  cases hl with
  | @named s hs identity spans =>
    obtain ⟨s', hs', ho, hb, hlen⟩ := h s hs
    obtain ⟨hbase, hend⟩ := spans
    refine .named hs' ?_ ⟨by omega, by omega⟩
    rw [identity, Section.identifier, Section.identifier, ho]
  | nameless identity error met left => exact .nameless identity error met (h.leftAt left)

end Grown

/-! ## Offsets of errors -/

/-- The last offset given out lies in what was read through the open handle. -/
theorem Ledger.spans {t : Tailer} {sections : List Section} (h : Ledger t sections)
    (hl : t.engine.splitter.limit ≠ some 0) {hd : Session} (ho : t.engine.source = .opened hd) :
    ∃ s ∈ sections, s.identifier = hd.identifier ∧ s.Spans t.engine.splitter.committed := by
  obtain ⟨s, past, flushed, rfl, -, hs⟩ := h.open ho
  refine ⟨s, List.mem_cons_self, ?_, ?_⟩
  · exact (congrArg Session.identifier (Source.opened.inj (ho.symm.trans hs.handle))).symm
  · rw [hs.cutting]
    cases flushed with
    | true => exact ⟨Nat.le_add_right _ _, le_rfl⟩
    | false =>
      have hflat := congrArg List.length (Greedy.flatten_split hl s.input)
      rw [List.length_append] at hflat
      refine ⟨Nat.le_add_right _ _, ?_⟩
      show s.base + (Greedy.split _ s.input).1.flatten.length ≤ _
      omega

namespace Tailer

open Engine

variable {fs : FileSystem} {now : Nat} {t t' : Tailer} {sections : List Section}

theorem Turn.splitter_eq (h : Turn fs now t t') (hf : t.engine.Fits)
    (ha : t'.engine.source.isAway = true) : t'.engine.splitter = t.engine.splitter := by
  cases h with
  | «open» | rewind | read => cases ha
  | flush hw =>
    obtain ⟨s, hs⟩ := opened_of_fits hf hw.stage_eq rfl
    have ha : t.engine.source.isAway = true := ha
    rw [hs] at ha
    cases ha
  | _ => rfl

theorem placed_errorLine (hs : t.Sound) (hl : Ledger t sections) {hd : Session}
    (ho : t.engine.source = .opened hd) (error : TailError) :
    (t.engine.errorLine error).Placed sections := by
  obtain ⟨s, hmem, hid, hspans⟩ := hl.spans hs.limit_ne_zero ho
  refine .named hmem ?_ hspans
  show t.engine.identifier = _
  unfold Engine.identifier
  rw [ho, hid]

theorem placed_fails (hs : t.Sound) (hl : Ledger t sections)
    (hleft : LeftAt sections t.engine.splitter.committed) {stage next : Stage} {error : TailError}
    (hw : t.Works stage) (hf : Fails fs t.engine stage error next) :
    (t.engine.errorLine error).Placed sections := by
  have nameless {f : Fault} (hst : stage.seeks = true) (hn : f.notFound = false) :
      (t.engine.errorLine (.file f)).Placed sections := by
    obtain ⟨p, hp⟩ := away_of_fits hs.fits hw.stage_eq hst
    refine .nameless ?_ rfl hn hleft
    show t.engine.identifier = none
    unfold Engine.identifier
    rw [hp]
  cases hf with
  | look _ hn => exact nameless rfl hn
  | reopen _ hn => exact nameless rfl hn
  | read ho => exact placed_errorLine hs hl ho _
  | check ho => exact placed_errorLine hs hl ho _

end Tailer

namespace World

open Tailer

variable {w : World}

/-- Every error line says where it was measured, and the engine knows where it left its file. -/
structure Positioned (w : World) : Prop where
  accounted : w.Accounted
  left : LeftAt w.sections w.tailer.engine.splitter.committed
  errors : ∀ l ∈ w.taken ++ (w.tailer.queue ++ w.tailer.engine.phase.inHand),
    l.isError = true → l.Placed w.sections

theorem Positioned.work (h : w.Positioned) : w.work.Positioned := by
  have hs := h.accounted.sound
  have ht := turn_step hs.fits w.fs w.now
  have hgrown := Grown.after w (w.tailer.step w.fs w.now)
  have hacc := h.accounted.work
  refine ⟨hacc, ?_, ?_⟩
  · cases ho : w.work.tailer.engine.source with
    | opened hd =>
      obtain ⟨s, hmem, -, hspans⟩ := hacc.ledger.spans hacc.sound.limit_ne_zero ho
      exact .inr ⟨s, hmem, hspans⟩
    | away p =>
      have hsplitter := ht.splitter_eq hs.fits (congrArg Source.isAway ho)
      show LeftAt _ (w.tailer.step w.fs w.now).engine.splitter.committed
      rw [hsplitter]
      exact hgrown.leftAt h.left
  · obtain ⟨htaken, hhand⟩ := List.forall_mem_append.1 h.errors
    refine List.forall_mem_append.2
      ⟨fun l hl he => hgrown.placed (htaken l hl he), ?_⟩
    refine ht.lines (fun l hl he => hgrown.placed (hhand l hl he)) (fun _ _ => nofun) ?_ ?_
    · exact fun _ _ _ hw hf _ =>
        hgrown.placed (placed_fails hs h.accounted.ledger h.left hw hf)
    · intro hw _ _
      obtain ⟨hd, ho⟩ := opened_of_fits hs.fits hw.stage_eq rfl
      exact hgrown.placed (placed_errorLine hs h.accounted.ledger ho _)

theorem Positioned.move (h : w.Positioned) (m : Move) : (w.move m).Positioned := by
  have hacc := h.accounted.move m
  cases m with
  | work => exact h.work
  | receive max =>
    refine ⟨hacc, h.left, ?_⟩
    have herrors := h.errors
    rw [← w.tailer.queue_receive max, List.append_assoc, ← List.append_assoc] at herrors
    exact herrors
  | edit change => exact ⟨hacc, h.left, h.errors⟩
  | wait ms => exact ⟨hacc, h.left, h.errors⟩
  | notify event => exact ⟨hacc, h.left, h.errors⟩
  | stop => exact ⟨hacc, h.left, h.errors⟩
  | cleanup => exact ⟨hacc, h.left, h.errors⟩

theorem positioned_start {fs : FileSystem} {path : Path} {config : Config} {t : Tailer}
    (h : Tailer.start fs path config = .ok t) : (World.start fs t).Positioned := by
  have hacc := accounted_start h
  obtain ⟨-, ⟨n, offset, -, -, rfl⟩ | ⟨f, -, -, -, rfl⟩⟩ := start_cases h
  · obtain ⟨s, hmem, -, hspans⟩ := hacc.ledger.spans hacc.sound.limit_ne_zero rfl
    exact ⟨hacc, .inr ⟨s, hmem, hspans⟩, fun _ hl => by cases hl⟩
  · exact ⟨hacc, .inl rfl, fun _ hl => by cases hl⟩

end World

namespace Section

theorem Covers.gives {s : Section} {start : Nat} {lines : List Line} (h : s.Covers start lines) :
    ∀ l ∈ lines, ∃ begin, start ≤ begin ∧ s.Gives begin l := by
  induction lines generalizing start with
  | nil => exact nofun
  | cons l lines ih =>
    refine List.forall_mem_cons.2 ⟨⟨start, le_rfl, h.1⟩, fun l' hl' => ?_⟩
    obtain ⟨begin, hle, hgives⟩ := ih h.2 l' hl'
    exact ⟨begin, h.1.start_lt.le.trans hle, hgives⟩

end Section

/-- Every line says where it was measured, or was met while no file was open. -/
theorem World.Positioned.placed {w : World} (h : w.Positioned) :
    ∀ l ∈ w.taken ++ w.tailer.queue, l.Placed w.sections := by
  intro l hl
  cases he : l.isError with
  | true =>
    refine h.errors l ?_ he
    rw [← List.append_assoc]
    exact List.mem_append_left _ hl
  | false =>
    -- a line of text is one of its section, and those tile what was read
    have htext : l ∈ texts (w.taken ++ w.tailer.queue) :=
      List.mem_filter.2 ⟨hl, by rw [he]; rfl⟩
    rw [h.accounted.told] at htext
    obtain ⟨lines, hlines, hmem⟩ := List.mem_flatten.1 htext
    obtain ⟨s, hs, rfl⟩ := List.mem_map.1 hlines
    have hs := List.mem_reverse.1 hs
    obtain ⟨flushed, hbegin⟩ := h.accounted.ledger.lines_begin s hs
    have hcovers := s.covers_script h.accounted.sound.limit_ne_zero flushed
    obtain ⟨begin, hle, hgives⟩ := hcovers.gives l (hbegin.subset hmem)
    exact .named hs hgives.identity ⟨by have := hgives.start_lt; omega, hgives.read⟩

/-! ## Starting again -/

namespace Line

/-- The position of a line that names a file, or says offset 0, is the beginning of every other
file. -/
theorem resolve_eq_zero_iff (l : Line) :
    (∀ g length, l.identifier ≠ some g → l.seekInfo.resolve g length = .ok 0) ↔
      (l.identifier = none → l.offset = 0) := by
  constructor
  · intro h hnone
    have hzero := h ⟨""⟩ 0 (by rw [hnone]; exact nofun)
    rw [seekInfo, SeekInfo.resolve_resume (by rw [hnone]; exact nofun)] at hzero
    have := Except.ok.inj hzero
    unfold maxOffset at this
    omega
  · intro h g length hne
    cases hid : l.identifier with
    | none =>
      rw [seekInfo, SeekInfo.resolve_resume (by rw [hid]; exact nofun), h hid]
      rfl
    | some id => exact SeekInfo.resolve_of_ne hid (fun e => hne (by rw [hid, e])) length

end Line

theorem Tailer.position_of_start {fs : FileSystem} {path : Path} {config : Config} {t : Tailer}
    (h : Tailer.start fs path config = .ok t) {seek : SeekInfo} (hl : config.location = some seek)
    {hd : Session} (ho : t.engine.source = .opened hd) :
    seek.resolve hd.identifier (fs.length hd.object) = .ok hd.position ∧
      hd.identifier = FileSystem.identify hd.object := by
  obtain ⟨-, ⟨n, offset, -, hoffset, rfl⟩ | ⟨f, -, -, -, rfl⟩⟩ := start_cases h
  · obtain rfl := Source.opened.inj ho
    unfold Config.startOffset at hoffset
    rw [hl] at hoffset
    exact ⟨hoffset, rfl⟩
  · cases ho

/-- A line hands out a safe position unless it names no file and says an offset in one. All
lines say where they were measured, and a tailer that is started at a safe position and does not
begin at the beginning goes on in a file that was open before, where that was read. -/
theorem skips_nothing_iff {fs : FileSystem} {path : Path} {config : Config} {t : Tailer}
    (h : Tailer.start fs path config = .ok t) {w : World}
    (hw : (World.start fs t).Reaches World.anyMove w) {l : Line}
    (hl : l ∈ w.taken ++ w.tailer.queue) :
    l.Placed w.sections ∧
    ((∀ g length, l.identifier ≠ some g → l.seekInfo.resolve g length = .ok 0) ↔
      (l.identifier = none → l.offset = 0)) ∧
    ((l.identifier = none → l.offset = 0) →
      ∀ fs' path' config' t' hd, config'.location = some l.seekInfo →
        Tailer.start fs' path' config' = .ok t' → t'.engine.source = .opened hd →
        0 < hd.position → ∃ s ∈ w.sections, s.object = hd.object ∧
          hd.position ≤ s.base + s.input.length) := by
  have hplaced := (hw.invariant (World.positioned_start h) fun _ m hu _ => hu.move m).placed l hl
  refine ⟨hplaced, l.resolve_eq_zero_iff, fun hsafe fs' path' config' t' hd hloc hstart ho hpos => ?_⟩
  obtain ⟨hresolve, hid⟩ := Tailer.position_of_start hstart hloc ho
  have other (hne : l.identifier ≠ some hd.identifier) : False := by
    rw [l.resolve_eq_zero_iff.2 hsafe _ _ hne] at hresolve
    exact hpos.ne (Except.ok.inj hresolve)
  cases hplaced with
  | nameless identity => exact (other (by rw [identity]; exact nofun)).elim
  | @named s hs identity spans =>
    by_cases hsame : s.object = hd.object
    · refine ⟨s, hs, hsame, ?_⟩
      rw [Line.seekInfo, SeekInfo.resolve_resume] at hresolve
      · have := Except.ok.inj hresolve
        have := spans.2
        omega
      · intro id h
        rw [hid, ← hsame]
        exact (Option.some.inj (h.symm.trans identity))
    · refine (other fun he => hsame ?_).elim
      rw [identity, hid] at he
      exact identify_inj (Option.some.inj he)

namespace Sample

/-- The file is removed after its first line was given out, and something comes that cannot be
opened. -/
def supplanted : World :=
  ((((World.start files tailer).works 3).move (.edit (.remove name))).move
    (.edit (.socket name))).works 13 |>.move (.receive none)

theorem reaches_supplanted : (World.start files tailer).Reaches World.anyMove supplanted := by
  have hstart : (World.start files tailer).Reaches World.anyMove (World.start files tailer) := .here
  have hfirst := World.reaches_works hstart (fun _ => trivial) 3
  have hgone := (hfirst.move (m := .edit (.remove name)) trivial).move
    (m := .edit (.socket name)) trivial
  exact (World.reaches_works hgone (fun _ => trivial) 13).move (m := .receive none) trivial

def lastLine : Line := .ofText "y" 4 (some (FileSystem.identify 1))

def resumed : Tailer :=
  ⟨⟨name, { config with location := some lastLine.seekInfo },
    .opened ⟨1, FileSystem.identify 1, 4⟩, .start 4 none, .polling 250, .ready (.read .catchUp)⟩,
    [], 1024, false, false⟩

end Sample

theorem skips_nothing_iff_resumed :
    Sample.lastLine ∈ Sample.supplanted.taken ++ Sample.supplanted.tailer.queue ∧
      Sample.lastLine.Placed Sample.supplanted.sections ∧
      ((∀ g length, Sample.lastLine.identifier ≠ some g →
          Sample.lastLine.seekInfo.resolve g length = .ok 0) ↔
        (Sample.lastLine.identifier = none → Sample.lastLine.offset = 0)) ∧
      ∃ s ∈ Sample.supplanted.sections, s.object = 1 ∧ 4 ≤ s.base + s.input.length := by
  have hmem : Sample.lastLine ∈ Sample.supplanted.taken ++ Sample.supplanted.tailer.queue := by
    decide
  obtain ⟨hplaced, hsafe, hagain⟩ :=
    skips_nothing_iff Sample.start_eq Sample.reaches_supplanted hmem
  exact ⟨hmem, hplaced, hsafe, hagain nofun Sample.files Sample.name
    { Sample.config with location := some Sample.lastLine.seekInfo } Sample.resumed _ rfl
    (by decide) rfl (by decide)⟩

/-- The line of the error that is met then names no file and says the offset that the removed file
was left at. Its position skips the beginning of every file. -/
theorem skips_supplanted :
    (World.start Sample.files Sample.tailer).Reaches World.anyMove Sample.supplanted ∧
      ∃ l ∈ Sample.supplanted.taken, l.offset = 4 ∧ l.identifier = none ∧
        l.seekInfo.resolve (FileSystem.identify 3) 9 = .ok 4 ∧
        ∀ s ∈ Sample.supplanted.sections, s.object = 1 := by
  refine ⟨Sample.reaches_supplanted,
    .ofError (.file (.system .noDevice)) 4 none, by decide, rfl, rfl, by decide, ?_⟩
  decide

end LogFollower
