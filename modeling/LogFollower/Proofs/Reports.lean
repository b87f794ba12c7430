import LogFollower.Proofs.Abreast
import LogFollower.Proofs.Standing
import LogFollower.Proofs.Tailer.Kept

/-!
# Which errors are reported

The engine meets errors at many points, and some of what it knows as an error is only the way its
task ends. `reported_errors` says what of this the consumer sees, whatever happens to the files and
whoever asks for a stop: failures of the file, with no text, and at the very end that the file is
gone, if that is asked for.

What the engine has found out when it comes to a stage is kept as `Knows`: a file that is gone was
found gone, and a file that is given up was read to its end after that. `Reporting` is what holds
in every world because of this; `Reporting.work` goes through it step by step.
-/

namespace LogFollower

/-- Whether an error is never reported: it refuses a caller, or it is how a task ends. -/
def TailError.withheld : TailError → Bool
  | .config _ => true
  | .stopped => true
  | .closed => true
  | .taskFailed => true
  | _ => false

/-- Whether a line reports that the file is gone and is not waited for. -/
def Line.tellsGone (l : Line) : Bool :=
  match l.error with
  | some (.gone _) => true
  | _ => false

/-- What a line that reports an error looks like. -/
def Line.Presentable (l : Line) : Prop := ∀ e, l.error = some e → l.text = "" ∧ e.withheld = false

theorem noteLines_of_texts {lines : List Line} (h : texts lines = []) (sections : List Section) :
    noteLines lines sections = sections := by
  cases sections with
  | nil => rfl
  | cons s past => rw [noteLines, h, List.append_nil]

theorem Engine.Fails.error_eq {fs : FileSystem} {e : Engine} {stage next : Stage} {error : TailError}
    (h : Engine.Fails fs e stage error next) : ∃ f, error = .file f := by
  cases h with
  | look | reopen | read => exact ⟨_, rfl⟩
  | check hs hc =>
    rw [classify_look] at hc
    cases hf : fs.find e.path with
    | ok n =>
      simp only [hf] at hc
      split at hc <;> cases hc
    | error f =>
      simp only [hf] at hc
      split at hc
      · cases hc
      · exact ⟨f, (Except.error.inj hc).symm⟩

namespace World

/-- The lines put into the channel, oldest first. -/
def given (w : World) : List Line := w.taken ++ w.tailer.queue

theorem stream_eq (w : World) : w.stream = w.given ++ w.tailer.engine.phase.inHand :=
  (List.append_assoc ..).symm

/-- On the way from one world to another a look at the path found that it does not lead to the
file that was open. -/
def Noticed (o w : World) (n : Nat) : Prop :=
  ∃ u, o.Reaches anyMove u ∧ u.Reaches anyMove w ∧ u.tailer.engine.phase = .ready .check ∧
    (∃ hd, u.tailer.engine.source = .opened hd ∧ hd.object = n) ∧
    ¬ u.fs.NotGone u.tailer.engine.path n

/-- On the way from one world to another an open file was read to its end, with following after it
was found gone. -/
def Exhausted (o w : World) (hd : Session) : Prop :=
  ∃ u, o.Reaches anyMove u ∧ u.Reaches anyMove w ∧ u.tailer.engine.source = .opened hd ∧
    u.fs.length hd.object ≤ hd.position ∧
    (u.tailer.engine.config.follow = true → o.Noticed u hd.object)

/-- The file of the newest section was read to its end, and all its lines were given out, the rest
among them unless only complete lines are wanted. -/
structure GaveOut (o w : World) (s : Section) : Prop where
  newest : w.sections.head? = some s
  exhausted : o.Exhausted w ⟨s.object, s.identifier, s.base + s.input.length⟩
  lines : s.lines = s.script w.tailer.engine.config.maxLineSize
    !w.tailer.engine.config.completeLines

/-- The task has done what it was started for. -/
def Finished (o w : World) : Prop :=
  (∃ s, o.GaveOut w s) ∧ (w.tailer.engine.config.follow = true →
    w.tailer.engine.config.reopen = false ∧
      (w.tailer.engine.config.failOnDelete = true → ∃ l ∈ w.given, l.tellsGone = true))

/-- What the engine has found out when it comes to a stage. -/
def Knows (o w : World) : Stage → Prop
  | .read .drain => ∃ hd, w.tailer.engine.source = .opened hd ∧ o.Noticed w hd.object
  | .flush => ∃ hd, w.tailer.engine.source = .opened hd ∧ o.Exhausted w hd
  | .leave => ∃ hd, w.tailer.engine.source = .opened hd ∧ o.Exhausted w hd ∧
    (w.tailer.engine.config.completeLines = false → w.tailer.engine.splitter.held = [])
  | .finish => (∃ s, o.GaveOut w s) ∧ texts w.tailer.engine.phase.inHand = [] ∧
    (w.tailer.engine.config.follow = true → w.tailer.engine.config.reopen = false ∧
      (w.tailer.engine.config.failOnDelete = true → ∃ l ∈ w.stream, l.tellsGone = true))
  | _ => True

/-- The last line underway reports that the file is gone, and this is how it should be. -/
structure Closing (o w : World) (before : List Line) (l : Line) : Prop where
  stream : w.stream = before ++ [l]
  gone : l.error = some (.gone w.tailer.engine.path.display)
  first : ∀ l ∈ before, l.tellsGone = false
  follow : w.tailer.engine.config.follow = true
  failOnDelete : w.tailer.engine.config.failOnDelete = true
  reopen : w.tailer.engine.config.reopen = false
  stage : ∀ stage, w.tailer.engine.phase.stage? = some stage → stage = .finish
  inHand : texts w.tailer.engine.phase.inHand = []
  gave : ∃ s, o.GaveOut w s

/-- What holds of the reports in every world that a tailer can reach. -/
structure Reporting (o w : World) : Prop where
  reached : o.Reaches anyMove w
  accounted : w.Accounted
  /-- A regular file is open, or a directory that is tried to be read. -/
  file : ∀ hd, w.tailer.engine.source = .opened hd → w.fs.kind? hd.object = some .regular ∨
    w.fs.kind? hd.object = some .directory ∧
      ∀ stage, w.tailer.engine.phase.stage? = some stage → stage = .read .catchUp
  knows : ∀ stage, w.tailer.engine.phase.stage? = some stage → o.Knows w stage
  ended : w.tailer.engine.phase = .ended →
    w.tailer.stopRequested = true ∨ w.tailer.closed = true ∨ o.Finished w
  last : (∀ l ∈ w.stream, l.tellsGone = false) ∨ ∃ before l, o.Closing w before l

/-! ## Knowledge stays -/

variable {o w v : World} {t : Tailer} {hd : Session} {s : Section} {stage next : Stage}

/-- What matters for the reports is as it was. -/
structure Continues (w v : World) : Prop where
  reaches : w.Reaches anyMove v
  source : v.tailer.engine.source = w.tailer.engine.source
  splitter : v.tailer.engine.splitter = w.tailer.engine.splitter
  config : v.tailer.engine.config = w.tailer.engine.config
  path : v.tailer.engine.path = w.tailer.engine.path
  sections : texts w.tailer.engine.phase.inHand = [] → v.sections = w.sections
  inHand : texts w.tailer.engine.phase.inHand = [] → texts v.tailer.engine.phase.inHand = []

theorem Noticed.on {n : Nat} (h : o.Noticed w n) (hv : w.Reaches anyMove v) : o.Noticed v n :=
  have ⟨u, hou, huw, hu⟩ := h
  ⟨u, hou, huw.trans hv, hu⟩

theorem Exhausted.on (h : o.Exhausted w hd) (hv : w.Reaches anyMove v) : o.Exhausted v hd :=
  have ⟨u, hou, huw, hu⟩ := h
  ⟨u, hou, huw.trans hv, hu⟩

theorem GaveOut.on (h : o.GaveOut w s) (hv : w.Reaches anyMove v) (hs : v.sections = w.sections)
    (hc : v.tailer.engine.config = w.tailer.engine.config) : o.GaveOut v s where
  newest := by rw [hs]; exact h.newest
  exhausted := h.exhausted.on hv
  lines := by rw [hc]; exact h.lines

theorem GaveOut.suffix (h : o.GaveOut w s) (ha : w.Accounted) : s.lines <:+ texts w.given := by
  obtain ⟨past, hsec⟩ := List.head?_eq_some_iff.1 h.newest
  show s.lines <:+ texts (w.taken ++ w.tailer.queue)
  rw [ha.told, hsec, told_cons]
  exact List.suffix_append _ _

theorem Knows.continues (h : o.Knows w stage) (hv : w.Continues v) (hs : v.stream = w.stream) :
    o.Knows v stage := by
  cases stage with
  | read goal =>
    cases goal with
    | catchUp => trivial
    | drain =>
      obtain ⟨hd, hsrc, hn⟩ := h
      exact ⟨hd, hv.source.trans hsrc, hn.on hv.reaches⟩
  | flush =>
    obtain ⟨hd, hsrc, he⟩ := h
    exact ⟨hd, hv.source.trans hsrc, he.on hv.reaches⟩
  | leave =>
    obtain ⟨hd, hsrc, he, hheld⟩ := h
    refine ⟨hd, hv.source.trans hsrc, he.on hv.reaches, ?_⟩
    rw [hv.config, hv.splitter]
    exact hheld
  | finish =>
    obtain ⟨⟨s, hgave⟩, hhand, hlast⟩ := h
    refine ⟨⟨s, hgave.on hv.reaches (hv.sections hhand) hv.config⟩, hv.inHand hhand, ?_⟩
    rw [hv.config, hs]
    exact hlast
  | arm | look | reopen | clear | check => trivial

theorem Closing.continues {before : List Line} {l : Line} (h : o.Closing w before l)
    (hv : w.Continues v) (hs : v.stream = w.stream)
    (hstage : ∀ stage, v.tailer.engine.phase.stage? = some stage →
      w.tailer.engine.phase.stage? = some stage) : o.Closing v before l where
  stream := hs.trans h.stream
  gone := by rw [hv.path]; exact h.gone
  first := h.first
  follow := by rw [hv.config]; exact h.follow
  failOnDelete := by rw [hv.config]; exact h.failOnDelete
  reopen := by rw [hv.config]; exact h.reopen
  stage := fun stage hst => h.stage stage (hstage stage hst)
  inHand := hv.inHand h.inHand
  gave := have ⟨s, hgave⟩ := h.gave
    ⟨s, hgave.on hv.reaches (hv.sections h.inHand) hv.config⟩

/-- The report is in the channel, or still in the hand. -/
theorem Closing.given {before : List Line} {l : Line} (h : o.Closing w before l) :
    w.given = before ++ [l] ∨ w.given <+: before := by
  rw [← List.prefix_concat_iff, ← h.stream, stream_eq]
  exact List.prefix_append _ _

namespace Reporting

open Tailer Engine

/-- The engine is done with a file: all lines of it were given out. -/
theorem gaveOut (h : Reporting o w) (hp : w.tailer.engine.phase = .ready .leave) :
    ∃ s, o.GaveOut w s := by
  obtain ⟨hd, hsrc, he, hheld⟩ := h.knows .leave (by rw [hp]; rfl)
  obtain ⟨s, past, flushed, hsec, -, hs⟩ := h.accounted.ledger.open hsrc
  obtain rfl := Source.opened.inj (hsrc.symm.trans hs.handle)
  refine ⟨s, by rw [hsec]; rfl, he, ?_⟩
  rw [← h.accounted.sound.limit]
  exact hs.lines_of_emptied (by rw [hp]; exact nofun) (by rw [hp]; rfl) hheld

theorem not_fails (h : Reporting o w) {error : TailError} (hw : w.tailer.Works (.read .drain)) :
    ¬ Fails w.fs w.tailer.engine (.read .drain) error next := by
  intro hf
  cases hf with
  | @read hd _ f hs hr =>
    obtain hreg | ⟨-, hstage⟩ := h.file hd hs
    · obtain ⟨bytes, hb⟩ := FileSystem.kind?_regular_iff.1 hreg
      cases (FileSystem.read_regular hb _ _).symm.trans hr
    · cases hstage _ hw.stage_eq

theorem exhausted (h : Reporting o w) {goal : Goal} (hw : w.tailer.Works (.read goal))
    (hs : w.tailer.engine.source = .opened hd)
    (hr : w.fs.read hd.object hd.position chunkSize = .ok [])
    (hf : goal = .catchUp → w.tailer.engine.config.follow = false) : o.Exhausted w hd := by
  obtain ⟨bytes, hb, hnil⟩ := FileSystem.bytes?_of_read hr
  refine ⟨w, h.reached, .here, hs, ?_, fun hfollow => ?_⟩
  · rw [FileSystem.length_of_bytes? hb]
    exact (List.take_eq_nil_iff.1 hnil.symm).elim nofun List.drop_eq_nil_iff.1
  · cases goal with
    | catchUp => exact absurd (hfollow.symm.trans (hf rfl)) nofun
    | drain =>
      obtain ⟨hd', hs', hn⟩ := h.knows _ hw.stage_eq
      obtain rfl := Source.opened.inj (hs.symm.trans hs')
      exact hn

theorem noticed (h : Reporting o w) (hw : w.tailer.Works .check)
    (hs : w.tailer.engine.source = .opened hd)
    (hc : classify (w.fs.look w.tailer.engine.path) hd.identifier
      w.tailer.engine.splitter.consumed = .ok .deleted) : o.Noticed w hd.object := by
  refine ⟨w, h.reached, .here, hw.1, ⟨hd, hs, rfl⟩, fun hgone => ?_⟩
  rw [h.accounted.sound.identity hd hs] at hc
  exact hgone.classify_ne _ hc

/-! ## One step -/

theorem stream_after (hw : w.tailer.Works stage) (hq : t.queue = w.tailer.queue) :
    (w.after t).stream = w.stream ++ t.engine.phase.inHand := by
  have hnil : w.tailer.engine.phase.inHand = [] := by rw [hw.1]; rfl
  rw [stream_eq, stream_eq, hnil, List.append_nil]
  exact congrArg (w.taken ++ · ++ _) hq

/-- A line that is handed over was underway before. -/
theorem stream_hand {line : Line} {lines : List Line} {rest : Bool}
    (hp : w.tailer.engine.phase = .handing (line :: lines) rest next) :
    (w.after { w.tailer.withPhase (.handing lines rest next) with
      queue := w.tailer.queue ++ [line] }).stream = w.stream := by
  rw [stream, stream, hp]
  exact congrArg (w.taken ++ ·) (List.append_assoc w.tailer.queue [line] lines)

/-- What a step goes on with, if it stays at its stage. -/
theorem continues_after (hv : w.Reaches anyMove (w.after t)) (ht : Turn w.fs w.now w.tailer t)
    (hq : t.queue = w.tailer.queue) (hsrc : t.engine.source = w.tailer.engine.source)
    (hspl : t.engine.splitter = w.tailer.engine.splitter)
    (hhand : texts w.tailer.engine.phase.inHand = [] → texts t.engine.phase.inHand = []) :
    w.Continues (w.after t) :=
  ⟨hv, hsrc, hspl, ht.config_eq, ht.path_eq, fun _ => sections_after hq hsrc, hhand⟩

theorem continues_hand (hv : w.Reaches anyMove (w.after t)) (ht : Turn w.fs w.now w.tailer t)
    {line : Line} {lines : List Line} (hp : w.tailer.engine.phase.inHand = line :: lines)
    (hq : t.queue = w.tailer.queue ++ [line]) (hh : t.engine.phase.inHand = lines)
    (hsrc : t.engine.source = w.tailer.engine.source)
    (hspl : t.engine.splitter = w.tailer.engine.splitter) : w.Continues (w.after t) := by
  have hparts (hnil : texts w.tailer.engine.phase.inHand = []) :
      texts [line] = [] ∧ texts lines = [] := by
    rw [hp, texts_cons] at hnil
    exact List.append_eq_nil_iff.1 hnil
  refine ⟨hv, hsrc, hspl, ht.config_eq, ht.path_eq, fun hnil => ?_, fun hnil => ?_⟩
  · rw [sections_after_hand hq hsrc, noteLines_of_texts (hparts hnil).1]
  · rw [show (w.after t).tailer.engine.phase.inHand = lines from hh]
    exact (hparts hnil).2

/-- What the engine finds out where it passes from stage to stage. -/
theorem knows_pass (h : Reporting o w) {watcher : Watcher}
    (hv : w.Reaches anyMove (w.after { w.tailer with
      engine := { w.tailer.engine with watcher, phase := .ready next } }))
    (hw : w.tailer.Works stage) (hp : Passes w.fs w.tailer.engine stage next watcher) :
    o.Knows (w.after { w.tailer with
      engine := { w.tailer.engine with watcher, phase := .ready next } }) next := by
  cases hp with
  | arm | found | vanished | caughtUp | clear | grown => trivial
  | gone hs hc => exact ⟨_, hs, (h.noticed hw hs hc).on hv⟩
  | readOut hs hr hf => exact ⟨_, hs, (h.exhausted hw hs hr hf).on hv⟩
  | kept hk =>
    obtain ⟨hd, hs, he⟩ := h.knows _ hw.stage_eq
    refine ⟨hd, hs, he.on hv, fun hc => hk.resolve_left fun hc' => ?_⟩
    cases hc.symm.trans hc'
  | done hd =>
    obtain ⟨s, hgave⟩ := h.gaveOut hw.1
    refine ⟨⟨s, hgave.on hv (sections_after rfl rfl) rfl⟩, rfl, fun hf => ⟨(hd hf).1, fun hg => ?_⟩⟩
    cases (hd hf).2.symm.trans hg

theorem knows_turn (h : Reporting o w) (hv : w.Reaches anyMove (w.after t))
    (ht : Turn w.fs w.now w.tailer t) {stage : Stage}
    (hst : t.engine.phase.stage? = some stage) : o.Knows (w.after t) stage := by
  have hturn := ht
  cases ht with
  | idle => exact (h.knows stage hst).continues (continues_after hv hturn rfl rfl rfl id) rfl
  | quit => cases hst
  | @hand line lines rest next hp =>
    have hknows := h.knows stage (by rw [hp]; exact hst)
    exact hknows.continues (continues_hand hv hturn (by rw [hp]; rfl) rfl rfl rfl rfl)
      (stream_hand hp)
  | rest hp | resume hp | wake hp =>
    have hknows := h.knows stage (by rw [hp]; exact hst)
    refine hknows.continues (continues_after hv hturn rfl rfl rfl fun _ => rfl) ?_
    rw [stream, stream, hp]
    rfl
  | pass hw hp =>
    obtain rfl := Option.some.inj hst
    exact h.knows_pass hv hw hp
  | fail hw he =>
    obtain rfl := Option.some.inj hst
    cases he with
    | @read _ goal =>
      cases goal with
      | catchUp => trivial
      | drain => exact absurd (.read ‹_› ‹_›) (h.not_fails hw)
    | look | reopen | check => trivial
  | wait hw hwait =>
    obtain rfl := Option.some.inj hst
    cases hwait <;> trivial
  | «open» | rewind | leave =>
    obtain rfl := Option.some.inj hst
    trivial
  | @read hd goal bytes hw hs =>
    obtain rfl := Option.some.inj hst
    cases goal with
    | catchUp => trivial
    | drain =>
      obtain ⟨hd', hs', hn⟩ := h.knows _ hw.stage_eq
      obtain rfl := Source.opened.inj (hs.symm.trans hs')
      exact ⟨_, rfl, hn.on hv⟩
  | flush hw =>
    obtain rfl := Option.some.inj hst
    obtain ⟨hd, hs, he⟩ := h.knows _ hw.stage_eq
    exact ⟨hd, hs, he.on hv, fun _ => rfl⟩
  | last hw hf hr =>
    obtain rfl := Option.some.inj hst
    obtain ⟨s, hgave⟩ := h.gaveOut hw.1
    refine ⟨⟨s, hgave.on hv (sections_after rfl rfl) rfl⟩, rfl, fun _ => ⟨hr, fun _ => ?_⟩⟩
    exact ⟨_, List.mem_append_right _ (List.mem_append_right _ (List.mem_singleton_self _)), rfl⟩
  | finish => cases hst

/-- Why a task has ended after a step. -/
theorem ended_turn (h : Reporting o w) (hv : w.Reaches anyMove (w.after t))
    (ht : Turn w.fs w.now w.tailer t) (hend : t.engine.phase = .ended) :
    t.stopRequested = true ∨ t.closed = true ∨ o.Finished (w.after t) := by
  cases ht with
  | idle =>
    refine (h.ended hend).imp_right (Or.imp_right fun hfin => ?_)
    obtain ⟨⟨s, hgave⟩, hlast⟩ := hfin
    exact ⟨⟨s, hgave.on hv (sections_after rfl rfl) rfl⟩, hlast⟩
  | quit hq => exact hq.imp_right .inl
  | finish hw =>
    obtain ⟨⟨s, hgave⟩, -, hlast⟩ := h.knows _ hw.stage_eq
    refine .inr (.inr ⟨⟨s, hgave.on hv (sections_after rfl rfl) rfl⟩, ?_⟩)
    rw [stream_eq, hw.1] at hlast
    exact (List.append_nil w.given) ▸ hlast
  | _ => cases hend

/-! ### The last report -/

theorem last_continues (h : Reporting o w) (hc : w.Continues v) (hs : v.stream = w.stream)
    (hstage : ∀ stage, v.tailer.engine.phase.stage? = some stage →
      w.tailer.engine.phase.stage? = some stage) :
    (∀ l ∈ v.stream, l.tellsGone = false) ∨ ∃ before l, o.Closing v before l := by
  refine h.last.imp (fun hl => by rw [hs]; exact hl) ?_
  rintro ⟨before, l, hclosing⟩
  exact ⟨before, l, hclosing.continues hc hs hstage⟩

/-- The file was not reported gone before the last stage. -/
theorem untold (h : Reporting o w) (hw : w.tailer.Works stage) (hne : stage ≠ .finish) :
    ∀ l ∈ w.stream, l.tellsGone = false :=
  h.last.resolve_right fun ⟨_, _, hclosing⟩ => hne (hclosing.stage _ hw.stage_eq)

theorem untold_after (h : Reporting o w) (hw : w.tailer.Works stage) (hne : stage ≠ .finish)
    (hq : t.queue = w.tailer.queue) (hnew : ∀ l ∈ t.engine.phase.inHand, l.tellsGone = false) :
    ∀ l ∈ (w.after t).stream, l.tellsGone = false := by
  rw [stream_after hw hq]
  exact List.forall_mem_append.2 ⟨h.untold hw hne, hnew⟩

/-- An engine that quits keeps the report, or drops it with what it had in its hand. -/
theorem last_quit (h : Reporting o w) (hc : w.Continues (w.after w.tailer.quit)) :
    (∀ l ∈ (w.after w.tailer.quit).stream, l.tellsGone = false) ∨
      ∃ before l, o.Closing (w.after w.tailer.quit) before l := by
  have hgiven : (w.after w.tailer.quit).stream = w.given := by
    rw [stream_eq]
    exact List.append_nil _
  obtain hl | ⟨before, l, hclosing⟩ := h.last
  · exact .inl fun l hm => hl l (w.stream_eq ▸ List.mem_append_left _ (hgiven ▸ hm))
  · obtain hall | hpre := hclosing.given
    · exact .inr ⟨before, l, hclosing.continues hc
        (hgiven.trans (hall.trans hclosing.stream.symm)) fun _ hst => by cases hst⟩
    · exact .inl fun l hm => hclosing.first l (hpre.subset (hgiven ▸ hm))

theorem last_turn (h : Reporting o w) (hv : w.Reaches anyMove (w.after t))
    (ht : Turn w.fs w.now w.tailer t) :
    (∀ l ∈ (w.after t).stream, l.tellsGone = false) ∨
      ∃ before l, o.Closing (w.after t) before l := by
  have hturn := ht
  cases ht with
  | idle => exact h.last_continues (continues_after hv hturn rfl rfl rfl id) rfl fun _ => id
  | quit => exact h.last_quit (continues_after hv hturn rfl rfl rfl fun _ => rfl)
  | hand hp =>
    have hc := continues_hand hv hturn (by rw [hp]; rfl) rfl rfl rfl rfl
    exact h.last_continues hc (stream_hand hp) fun stage hst => by rw [hp]; exact hst
  | rest hp | resume hp | wake hp =>
    refine h.last_continues (continues_after hv hturn rfl rfl rfl fun _ => rfl) ?_
      fun stage hst => by rw [hp]; exact hst
    rw [stream, stream, hp]
    rfl
  | pass hw hp =>
    exact .inl (h.untold_after hw (by rintro rfl; cases hp) rfl (List.forall_mem_nil _))
  | fail hw he =>
    refine .inl (h.untold_after hw (by rintro rfl; cases he) rfl (List.forall_mem_singleton.2 ?_))
    obtain ⟨f, rfl⟩ := he.error_eq
    rfl
  | wait hw hwait =>
    exact .inl (h.untold_after hw (by rintro rfl; cases hwait) rfl (List.forall_mem_nil _))
  | «open» hw | rewind hw | leave hw =>
    exact .inl (h.untold_after hw (by simp) rfl (List.forall_mem_nil _))
  | read hw => exact .inl (h.untold_after hw (by simp) rfl (List.forall_mem_map.2 fun _ _ => rfl))
  | flush hw => exact .inl (h.untold_after hw (by simp) rfl (List.forall_mem_singleton.2 rfl))
  | last hw hf hr hd =>
    obtain ⟨s, hgave⟩ := h.gaveOut hw.1
    exact .inr ⟨w.stream, _, stream_after hw rfl, rfl, h.untold hw (by simp), hf, hd, hr,
      fun stage hst => (Option.some.inj hst).symm, rfl,
      s, hgave.on hv (sections_after rfl rfl) rfl⟩
  | finish hw =>
    refine h.last_continues (continues_after hv hturn rfl rfl rfl fun _ => rfl) ?_
      fun _ hst => by cases hst
    rw [stream, stream, hw.1]
    rfl

theorem work (h : Reporting o w) : Reporting o (w.move .work) := by
  have ht := turn_step h.accounted.sound.fits w.fs w.now
  have hv : w.Reaches anyMove (w.after (w.tailer.step w.fs w.now)) := .move (m := .work) .here trivial
  exact ⟨h.reached.move trivial, h.accounted.move .work, ht.file h.accounted.sound.fits h.file,
    fun _ hst => h.knows_turn hv ht hst, h.ended_turn hv ht, h.last_turn hv ht⟩

/-- What is done to the files, the clock, the channel and the stop request leaves the engine's
knowledge alone. -/
theorem outer (h : Reporting o w) (hc : w.Continues v) (accounted : v.Accounted)
    (hkeeps : FileSystem.Keeps w.fs v.fs)
    (hphase : v.tailer.engine.phase = w.tailer.engine.phase) (hsec : v.sections = w.sections)
    (hs : v.stream = w.stream) (hstop : w.tailer.stopRequested = true → v.tailer.stopRequested = true)
    (hclosed : w.tailer.closed = true → v.tailer.closed = true) : Reporting o v where
  reached := h.reached.trans hc.reaches
  accounted := accounted
  file := fun hd hsrc => by
    rw [hphase]
    exact (h.file hd (hc.source.symm.trans hsrc)).imp (hkeeps _ _)
      fun ⟨hdir, hstage⟩ => ⟨hkeeps _ _ hdir, hstage⟩
  knows := fun stage hst => (h.knows stage (hphase ▸ hst)).continues hc hs
  ended := fun hend => by
    rw [hphase] at hend
    refine (h.ended hend).imp hstop (Or.imp hclosed ?_)
    rintro ⟨⟨s, hgave⟩, hlast⟩
    have hgiven : v.given = w.given := by
      rw [stream_eq, stream_eq, hphase, hend] at hs
      exact List.append_cancel_right hs
    exact ⟨⟨s, hgave.on hc.reaches hsec hc.config⟩, by rw [hgiven, hc.config]; exact hlast⟩
  last := h.last_continues hc hs fun stage hst => hphase ▸ hst

theorem continues_move {m : Move} (hm : m ≠ .work) : w.Continues (w.move m) := by
  have hv : w.Reaches anyMove (w.move m) := .move .here trivial
  cases m with
  | work => exact absurd rfl hm
  | _ => exact ⟨hv, rfl, rfl, rfl, rfl, fun _ => rfl, id⟩

theorem move (h : Reporting o w) (m : Move) : Reporting o (w.move m) := by
  have accounted := h.accounted.move m
  by_cases hm : m = .work
  · rw [hm]
    exact h.work
  have hc := continues_move (w := w) hm
  cases m with
  | work => exact absurd rfl hm
  | edit change => exact h.outer hc accounted (FileSystem.keeps_edit w.fs change) rfl rfl rfl id id
  | receive max => exact h.outer hc accounted (.refl _) rfl rfl (w.stream_receive max) id id
  | wait | notify => exact h.outer hc accounted (.refl _) rfl rfl rfl id id
  | stop => exact h.outer hc accounted (.refl _) rfl rfl rfl (fun _ => rfl) id
  | cleanup => exact h.outer hc accounted (.refl _) rfl rfl rfl (fun _ => rfl) fun _ => rfl

/-! ## What was given out -/

theorem mem_stream {l : Line} (h : l ∈ w.given) : l ∈ w.stream := by
  rw [stream_eq]
  exact List.mem_append_left _ h

theorem not_before (h : Reporting o w) : ∀ l ∈ w.given.dropLast, l.tellsGone = false := by
  obtain hl | ⟨before, l, hclosing⟩ := h.last
  · exact fun l hm => hl l (mem_stream (List.mem_of_mem_dropLast hm))
  · refine fun l hm => hclosing.first l ?_
    obtain hall | hpre := hclosing.given
    · rwa [hall, List.dropLast_concat] at hm
    · exact hpre.subset (List.mem_of_mem_dropLast hm)

/-- A report that the file is gone is as it should be. -/
theorem closing (h : Reporting o w) {l : Line} (hl : l ∈ w.given) (hgone : l.tellsGone = true) :
    ∃ before, o.Closing w before l := by
  have hne {l' : Line} (h' : l'.tellsGone = false) : l ≠ l' := by
    rintro rfl
    exact absurd (h'.symm.trans hgone) nofun
  obtain hnone | ⟨before, l', hclosing⟩ := h.last
  · exact absurd rfl (hne (hnone l (mem_stream hl)))
  · obtain hall | hpre := hclosing.given
    · rw [hall] at hl
      obtain hin | hin := List.mem_append.1 hl
      · exact absurd rfl (hne (hclosing.first l hin))
      · obtain rfl := List.mem_singleton.1 hin
        exact ⟨before, hclosing⟩
    · exact absurd rfl (hne (hclosing.first l (hpre.subset hl)))

end Reporting

variable {fs : FileSystem} {path : Path} {config : Config}

theorem reporting_start (h : Tailer.start fs path config = .ok t) :
    Reporting (World.start fs t) (World.start fs t) := by
  have accounted := accounted_start h
  have hfile := (Tailer.kept_start h 0).file
  have hnone := stream_start h
  refine ⟨.here, accounted, hfile, ?_, ?_, .inl (by rw [hnone]; exact List.forall_mem_nil _)⟩
  all_goals
    obtain ⟨-, ⟨n, offset, -, -, rfl⟩ | ⟨f, -, -, -, rfl⟩⟩ := Tailer.start_cases h
  · rintro stage ⟨⟩
    trivial
  · rintro stage ⟨⟩
    trivial
  · exact nofun
  · exact nofun

theorem Reaches.presentable {allowed : World → Move → Prop} (h : w.Reaches allowed v)
    (ha : w.Accounted) (hl : ∀ l ∈ w.stream, l.Presentable) : ∀ l ∈ v.stream, l.Presentable := by
  refine (h.invariant (motive := fun u => u.Accounted ∧ ∀ l ∈ u.stream, l.Presentable)
    ⟨ha, hl⟩ ?_).2
  rintro u m ⟨ha, hl⟩ -
  refine ⟨ha.move m, ?_⟩
  cases m with
  | work =>
    have ht := Tailer.turn_step ha.sound.fits u.fs u.now
    obtain ⟨htaken, hown⟩ := List.forall_mem_append.1 hl
    refine List.forall_mem_append.2 ⟨htaken, ht.lines hown (fun _ _ _ => nofun) ?_ ?_⟩
    · rintro stage error next - hfails e ⟨⟩
      obtain ⟨f, rfl⟩ := hfails.error_eq
      exact ⟨rfl, rfl⟩
    · rintro - - e ⟨⟩
      exact ⟨rfl, rfl⟩
  | receive max => rw [stream_receive]; exact hl
  | _ => exact hl

end World

section Reported

open World

variable {fs : FileSystem} {path : Path} {config : Config} {t : Tailer} {w : World}

/-- **Which errors are reported**, in every run. A line that reports an error has no text, and the
error is none of those that only end a task or refuse a caller. That the file is gone is reported in
the last line only, and only if it is followed, not waited for and to be reported: then a look had
found it gone, after that it was read to its end, and all its lines were given out. A task that
ended without this report was stopped, or its consumer takes no more lines, or it had nothing left
to do: it gave out a file that it did not follow, or one that is gone and need not be reported. -/
theorem reported_errors (h : Tailer.start fs path config = .ok t)
    (hw : (World.start fs t).Reaches anyMove w) :
    (∀ l ∈ w.given, l.Presentable) ∧
    (∀ l ∈ w.given.dropLast, l.tellsGone = false) ∧
    (∀ l ∈ w.given, l.tellsGone = true →
      l.error = some (.gone path.display) ∧
      config.follow = true ∧ config.failOnDelete = true ∧ config.reopen = false ∧
      ∃ s, (World.start fs t).GaveOut w s ∧ s.lines <:+ texts w.given) ∧
    (w.tailer.ended = true → (∀ l ∈ w.given, l.tellsGone = false) →
      w.tailer.stopRequested = true ∨ w.tailer.closed = true ∨
      (∃ s, (World.start fs t).GaveOut w s ∧ s.lines <:+ texts w.given) ∧
        (config.follow = true → config.reopen = false ∧ config.failOnDelete = false)) := by
  have hstart := accounted_start h
  have hreporting : Reporting (World.start fs t) w :=
    hw.invariant (reporting_start h) fun _ m hu _ => hu.move m
  obtain ⟨hconfig, hpath⟩ := hw.setup_eq hstart
  have hconfig : w.tailer.engine.config = config := hconfig.trans (Tailer.engine_config_start h)
  have hpath : w.tailer.engine.path = path := hpath.trans (Tailer.engine_path_start h)
  have haccounted := hreporting.accounted
  refine ⟨fun l hl => ?_, hreporting.not_before, fun l hl hgone => ?_, fun hend hnone => ?_⟩
  · have hfirst : ∀ l ∈ (World.start fs t).stream, l.Presentable := by
      rw [stream_start h]
      exact List.forall_mem_nil _
    exact hw.presentable hstart hfirst l (Reporting.mem_stream hl)
  · obtain ⟨before, hclosing⟩ := hreporting.closing hl hgone
    obtain ⟨s, hs⟩ := hclosing.gave
    rw [← hconfig, ← hpath]
    exact ⟨hclosing.gone, hclosing.follow, hclosing.failOnDelete, hclosing.reopen, s, hs,
      hs.suffix haccounted⟩
  · refine (hreporting.ended (of_decide_eq_true hend)).imp_right (Or.imp_right ?_)
    rintro ⟨⟨s, hs⟩, hlast⟩
    rw [hconfig] at hlast
    refine ⟨⟨s, hs, hs.suffix haccounted⟩, fun hfollow => ⟨(hlast hfollow).1, ?_⟩⟩
    refine Bool.eq_false_iff.2 fun hd => ?_
    obtain ⟨l, hl, hgone⟩ := (hlast hfollow).2 hd
    exact absurd ((hnone l hl).symm.trans hgone) nofun

end Reported

namespace Sample

/-- Follow the file, and report when it is gone. -/
def watchful : Config :=
  { Config.default with
    follow := true, failOnDelete := true, location := some .start, poll := true }

def watcher : Tailer := { tailer with engine := { tailer.engine with config := watchful } }

theorem start_watcher : Tailer.start files name watchful = .ok watcher := by decide

/-- The file is removed after it was read. -/
def deserted : World :=
  (((World.start files watcher).works 8).move (.edit (.remove name))).move (.wait 250)

end Sample

theorem reported_errors_deserted :
    (Sample.deserted.works 12).given.map Line.tellsGone = [false, false, true] ∧
      (∀ l ∈ (Sample.deserted.works 12).given.dropLast, l.tellsGone = false) ∧
      ∃ s, (World.start Sample.files Sample.watcher).GaveOut (Sample.deserted.works 12) s := by
  have hstart : (World.start Sample.files Sample.watcher).Reaches World.anyMove
      (World.start Sample.files Sample.watcher) := .here
  have hread := World.reaches_works hstart (fun _ => trivial) 8
  have hgone : (World.start Sample.files Sample.watcher).Reaches World.anyMove Sample.deserted :=
    (hread.move (m := .edit (.remove Sample.name)) trivial).move (m := .wait 250) trivial
  have hreached := World.reaches_works hgone (fun _ => trivial) 12
  have hlines : (Sample.deserted.works 12).given.map Line.tellsGone = [false, false, true] := by
    decide
  obtain ⟨-, hlast, htells, -⟩ := reported_errors Sample.start_watcher hreached
  obtain ⟨l, hl, hgone⟩ : ∃ l ∈ (Sample.deserted.works 12).given, l.tellsGone = true :=
    List.mem_map.1 (hlines ▸ by decide)
  obtain ⟨-, -, -, -, s, hgave, -⟩ := htells l hl hgone
  exact ⟨hlines, hlast, s, hgave⟩

end LogFollower
