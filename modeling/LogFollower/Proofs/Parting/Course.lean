import LogFollower.Proofs.Growing
import LogFollower.Proofs.Reports

/-!
# The course of a tailer over one file

Without reopening, the file that a tailer has opened is the only one that it reads, wherever the path
leads. `Underway` says that the tailer has it open, `Reading` that it still reads it, and `Leaving`
that it has read the file to its end and gives up the rest. The engine comes from one to the other by
the last read of the drain (`Reading.work`).

What is given out in the end is `parting`: all lines of the file, the rest and the report that the
file is gone. A look at the path that fails is reported too; `essential` are the lines besides that.
-/

namespace LogFollower

/-- What is given out of a file that has left its path: its lines, the rest among them unless only
complete lines are wanted, and the report that the file is gone, if that is asked for. -/
def parting (path : Path) (config : Config) (start n : Nat) (bytes : Bytes) : List Line :=
  share config start true n bytes ++
    if config.failOnDelete then
      [.ofError (.gone path.display) (lastOffset start (share config start true n bytes))
        (some (FileSystem.identify n))]
    else []

/-- All lines but the reports of looks at the path that failed. -/
def essential (lines : List Line) : List Line := lines.filter fun l => !l.isError || l.tellsGone

theorem essential_append (a b : List Line) : essential (a ++ b) = essential a ++ essential b :=
  List.filter_append ..

theorem essential_given (w : World) : essential w.given <+: essential w.stream := by
  rw [w.stream_eq, essential_append]
  exact List.prefix_append _ _

theorem essential_of_untold {lines : List Line} (h : ∀ l ∈ lines, l.tellsGone = false) :
    essential lines = texts lines :=
  List.filter_congr fun l hl => by rw [h l hl, Bool.or_false]

/-- A file is only added to, and nobody stops the tailer. The path may come to lead anywhere. -/
def OnlyAppends (n : Nat) (w : World) : Move → Prop
  | .edit change => ∃ old more, w.fs.bytes? n = some old ∧
      (w.fs.edit change).bytes? n = some (old ++ more)
  | .stop => False
  | .cleanup => False
  | _ => True

/-- Whether the engine reads the open file at a stage, or looks whether there is more to read. -/
def Stage.reads : Stage → Bool
  | .read _ => true
  | .clear => true
  | .check => true
  | _ => false

namespace Parting

open Tailer Engine

/-- The engine has the file open that it began with, and will not open another. -/
structure Underway (path : Path) (config : Config) (n o : Nat) (w : World) (s : Section)
    (bytes : Bytes) : Prop extends Abreast path w s [] bytes where
  accounted : w.Accounted
  config_eq : w.tailer.engine.config = config
  path_eq : w.tailer.engine.path = path
  follow : config.follow = true
  stays : config.reopen = false
  on : w.tailer.On
  object : s.object = n
  start : s.base = o

variable {path : Path} {config : Config} {n o : Nat} {w w' : World} {s s' : Section}
  {bytes bytes' final : Bytes} {t : Tailer} {stage next : Stage} {m : Move}

namespace Underway

theorem source_eq (h : Underway path config n o w s bytes) :
    w.tailer.engine.source = .opened ⟨n, FileSystem.identify n, o + s.input.length⟩ := by
  obtain rfl := h.object
  obtain rfl := h.start
  exact h.handle

theorem identifier_eq (h : Underway path config n o w s bytes) :
    w.tailer.engine.identifier = some (FileSystem.identify n) := by
  unfold Engine.identifier
  rw [h.source_eq]

theorem limit_ne_zero (h : Underway path config n o w s bytes) : config.maxLineSize ≠ some 0 :=
  limit_ne_zero_of_valid (h.config_eq ▸ h.accounted.sound.valid)

theorem follows (h : Underway path config n o w s bytes) : w.tailer.engine.config.follow = true :=
  h.config_eq ▸ h.follow

theorem not_reopen (h : Underway path config n o w s bytes) :
    w.tailer.engine.config.reopen = false :=
  h.config_eq ▸ h.stays

theorem not_quit (h : Underway path config n o w s bytes) :
    ¬(w.tailer.stopRequested = true ∨ w.tailer.closed = true) := by
  rw [h.on.1, h.on.2]
  exact (nomatch ·)

theorem not_seeks (h : Underway path config n o w s bytes) (hw : w.tailer.Works stage) :
    stage.seeks = false := by
  rw [h.accounted.sound.fits stage hw.stage_eq, h.source_eq]
  rfl

/-- Nothing fails but a look at the path, and not because there is nothing. -/
theorem fails (h : Underway path config n o w s bytes) (hw : w.tailer.Works stage)
    {error : TailError} (he : Fails w.fs w.tailer.engine stage error next) :
    stage = .check ∧ next = .read .catchUp ∧
      ∃ f, w.fs.find path = .error f ∧ f.notFound = false ∧ error = .file f := by
  cases he with
  | look | reopen => cases h.not_seeks hw
  | read hs hr =>
    obtain rfl := h.opened_eq hs
    cases (FileSystem.read_regular h.file _ _).symm.trans hr
  | check hs hc =>
    refine ⟨rfl, rfl, ?_⟩
    rw [h.path_eq, classify_look] at hc
    cases hf : w.fs.find path with
    | ok k => simp only [hf] at hc; split_ifs at hc
    | error f =>
      simp only [hf] at hc
      split_ifs at hc with hn
      exact ⟨f, rfl, by simpa using hn, (Except.error.inj hc).symm⟩

theorem stays_open (h : Underway path config n o w s bytes) (ht : Turn w.fs w.now w.tailer t) :
    t.engine.source.isAway = false := by
  have hopen : w.tailer.engine.source.isAway = false := by
    rw [h.source_eq]
    rfl
  cases ht with
  | leave _ _ hr => exact absurd (h.not_reopen.symm.trans hr) Bool.false_ne_true
  | «open» | rewind | read => rfl
  | _ => exact hopen

theorem work (h : Underway path config n o w s bytes) :
    ∃ s', Underway path config n o (w.move .work) s' bytes := by
  have ht := turn_step h.accounted.sound.fits w.fs w.now
  obtain ⟨s', hs', hobject, hbase⟩ :=
    h.toAbreast.turn h.accounted h.path_eq ht (h.stays_open ht)
  exact ⟨s', hs', h.accounted.move .work, ht.config_eq.trans h.config_eq,
    ht.path_eq.trans h.path_eq, h.follow, h.stays,
    ⟨ht.stopRequested_eq.trans h.on.1, ht.closed_eq.trans h.on.2⟩, hobject.trans h.object,
    hbase.trans h.start⟩

/-- Wherever the path leads, the file stays the one that is read. -/
theorem move (h : Underway path config n o w s bytes) (hm : OnlyAppends n w m) :
    ∃ s' more, Underway path config n o (w.move m) s' (bytes ++ more) := by
  have accounted := h.accounted.move m
  have same : bytes = bytes ++ [] := (List.append_nil bytes).symm
  cases m with
  | work =>
    obtain ⟨s', hs'⟩ := h.work
    exact ⟨s', [], same ▸ hs'⟩
  | edit change =>
    obtain ⟨old, more, hold, hnew⟩ := hm
    obtain rfl := Option.some.inj ((h.object ▸ h.file).symm.trans hold)
    exact ⟨s, more, { h with
      toAbreast := h.toAbreast.grow (h.object ▸ hnew)
      accounted }⟩
  | wait | notify | receive =>
    exact ⟨s, [], same ▸ { h with toAbreast := h.toAbreast.outer nofun fun _ => nofun, accounted }⟩
  | stop | cleanup => exact hm.elim

theorem input_eq (h : Underway path config n o w s bytes)
    (h' : Underway path config n o w' s' bytes') (hb : bytes <+: bytes')
    (hsrc : w'.tailer.engine.source = w.tailer.engine.source) : s'.input = s.input := by
  obtain ⟨more, rfl⟩ := hb
  have hhandle := Source.opened.inj (h'.handle.symm.trans (hsrc.trans h.handle))
  have hlen := congrArg Session.position hhandle
  have hin := h.input.trans ((List.prefix_append bytes more).drop s.base)
  have hin' := h'.input
  simp only [h.start, h'.start, Nat.add_left_cancel_iff] at hlen hin hin'
  exact (List.prefix_of_prefix_length_le hin' hin hlen.le).eq_of_length hlen

theorem texts_given (h : Underway path config n o w s bytes) : texts w.given = s.lines := by
  have htold := h.accounted.told
  rw [h.sections, told_cons] at htold
  exact htold

theorem gone (h : Underway path config n o w s bytes) {hd : Session}
    (hs : w.tailer.engine.source = .opened hd)
    (hc : classify (w.fs.look w.tailer.engine.path) hd.identifier
      w.tailer.engine.splitter.consumed = .ok .deleted) : ¬w.fs.NotGone path n := by
  obtain rfl := h.opened_eq hs
  obtain rfl := h.object
  rw [h.path_eq] at hc
  exact fun hthere => hthere.classify_ne _ hc

theorem script_prefix_parting (h : Underway path config n o w s bytes)
    (hin : s.input <+: final.drop o) :
    s.script config.maxLineSize false <+: parting path config o n final := by
  obtain rfl := h.start
  obtain rfl := h.object
  exact (Rotation.script_prefix_share h.limit_ne_zero hin true).trans (List.prefix_append _ _)

end Underway

theorem frame (hm : m ≠ .work) :
    (w.move m).tailer.engine.phase = w.tailer.engine.phase ∧
      (w.move m).tailer.engine.source = w.tailer.engine.source ∧
      (w.move m).tailer.engine.splitter = w.tailer.engine.splitter ∧
      (w.move m).stream = w.stream := by
  cases m with
  | work => exact absurd rfl hm
  | receive max => exact ⟨rfl, rfl, rfl, w.stream_receive max⟩
  | _ => exact ⟨rfl, rfl, rfl, rfl⟩

/-- As long as the engine is not done with the file, no step tells that it is gone. -/
theorem untold_turn (hnone : ∀ l ∈ w.stream, l.tellsGone = false)
    (ht : Turn w.fs w.now w.tailer t) (hl : ¬w.tailer.Works .leave) :
    ∀ l ∈ (w.after t).stream, l.tellsGone = false := by
  obtain ⟨htaken, hown⟩ := List.forall_mem_append.1 hnone
  refine List.forall_mem_append.2 ⟨htaken, ht.lines hown (fun _ _ => rfl) ?_ ?_⟩
  · intro stage error next _ he
    obtain ⟨f, rfl⟩ := he.error_eq
    rfl
  · exact fun hw _ => absurd hw hl

/-! ## Giving the file up -/

/-- What holds of the lines where the engine gives the file up. -/
def Tells (path : Path) (config : Config) (n o : Nat) (final : Bytes) (w : World) :
    Option Stage → Prop
  | some .flush => ∀ l ∈ w.stream, l.tellsGone = false
  | some .leave => (∀ l ∈ w.stream, l.tellsGone = false) ∧
      (config.completeLines = false → w.tailer.engine.splitter.held = [])
  | some .finish => essential w.stream = parting path config o n final
  | none => essential w.stream = parting path config o n final
  | _ => False

theorem Tells.congr {place : Option Stage} (h : Tells path config n o final w place)
    (hs : w'.stream = w.stream)
    (hspl : w'.tailer.engine.splitter = w.tailer.engine.splitter) :
    Tells path config n o final w' place := by
  unfold Tells at h ⊢
  rwa [hs, hspl]

/-- The engine has read the file to its end, as it was then, and gives it up. -/
structure Leaving (path : Path) (config : Config) (n o : Nat) (final : Bytes) (w : World)
    (s : Section) (bytes : Bytes) : Prop extends Underway path config n o w s bytes where
  whole : s.input = final.drop o
  tells : Tells path config n o final w w.tailer.engine.phase.stage?

namespace Leaving

theorem script_eq_share (h : Leaving path config n o final w s bytes) :
    s.script config.maxLineSize (!config.completeLines) = share config o true n final := by
  obtain rfl := h.start
  obtain rfl := h.object
  exact Rotation.script_eq_share h.whole true

/-- Behind the flush all lines of the file were given out. -/
theorem texts_of_leave (h : Leaving path config n o final w s bytes)
    (hp : w.tailer.engine.phase = .ready .leave) :
    texts w.stream = share config o true n final ∧
      w.tailer.engine.splitter.committed = lastOffset o (share config o true n final) := by
  have htells := h.tells
  rw [hp] at htells
  obtain ⟨flushed, hs⟩ := h.open h.accounted
  have hon : w.tailer.engine.phase ≠ .ended := by rw [hp]; exact nofun
  have hhand : texts w.tailer.engine.phase.inHand = [] := by rw [hp]; rfl
  have hlines := hs.lines_of_emptied hon hhand (h.config_eq.symm ▸ htells.2)
  have hscript := hs.rest hon
  rw [hhand, List.append_nil] at hscript
  have hshare := h.script_eq_share
  rw [h.config_eq] at hlines
  rw [← hlines] at hshare
  constructor
  · rw [World.stream_eq, texts_append, hhand, List.append_nil, h.texts_given, hshare]
  · rw [hs.cutting, s.committed_splitter (h.config_eq ▸ h.limit_ne_zero), ← hscript, hshare,
      h.start]

/-- Leaving the file tells all there is to tell. -/
theorem tells_leave (h : Leaving path config n o final w s bytes)
    (hp : w.tailer.engine.phase = .ready .leave) :
    essential w.stream ++ (if config.failOnDelete then
      [w.tailer.engine.errorLine (.gone w.tailer.engine.path.display)] else []) =
      parting path config o n final := by
  have htells := h.tells
  rw [hp] at htells
  obtain ⟨htexts, hcommitted⟩ := h.texts_of_leave hp
  rw [essential_of_untold htells.1, htexts, parting, errorLine, hcommitted, h.path_eq,
    h.identifier_eq]

theorem not_reads (h : Leaving path config n o final w s bytes) (hw : w.tailer.Works stage) :
    stage.reads = false := by
  have htells := h.tells
  rw [hw.stage_eq] at htells
  cases stage <;> first | rfl | exact htells.elim

theorem never_reads (h : Leaving path config n o final w s bytes) (hw : w.tailer.Works stage)
    (hr : stage.reads = true) : False :=
  absurd ((h.not_reads hw).symm.trans hr) Bool.false_ne_true

theorem essential_after (hw : w.tailer.Works stage) (e : Engine) :
    essential (w.after { w.tailer with engine := e }).stream =
      essential w.stream ++ essential e.phase.inHand := by
  have hstream : (w.after { w.tailer with engine := e }).stream = w.stream ++ e.phase.inHand :=
    World.Reporting.stream_after hw rfl
  rw [hstream, essential_append]

theorem untold_after (h : Leaving path config n o final w s bytes)
    (hp : w.tailer.engine.phase = .ready .flush) (ht : Turn w.fs w.now w.tailer t) :
    ∀ l ∈ (w.after t).stream, l.tellsGone = false := by
  have htells := h.tells
  rw [hp] at htells
  exact untold_turn htells ht fun hl => by cases hp.symm.trans hl.1

theorem tells_pass (h : Leaving path config n o final w s bytes) {watcher : Watcher}
    (ht : Turn w.fs w.now w.tailer { w.tailer with
      engine := { w.tailer.engine with watcher, phase := .ready next } })
    (hw : w.tailer.Works stage) (hp : Passes w.fs w.tailer.engine stage next watcher) :
    Tells path config n o final (w.after { w.tailer with
      engine := { w.tailer.engine with watcher, phase := .ready next } }) (some next) := by
  cases hp with
  | arm | found | vanished => cases h.not_seeks hw
  | caughtUp | readOut | clear | grown | gone => exact (h.never_reads hw rfl).elim
  | kept hk =>
    refine ⟨h.untold_after hw.1 ht, fun hc => ?_⟩
    rw [h.config_eq] at hk
    exact hk.resolve_left (by rw [hc]; exact Bool.false_ne_true)
  | done hd =>
    have htold := h.tells_leave hw.1
    have hsilent := (hd h.follows).2
    rw [h.config_eq] at hsilent
    rw [if_neg (by rw [hsilent]; exact Bool.false_ne_true)] at htold
    exact (essential_after hw _).trans htold

/-- A step goes on giving the file up. -/
theorem tells_turn (h : Leaving path config n o final w s bytes)
    (ht : Turn w.fs w.now w.tailer t) :
    Tells path config n o final (w.after t) t.engine.phase.stage? ∧
      t.engine.source = w.tailer.engine.source := by
  have htells := h.tells
  have hturn := ht
  cases ht with
  | idle => exact ⟨htells, rfl⟩
  | quit hq => exact absurd hq h.not_quit
  | hand hp =>
    rw [hp] at htells
    exact ⟨htells.congr (World.Reporting.stream_hand hp) rfl, rfl⟩
  | rest hp | resume hp | wake hp =>
    rw [hp] at htells
    refine ⟨htells.congr ?_ rfl, rfl⟩
    rw [World.stream, World.stream, hp]
    rfl
  | pass hw hp => exact ⟨h.tells_pass hturn hw hp, rfl⟩
  | fail hw he =>
    obtain ⟨rfl, -⟩ := h.fails hw he
    exact (h.never_reads hw rfl).elim
  | wait hw hp =>
    cases hp with
    | missing => cases h.not_seeks hw
    | same => exact (h.never_reads hw rfl).elim
  | «open» hw => cases h.not_seeks hw
  | rewind hw | read hw => exact (h.never_reads hw rfl).elim
  | flush hw => exact ⟨⟨h.untold_after hw.1 hturn, fun _ => rfl⟩, rfl⟩
  | leave _ _ hr => exact absurd (h.not_reopen.symm.trans hr) Bool.false_ne_true
  | last hw hf hr hd =>
    have htold := h.tells_leave hw.1
    rw [h.config_eq] at hd
    rw [if_pos hd] at htold
    exact ⟨(essential_after hw _).trans htold, rfl⟩
  | finish hw =>
    rw [hw.stage_eq] at htells
    exact ⟨(essential_after hw _).trans ((List.append_nil _).trans htells), rfl⟩

theorem work (h : Leaving path config n o final w s bytes) :
    ∃ s', Leaving path config n o final (w.move .work) s' bytes := by
  obtain ⟨s', hs'⟩ := h.toUnderway.work
  obtain ⟨htells, hsrc⟩ := h.tells_turn (turn_step h.accounted.sound.fits w.fs w.now)
  exact ⟨s', hs', (h.input_eq hs' List.prefix_rfl hsrc).trans h.whole, htells⟩

/-- Giving the file up goes on undisturbed, even by what is added to the file. -/
theorem move (h : Leaving path config n o final w s bytes) (hm : OnlyAppends n w m) :
    ∃ s' more, Leaving path config n o final (w.move m) s' (bytes ++ more) := by
  by_cases hwork : m = .work
  · subst hwork
    obtain ⟨s', hs'⟩ := h.work
    exact ⟨s', [], (List.append_nil bytes).symm ▸ hs'⟩
  · obtain ⟨s', more, hs'⟩ := h.toUnderway.move hm
    obtain ⟨hphase, hsrc, hspl, hstream⟩ := frame (w := w) hwork
    exact ⟨s', more, hs', (h.input_eq hs' (List.prefix_append _ _) hsrc).trans h.whole,
      hphase.symm ▸ h.tells.congr hstream hspl⟩

theorem texts_prefix_parting (h : Leaving path config n o final w s bytes)
    (hon : w.tailer.engine.phase ≠ .ended) : texts w.stream <+: parting path config o n final := by
  obtain ⟨flushed, hs⟩ := h.open h.accounted
  have htexts : texts w.stream = s.script config.maxLineSize flushed := by
    rw [← h.config_eq, ← hs.rest hon, World.stream_eq, texts_append, h.texts_given]
  rw [htexts]
  cases flushed with
  | false => exact h.script_prefix_parting (h.whole ▸ List.prefix_rfl)
  | true =>
    have hshare := h.script_eq_share
    rw [← h.config_eq, (hs.last rfl).2] at hshare
    rw [← h.config_eq]
    exact hshare ▸ List.prefix_append _ _

/-- What was given out is the beginning of what is given out in the end, and all of it when the
engine has ended. -/
theorem given (h : Leaving path config n o final w s bytes) :
    essential w.given <+: parting path config o n final ∧
      (w.tailer.ended = true → essential w.given = parting path config o n final) := by
  have htells := h.tells
  have hpre := essential_given w
  have untold (hon : w.tailer.engine.phase ≠ .ended)
      (hnone : ∀ l ∈ w.stream, l.tellsGone = false) :
      essential w.given <+: parting path config o n final :=
    hpre.trans (essential_of_untold hnone ▸ h.texts_prefix_parting hon)
  cases hst : w.tailer.engine.phase.stage? with
  | none =>
    rw [hst] at htells
    refine ⟨htells ▸ hpre, fun hend => ?_⟩
    have hgiven : w.stream = w.given := by
      rw [w.stream_eq, of_decide_eq_true hend]
      exact List.append_nil _
    rw [← hgiven]
    exact htells
  | some stage =>
    have hon : w.tailer.ended = false := decide_eq_false (Phase.ne_ended hst)
    rw [hon]
    refine ⟨?_, nofun⟩
    rw [hst] at htells
    cases stage with
    | flush => exact untold (Phase.ne_ended hst) htells
    | leave => exact untold (Phase.ne_ended hst) htells.1
    | finish => exact htells ▸ hpre
    | _ => exact htells.elim

end Leaving

/-! ## Reading the file -/

/-- The engine reads the file, and has not told that it is gone. -/
structure Reading (path : Path) (config : Config) (n o : Nat) (w : World) (s : Section)
    (bytes : Bytes) : Prop extends Underway path config n o w s bytes where
  reads : ∃ stage, w.tailer.engine.phase.stage? = some stage ∧ stage.reads = true
  untold : ∀ l ∈ w.stream, l.tellsGone = false

namespace Reading

theorem reads_of (h : Reading path config n o w s bytes)
    (hp : w.tailer.engine.phase.stage? = some stage) : stage.reads = true := by
  obtain ⟨stage', hp', hr⟩ := h.reads
  exact Option.some.inj (hp'.symm.trans hp) ▸ hr

theorem not_works (h : Reading path config n o w s bytes) (hs : stage.reads = false) :
    ¬w.tailer.Works stage := fun hw =>
  absurd (hs.symm.trans (h.reads_of hw.stage_eq)) Bool.false_ne_true

/-- The stages that come of reading. Only a look that finds the file gone leads to the drain, and
only the end of the file out of it. -/
theorem turn (h : Reading path config n o w s bytes) (ht : Turn w.fs w.now w.tailer t) :
    (∃ stage, t.engine.phase.stage? = some stage ∧ stage.reads = true ∧
      (stage = .read .drain → w.tailer.engine.phase.stage? = some (.read .drain) ∨
        w.tailer.engine.phase = .ready .check ∧ ¬w.fs.NotGone path n)) ∨
    w.tailer.engine.phase = .ready (.read .drain) ∧ s.input = bytes.drop o ∧
      t.engine.phase = .ready .flush ∧ t.engine.source = w.tailer.engine.source := by
  have stays {next : Stage} (hp : w.tailer.engine.phase.stage? = some next) :
      ∃ stage, some next = some stage ∧ stage.reads = true ∧
        (stage = .read .drain → w.tailer.engine.phase.stage? = some (.read .drain) ∨
          w.tailer.engine.phase = .ready .check ∧ ¬w.fs.NotGone path n) :=
    ⟨next, rfl, h.reads_of hp, fun hd => .inl (hd ▸ hp)⟩
  cases ht with
  | idle =>
    obtain ⟨stage, hp, -⟩ := h.reads
    exact .inl (hp ▸ stays hp)
  | quit hq => exact absurd hq h.not_quit
  | hand hp | rest hp | resume hp | wake hp => exact .inl (stays (by rw [hp]; rfl))
  | pass hw hp =>
    cases hp with
    | arm | found | vanished => cases h.not_seeks hw
    | caughtUp | clear | grown => exact .inl ⟨_, rfl, rfl, nofun⟩
    | gone hs hc => exact .inl ⟨_, rfl, rfl, fun _ => .inr ⟨hw.1, h.gone hs hc⟩⟩
    | @readOut hd goal hs hr hf =>
      cases goal with
      | catchUp => exact absurd ((hf rfl).symm.trans h.follows) Bool.false_ne_true
      | drain =>
        obtain rfl := h.opened_eq hs
        have hend := Rotation.input_eq_of_read h.input h.file hr
        exact .inr ⟨hw.1, h.start ▸ hend, rfl, rfl⟩
    | kept | done => exact absurd hw (h.not_works rfl)
  | fail hw he =>
    obtain ⟨-, rfl, -⟩ := h.fails hw he
    exact .inl ⟨_, rfl, rfl, nofun⟩
  | wait hw hp =>
    cases hp with
    | missing => cases h.not_seeks hw
    | same => exact .inl ⟨_, rfl, rfl, nofun⟩
  | «open» hw => cases h.not_seeks hw
  | rewind => exact .inl ⟨_, rfl, rfl, nofun⟩
  | read hw => exact .inl (stays hw.stage_eq)
  | flush hw | leave hw | last hw | finish hw => exact absurd hw (h.not_works rfl)

/-- A step goes on reading, or it was the last one of the drain. -/
theorem work (h : Reading path config n o w s bytes) :
    (∃ s', Reading path config n o (w.move .work) s' bytes ∧
      ((w.move .work).tailer.engine.phase.stage? = some (.read .drain) →
        w.tailer.engine.phase.stage? = some (.read .drain) ∨
          w.tailer.engine.phase = .ready .check ∧ ¬w.fs.NotGone path n)) ∨
    w.tailer.engine.phase = .ready (.read .drain) ∧ s.input = bytes.drop o ∧
      ∃ s', Leaving path config n o bytes (w.move .work) s' bytes := by
  have ht := turn_step h.accounted.sound.fits w.fs w.now
  obtain ⟨s', hs'⟩ := h.toUnderway.work
  have huntold := untold_turn h.untold ht (h.not_works rfl)
  obtain ⟨stage, hstage, hreads, hdrain⟩ | ⟨hp, hend, hflush, hsrc⟩ := h.turn ht
  · exact .inl ⟨s', ⟨hs', ⟨stage, hstage, hreads⟩, huntold⟩, fun hp =>
      hdrain (Option.some.inj (hstage.symm.trans hp))⟩
  · refine .inr ⟨hp, hend, s', hs', (h.input_eq hs' List.prefix_rfl hsrc).trans hend, ?_⟩
    show Tells path config n o bytes _ (w.tailer.step w.fs w.now).engine.phase.stage?
    rw [hflush]
    exact huntold

theorem outer (h : Reading path config n o w s bytes) (hm : OnlyAppends n w m)
    (hwork : m ≠ .work) : ∃ s' more, Reading path config n o (w.move m) s' (bytes ++ more) := by
  obtain ⟨s', more, hs'⟩ := h.toUnderway.move hm
  obtain ⟨hphase, -, -, hstream⟩ := frame (w := w) hwork
  exact ⟨s', more, hs', hphase.symm ▸ h.reads, hstream.symm ▸ h.untold⟩

theorem given (h : Reading path config n o w s bytes) :
    essential w.given <+: parting path config o n bytes := by
  obtain ⟨stage, hstage, hreads⟩ := h.reads
  have hover : w.tailer.engine.phase.over = false := by
    unfold Phase.over
    rw [hstage]
    cases stage <;> first | rfl | cases hreads
  obtain ⟨-, htexts⟩ := h.reading h.accounted hover
  have hpre := essential_given w
  rw [essential_of_untold h.untold, htexts, h.config_eq] at hpre
  exact hpre.trans (h.script_prefix_parting (h.start ▸ h.input))

end Reading

end Parting
end LogFollower
