import LogFollower.Proofs.Abreast

/-!
# Which one-shot runs end

A tailer that does not follow is done behind the end of its file. A read that fails is reported,
and after a rest it is tried again, in this mode as in every other. A file can be read as long as it
stays as it is, so a run over one ends and reports nothing. A directory can be opened and never be
read: a run on it reports one error again and again (`Repeats`).

`one_shot_ends` says that this is all: what the path leads to decides.
-/

namespace LogFollower

/-- The path leads to a directory. -/
def FileSystem.ToDirectory (fs : FileSystem) (path : Path) : Prop :=
  ∃ n, fs.find path = .ok n ∧ fs.kind? n = some .directory

/-- What the consumer gets from a tailer that nobody disturbs and that reports one error again and
again: nothing else, and no end. -/
structure Repeats (fs : FileSystem) (path : Path) (config : Config) (report : Line) : Prop where
  starts : ∃ t, Tailer.start fs path config = .ok t
  only : ∀ t w, Tailer.start fs path config = .ok t →
    (World.start fs t).Reaches Undisturbed w →
    w.tailer.ended = false ∧ ∀ l ∈ w.taken ++ w.tailer.queue, l = report
  /-- From wherever the run stands, there is more to come. -/
  again : ∀ t w, Tailer.start fs path config = .ok t →
    (World.start fs t).Reaches Undisturbed w →
    ∃ v, w.Reaches Undisturbed v ∧ w.taken.length < v.taken.length

namespace Ending

open Tailer Engine

/-- A tailer that has a directory open and tries to read it. -/
structure Retries (report : Line) (w : World) : Prop where
  sound : w.tailer.Sound
  on : w.tailer.On
  handle : ∃ hd, w.tailer.engine.source = .opened hd ∧ w.fs.kind? hd.object = some .directory
  stage : w.tailer.engine.phase.stage? = some (.read .catchUp)
  reports : w.tailer.engine.errorLine (.file (.system .isDirectory)) = report
  lines : ∀ l ∈ w.stream, l = report

variable {report : Line} {u w : World} {t : Tailer}

namespace Retries

theorem stage_eq (h : Retries report w) (stage : Stage)
    (hs : w.tailer.engine.phase.stage? = some stage) : stage = .read .catchUp :=
  Option.some.inj (hs.symm.trans h.stage)

theorem not_read (h : Retries report w) {hd : Session} {bytes : Bytes}
    (hs : w.tailer.engine.source = .opened hd) :
    w.fs.read hd.object hd.position chunkSize ≠ .ok bytes := by
  obtain ⟨hd', hs', hk⟩ := h.handle
  rw [Source.opened.inj (hs.symm.trans hs'), read_of_directory hk]
  exact nofun

theorem goes (h : Retries report w) (ht : Turn w.fs w.now w.tailer t)
    (hsource : t.engine.source = w.tailer.engine.source)
    (hsplitter : t.engine.splitter = w.tailer.engine.splitter)
    (hstage : t.engine.phase.stage? = some (.read .catchUp))
    (hlines : ∀ l ∈ t.queue ++ t.engine.phase.inHand, l = report) :
    Retries report (w.after t) where
  sound := h.sound.turn ht
  on := ⟨ht.stopRequested_eq.trans h.on.1, ht.closed_eq.trans h.on.2⟩
  handle := by
    show ∃ hd, t.engine.source = _ ∧ _
    rw [hsource]
    exact h.handle
  stage := hstage
  reports := by
    have hsame (error : TailError) :
        t.engine.errorLine error = w.tailer.engine.errorLine error := by
      unfold errorLine Engine.identifier
      rw [hsource, hsplitter]
    exact (hsame _).trans h.reports
  lines := fun l hl => by
    rcases List.mem_append.1 hl with hl | hl
    · exact h.lines l (List.mem_append_left _ hl)
    · exact hlines l hl

/-- A step tries to read again, and gives out nothing but the report. -/
theorem work (h : Retries report w) : Retries report (w.move .work) := by
  have ht := turn_step h.sound.fits w.fs w.now
  have hold : ∀ l ∈ w.tailer.queue ++ w.tailer.engine.phase.inHand, l = report :=
    fun l hl => h.lines l (List.mem_append_right _ hl)
  show Retries report (w.after (w.tailer.step w.fs w.now))
  generalize w.tailer.step w.fs w.now = t at ht
  have hfits := h.stage_eq
  cases ht with
  | idle hb => exact h.goes (.idle hb) rfl rfl h.stage hold
  | quit hq => rcases hq with hq | hq <;> simp [h.on.1, h.on.2] at hq
  | hand hp on room =>
    have hstage := h.stage
    rw [hp] at hold hstage
    refine h.goes (.hand hp on room) rfl rfl hstage fun l hl => hold l ?_
    exact List.append_assoc w.tailer.queue [_] _ ▸ hl
  | rest hp =>
    have hstage := h.stage
    rw [hp] at hold hstage
    exact h.goes (.rest hp) rfl rfl hstage hold
  | resume hp =>
    have hstage := h.stage
    rw [hp] at hold hstage
    exact h.goes (.resume hp) rfl rfl hstage hold
  | wake hp why =>
    have hstage := h.stage
    rw [hp] at hold hstage
    exact h.goes (.wake hp why) rfl rfl hstage hold
  | pass hw hp =>
    obtain rfl := hfits _ hw.stage_eq
    cases hp with
    | caughtUp hs hr => exact absurd hr (h.not_read hs)
    | readOut hs hr => exact absurd hr (h.not_read hs)
  | fail hw he =>
    obtain rfl := hfits _ hw.stage_eq
    cases he with
    | read hs hr =>
      obtain ⟨hd, hs', hk⟩ := h.handle
      obtain rfl := Source.opened.inj (hs.symm.trans hs')
      obtain rfl := Except.error.inj ((read_of_directory hk).symm.trans hr)
      refine h.goes (.fail hw (.read hs hr)) rfl rfl rfl fun l hl => ?_
      rw [hw.1] at hold
      rcases List.mem_append.1 hl with hl | hl
      · exact hold l (List.mem_append_left _ hl)
      · rw [List.mem_singleton.1 hl, h.reports]
  | wait hw hp =>
    obtain rfl := hfits _ hw.stage_eq
    cases hp
  | read hw hs hr => exact absurd hr (h.not_read hs)
  | «open» hw | rewind hw | flush hw | leave hw | last hw | finish hw =>
    cases hfits _ hw.stage_eq

theorem move (h : Retries report w) {m : Move} (hm : Undisturbed w m) :
    Retries report (w.move m) := by
  cases m with
  | work => exact h.work
  | wait ms => exact { h with }
  | notify event =>
    exact { h with sound := { h.sound with } }
  | receive max =>
    exact { h with
      sound := { h.sound with }
      lines := by rw [World.stream_receive]; exact h.lines }
  | edit | stop | cleanup => cases hm

theorem not_ended (h : Retries report w) : w.tailer.ended = false :=
  decide_eq_false (Phase.ne_ended h.stage)

/-! ## There is more to come -/

theorem more_of_handing (h : Retries report w) (hu : u.Reaches Undisturbed w)
    (hq : w.tailer.queue = []) {line : Line} {lines : List Line} {rest : Bool} {next : Stage}
    (hp : w.tailer.engine.phase = .handing (line :: lines) rest next) :
    ∃ v, u.Reaches Undisturbed v ∧ w.taken.length < v.taken.length := by
  refine ⟨w.serve, World.reaches_serve hu, ?_⟩
  have hroom : w.tailer.queue.length < w.tailer.capacity := by
    rw [hq]
    exact h.sound.capacity
  show w.taken.length < (w.taken ++ ((w.tailer.step w.fs w.now).receive none).1).length
  rw [step_hand hp h.on hroom]
  simp [receive]

theorem more_of_ready (h : Retries report w) (hu : u.Reaches Undisturbed w)
    (hq : w.tailer.queue = []) {stage : Stage} (hp : w.tailer.engine.phase = .ready stage) :
    ∃ v, u.Reaches Undisturbed v ∧ w.taken.length < v.taken.length := by
  obtain ⟨hd, hs, hk⟩ := h.handle
  obtain rfl := h.stage_eq stage (by rw [hp]; rfl)
  have hstep : w.tailer.step w.fs w.now = { w.tailer with
      engine := w.tailer.engine.report (.file (.system .isDirectory)) (.read .catchUp) } := by
    rw [step_ready hp h.on]
    simp only [Engine.work, Engine.read, hs, read_of_directory hk]
    rfl
  have hphase : (w.move .work).tailer.engine.phase = .handing
      [w.tailer.engine.errorLine (.file (.system .isDirectory))] true (.read .catchUp) := by
    show (w.tailer.step w.fs w.now).engine.phase = _
    rw [hstep]
    rfl
  have hqueue : (w.move .work).tailer.queue = [] := by
    show (w.tailer.step w.fs w.now).queue = _
    rw [hstep]
    exact hq
  exact h.work.more_of_handing (.move hu rfl) hqueue hphase

theorem more_of_asleep (h : Retries report w) (hu : u.Reaches Undisturbed w)
    (hq : w.tailer.queue = []) {due : Nat} {watching : Bool} {next : Stage}
    (hp : w.tailer.engine.phase = .asleep due watching next) :
    ∃ v, u.Reaches Undisturbed v ∧ w.taken.length < v.taken.length := by
  have hawake : w.tailer.blocked (w.now + due) = false := by
    unfold blocked
    rw [hp]
    simp [Nat.not_lt.2 (Nat.le_add_left due w.now)]
  obtain ⟨watcher, hstep⟩ : ∃ watcher, w.tailer.step w.fs (w.now + due) =
      { w.tailer with engine := { w.tailer.engine with watcher, phase := .ready next } } :=
    step_wake hp h.on hawake
  have hwaited : Undisturbed w (.wait due) := rfl
  have hphase : ((w.move (.wait due)).move .work).tailer.engine.phase = .ready next := by
    show (w.tailer.step w.fs (w.now + due)).engine.phase = _
    rw [hstep]
  have hqueue : ((w.move (.wait due)).move .work).tailer.queue = [] := by
    show (w.tailer.step w.fs (w.now + due)).queue = _
    rw [hstep]
    exact hq
  exact (h.move hwaited).work.more_of_ready (.move (.move hu hwaited) rfl) hqueue hphase

theorem more (h : Retries report w) (hu : u.Reaches Undisturbed w) :
    ∃ v, u.Reaches Undisturbed v ∧ w.taken.length < v.taken.length := by
  by_cases hq : w.tailer.queue = []
  · cases hp : w.tailer.engine.phase with
    | ended => exact absurd hp (Phase.ne_ended h.stage)
    | ready stage => exact h.more_of_ready hu hq hp
    | asleep due watching next => exact h.more_of_asleep hu hq hp
    | handing lines rest next =>
      cases lines with
      | cons line lines => exact h.more_of_handing hu hq hp
      | nil =>
        have hu' : u.Reaches Undisturbed (w.move .work) := .move hu rfl
        cases rest with
        | true =>
          have hstep : w.move .work = w.after (w.tailer.withPhase
              (.asleep (w.now + w.tailer.engine.config.pollInterval) false next)) :=
            congrArg w.after (step_rest hp)
          have h' := h.work
          rw [hstep] at h' hu'
          exact h'.more_of_asleep hu' hq rfl
        | false =>
          have hstep : w.move .work = w.after (w.tailer.withPhase (.ready next)) :=
            congrArg w.after (step_resume hp)
          have h' := h.work
          rw [hstep] at h' hu'
          exact h'.more_of_ready hu' hq rfl
  · refine ⟨w.move (.receive none), .move hu rfl, ?_⟩
    have hpos := List.length_pos_of_ne_nil hq
    show w.taken.length < (w.taken ++ (w.tailer.receive none).1).length
    simp [receive, hpos]

end Retries

theorem retries_start {fs : FileSystem} {path : Path} {config : Config} {n : Nat}
    (h : Tailer.start fs path config = .ok t) (hn : fs.find path = .ok n)
    (hk : fs.kind? n = some .directory) :
    ∃ offset, Retries
      (.ofError (.file (.system .isDirectory)) offset (some (FileSystem.identify n)))
      (World.start fs t) := by
  have hsound := sound_start h
  obtain ⟨-, ⟨n', offset, ho, -, rfl⟩ | ⟨f, ho, hf, -, rfl⟩⟩ := start_cases h
  · obtain rfl := Except.ok.inj ((FileSystem.find_of_openFile ho).symm.trans hn)
    exact ⟨offset, hsound, ⟨rfl, rfl⟩, ⟨_, rfl, hk⟩, rfl, rfl, nofun⟩
  · obtain ⟨body, hb, hkind⟩ := Option.map_eq_some_iff.1 hk
    unfold FileSystem.openFile at ho
    simp only [hn, hb] at ho
    cases body with
    | directory entries => cases ho
    | _ => cases hkind

end Ending

/-- A run on a directory reports that it is one, again and again. -/
theorem repeats_of_directory {fs : FileSystem} {path : Path} {config : Config} {t : Tailer}
    {n : Nat} (h : Tailer.start fs path config = .ok t) (hn : fs.find path = .ok n)
    (hk : fs.kind? n = some .directory) :
    ∃ offset, Repeats fs path config
      (.ofError (.file (.system .isDirectory)) offset (some (FileSystem.identify n))) := by
  obtain ⟨offset, hstart⟩ := Ending.retries_start h hn hk
  refine ⟨offset, ?_⟩
  generalize Line.ofError _ offset _ = report at hstart ⊢
  have reached (t' w) (ht : Tailer.start fs path config = .ok t')
      (hw : (World.start fs t').Reaches Undisturbed w) : Ending.Retries report w := by
    obtain rfl := Except.ok.inj (h.symm.trans ht)
    exact hw.invariant hstart fun u m hu hm => hu.move hm
  refine ⟨⟨t, h⟩, fun t' w ht hw => ?_, fun t' w ht hw => (reached t' w ht hw).more .here⟩
  refine ⟨(reached t' w ht hw).not_ended, fun l hl => (reached t' w ht hw).lines l ?_⟩
  rcases List.mem_append.1 hl with hl | hl
  · exact List.mem_append_left _ hl
  · exact List.mem_append_right _ (List.mem_append_left _ hl)

/-- A one-shot run ends, and reports no error, unless its path leads to a directory. A
directory is opened and cannot be read: such a run never ends and reports that again and again. -/
theorem one_shot_ends {fs : FileSystem} {path : Path} {config : Config} {t : Tailer}
    (h : Tailer.start fs path config = .ok t) (hf : config.follow = false) :
    (¬ fs.ToDirectory path →
      ∃ lines, Delivers fs path config lines ∧ ∀ l ∈ lines, l.isError = false) ∧
    (fs.ToDirectory path →
      ∃ n offset, fs.find path = .ok n ∧ Repeats fs path config
        (.ofError (.file (.system .isDirectory)) offset (some (FileSystem.identify n)))) := by
  obtain ⟨hv, ⟨n, offset, hopen, ho, -⟩ | ⟨f, -, -, hwaits, -⟩⟩ := Tailer.start_cases h
  · have hn := FileSystem.find_of_openFile hopen
    constructor
    · intro hdir
      obtain hreg | hdir' := Tailer.kind?_of_openFile hopen
      · obtain ⟨bytes, hb⟩ := FileSystem.kind?_regular_iff.1 hreg
        rw [FileSystem.length_of_bytes? hb] at ho
        refine ⟨_, delivers_share hv hf hn hb ho, fun l hl => ?_⟩
        obtain ⟨piece, -, rfl⟩ := List.mem_map.1 hl
        rfl
      · exact absurd ⟨n, hn, hdir'⟩ hdir
    · rintro ⟨n', hn', hk⟩
      obtain ⟨offset', hrepeats⟩ := repeats_of_directory h hn' hk
      exact ⟨n', offset', hn', hrepeats⟩
  · unfold Config.waitsForFile at hwaits
    rw [hf] at hwaits
    cases hwaits

namespace Sample

def folder : FileSystem := ⟨[.directory [(name.bytes, .object 1)], .directory []]⟩

def reader : Tailer :=
  ⟨⟨name, once .start, .opened ⟨1, FileSystem.identify 1, 0⟩, .start 0 (some 3),
    .start folder name (once .start), .ready (.read .catchUp)⟩, [], 1024, false, false⟩

theorem start_reader : Tailer.start folder name (once .start) = .ok reader := by decide

/-- The directory was tried to be read twice. -/
def tried : World :=
  (((((World.start folder reader).works 3).move (.wait 250)).works 3).move (.receive none))

end Sample

theorem one_shot_ends_sample :
    (∃ lines, Delivers Sample.begun Sample.name (Sample.once .start) lines ∧
      ∀ l ∈ lines, l.isError = false) ∧
    ∃ n offset, Sample.folder.find Sample.name = .ok n ∧
      Repeats Sample.folder Sample.name (Sample.once .start)
        (.ofError (.file (.system .isDirectory)) offset (some (FileSystem.identify n))) := by
  have hfind : Sample.begun.find Sample.name = .ok 1 := by decide
  have hfile : ¬ Sample.begun.ToDirectory Sample.name := by
    rintro ⟨n, hn, hk⟩
    obtain rfl := Except.ok.inj (hfind.symm.trans hn)
    cases hk
  have hfolder : Sample.folder.ToDirectory Sample.name := ⟨1, by decide, rfl⟩
  have hoffset : (Sample.once .start).startOffset (FileSystem.identify 1)
      (Sample.begun.length 1) = .ok 0 := by decide
  obtain ⟨t, ht⟩ := Tailer.exists_start rfl (FileSystem.openFile_of_bytes? hfind rfl) hoffset
  exact ⟨(one_shot_ends ht rfl).1 hfile, (one_shot_ends Sample.start_reader rfl).2 hfolder⟩

/-- A one-shot run on a directory never ends, and more than one error comes of it. -/
theorem not_ended_on_directory :
    Tailer.start Sample.folder Sample.name (Sample.once .start) = .ok Sample.reader ∧
      (Sample.once .start).follow = false ∧
      (∀ w, (World.start Sample.folder Sample.reader).Reaches Undisturbed w →
        w.tailer.ended = false) ∧
      (World.start Sample.folder Sample.reader).Reaches Undisturbed Sample.tried ∧
      Sample.tried.taken.map Line.isError = [true, true] := by
  have hfind : Sample.folder.find Sample.name = .ok 1 := by decide
  obtain ⟨offset, hrepeats⟩ := repeats_of_directory Sample.start_reader hfind rfl
  have hstart : (World.start Sample.folder Sample.reader).Reaches Undisturbed
      (World.start Sample.folder Sample.reader) := .here
  have hthree := World.reaches_works hstart (fun _ => rfl) 3
  have hwaited := hthree.move (m := .wait 250) rfl
  have hreached := (World.reaches_works hwaited (fun _ => rfl) 3).move (m := .receive none) rfl
  exact ⟨Sample.start_reader, rfl, fun w hw => (hrepeats.only _ w Sample.start_reader hw).1,
    hreached, by decide⟩

end LogFollower
