import LogFollower.Proofs.Files
import LogFollower.Proofs.Tailer.Run
import LogFollower.Proofs.Tailer.Sound

/-!
# What a tailer keeps among changing files

`Kept` holds of every tailer whose directory is not watched by anyone else: it is sound, it sleeps
no longer than an interval, and what it has open is a regular file, or a directory that it tries to
read for ever. `Kept.turn` and `Kept.files` say that it holds after every step and every change
of the files.
-/

namespace LogFollower

open FileSystem

/-- A watcher without events. -/
def Watcher.Calm (config : Config) : Watcher → Prop
  | .polling interval => interval = config.pollInterval
  | .notified _ _ queue => queue = []

namespace Watcher

variable {fs : FileSystem} {p : Path} {config : Config} {watcher : Watcher}

theorem calm_start : Calm config (.start fs p config) := by
  unfold start
  split_ifs <;> rfl

theorem Calm.attach (h : watcher.Calm config) : (watcher.attach fs p).Calm config := by
  cases watcher <;> exact h

theorem Calm.forget (h : watcher.Calm config) : watcher.forget.Calm config := by
  cases watcher with
  | polling interval => exact h
  | notified name onFile queue => rfl

theorem Calm.awaken_eq (h : watcher.Calm config) : watcher.awaken = none := by
  cases watcher with
  | polling interval => rfl
  | notified name onFile queue =>
    obtain rfl : queue = [] := h
    rfl

theorem Calm.interval_le (h : watcher.Calm config) :
    watcher.interval ≤ max config.pollInterval recheck := by
  cases watcher with
  | polling interval => exact (le_of_eq h).trans (le_max_left _ _)
  | notified name onFile queue => exact le_max_right _ _

theorem Calm.interval_pos (h : watcher.Calm config) (hp : 0 < config.pollInterval) :
    0 < watcher.interval := by
  cases watcher with
  | polling interval => exact h ▸ hp
  | notified name onFile queue => exact Nat.succ_pos _

end Watcher

namespace Tailer

open Engine

variable {fs fs' : FileSystem} {now : Nat} {t t' : Tailer}

/-- What holds of a tailer, whatever happens to the files. -/
structure Kept (fs : FileSystem) (now : Nat) (t : Tailer) : Prop where
  sound : t.Sound
  calm : t.engine.watcher.Calm t.engine.config
  due : ∀ due, t.wakeTime = some due →
    due ≤ now + max t.engine.config.pollInterval Watcher.recheck
  /-- A regular file is open, or a directory that is tried to be read. -/
  file : ∀ hd, t.engine.source = .opened hd → fs.kind? hd.object = some .regular ∨
    fs.kind? hd.object = some .directory ∧
      ∀ stage, t.engine.phase.stage? = some stage → stage = .read .catchUp
  /-- With reopening, there is no end. -/
  goes : t.engine.config.follow = true → t.engine.config.reopen = true →
    t.engine.phase.stage? ≠ some .finish

theorem kind?_of_openFile {p : Path} {n : Nat} (h : fs.openFile p = .ok n) :
    fs.kind? n = some .regular ∨ fs.kind? n = some .directory := by
  have hf := find_of_openFile h
  unfold openFile at h
  simp only [hf] at h
  unfold FileSystem.kind?
  split at h
  · next e => rw [e]; exact .inl rfl
  · next e => rw [e]; exact .inr rfl
  · cases h

theorem read_of_directory {n offset count : Nat} (h : fs.kind? n = some .directory) :
    fs.read n offset count = .error (.system .isDirectory) := by
  obtain ⟨body, hb, hk⟩ := Option.map_eq_some_iff.1 h
  unfold FileSystem.read
  rw [hb]
  cases body <;> first | rfl | cases hk

/-- A directory is tried to be read again and again. -/
theorem stage_of_directory {hd : Session}
    (hs : ∀ stage, t.engine.phase.stage? = some stage → stage = .read .catchUp)
    (hd' : t.engine.source = .opened hd) (hk : fs.kind? hd.object = some .directory)
    (h : Turn fs now t t') : t'.engine.source = .opened hd ∧
      ∀ stage, t'.engine.phase.stage? = some stage → stage = .read .catchUp := by
  have at_stage {stage : Stage} (hw : t.Works stage) : stage = .read .catchUp :=
    hs stage hw.stage_eq
  have not_read {hd₀ : Session} {bytes : Bytes} (hs₀ : t.engine.source = .opened hd₀) :
      fs.read hd₀.object hd₀.position chunkSize ≠ .ok bytes := by
    rw [← Source.opened.inj (hd'.symm.trans hs₀), read_of_directory hk]
    exact nofun
  cases h with
  | idle => exact ⟨hd', hs⟩
  | quit => exact ⟨hd', nofun⟩
  | hand hp | rest hp | resume hp | wake hp =>
    exact ⟨hd', fun stage h => hs stage (by rw [hp]; exact h)⟩
  | pass hw hp =>
    cases at_stage hw
    cases hp with
    | caughtUp hs₀ hr => exact absurd hr (not_read hs₀)
    | readOut hs₀ hr => exact absurd hr (not_read hs₀)
  | fail hw he =>
    cases at_stage hw
    cases he with
    | read => exact ⟨hd', fun stage h => (Option.some.inj h).symm⟩
  | wait hw hp =>
    cases at_stage hw
    cases hp
  | read hw hs₀ hr => exact absurd hr (not_read hs₀)
  | «open» hw | rewind hw | flush hw | leave hw | last hw | finish hw => cases at_stage hw

theorem Turn.object_eq (h : Turn fs now t t') (hf : t.engine.Fits) {hd hd' : Session}
    (hs : t.engine.source = .opened hd) (hs' : t'.engine.source = .opened hd') :
    hd'.object = hd.object := by
  cases h with
  | «open» hw =>
    have := hf .reopen hw.stage_eq
    rw [hs] at this
    cases this
  | rewind _ hs₀ | read _ hs₀ =>
    obtain rfl := Source.opened.inj (hs₀.symm.trans hs)
    cases hs'
    rfl
  | leave => cases hs'
  | _ => exact congrArg Session.object (Source.opened.inj (hs'.symm.trans hs))

theorem Turn.calm (h : Turn fs now t t') (hc : t.engine.watcher.Calm t.engine.config) :
    t'.engine.watcher.Calm t'.engine.config := by
  cases h with
  | wake hp why =>
    obtain ⟨-, rfl⟩ | ⟨-, hwake⟩ := why
    · exact hc
    · rw [hc.awaken_eq] at hwake
      cases hwake
  | pass hw hp =>
    cases hp with
    | arm => exact Watcher.calm_start
    | found => exact hc.attach
    | clear => exact hc.forget
    | _ => exact hc
  | «open» => exact Watcher.calm_start
  | _ => exact hc

theorem Turn.due (h : Turn fs now t t') (hc : t.engine.watcher.Calm t.engine.config)
    (hd : ∀ due, t.wakeTime = some due →
      due ≤ now + max t.engine.config.pollInterval Watcher.recheck) :
    ∀ due, t'.wakeTime = some due →
      due ≤ now + max t'.engine.config.pollInterval Watcher.recheck := by
  cases h with
  | idle => exact hd
  | rest =>
    rintro due ⟨⟩
    exact Nat.add_le_add_left (le_max_left _ _) now
  | wait =>
    rintro due ⟨⟩
    exact Nat.add_le_add_left hc.interval_le now
  | _ => exact nofun

theorem Turn.goes (h : Turn fs now t t') (hf : t.engine.config.follow = true)
    (hr : t.engine.config.reopen = true) (hg : t.engine.phase.stage? ≠ some .finish) :
    t'.engine.phase.stage? ≠ some .finish := by
  cases h with
  | idle => exact hg
  | hand hp | rest hp | resume hp | wake hp => intro he; exact hg (by rw [hp]; exact he)
  | pass hw hp =>
    cases hp with
    | done hd => exact absurd (hr.symm.trans (hd hf).1) nofun
    | _ => exact nofun
  | fail hw he =>
    cases he with
    | @read _ goal => cases goal <;> exact nofun
    | _ => exact nofun
  | wait hw hp => cases hp <;> exact nofun
  | last hw hf' hr' => exact absurd (hr.symm.trans hr') nofun
  | _ => exact nofun

/-- A file that is open was open before, or was just opened at the path. -/
theorem Turn.open_cases (h : Turn fs now t t') (hf : t.engine.Fits) {hd' : Session}
    (hs' : t'.engine.source = .opened hd') :
    (∃ hd, t.engine.source = .opened hd ∧ hd'.object = hd.object) ∨
      fs.openFile t.engine.path = .ok hd'.object ∧
        t'.engine.phase = .ready (.read .catchUp) := by
  cases hs : t.engine.source with
  | opened hd => exact .inl ⟨hd, rfl, h.object_eq hf hs hs'⟩
  | away previous =>
    right
    have none {hd' : Session} (hs' : t.engine.source = .opened hd') : False := by
      cases hs.symm.trans hs'
    cases h with
    | «open» hw ho =>
      cases hs'
      exact ⟨ho, rfl⟩
    | rewind _ hs₀ | read _ hs₀ => exact (none hs₀).elim
    | leave => cases hs'
    | _ => exact (none hs').elim

theorem Turn.file (h : Turn fs now t t') (hf : t.engine.Fits)
    (hfile : ∀ hd, t.engine.source = .opened hd → fs.kind? hd.object = some .regular ∨
      fs.kind? hd.object = some .directory ∧
        ∀ stage, t.engine.phase.stage? = some stage → stage = .read .catchUp) :
    ∀ hd, t'.engine.source = .opened hd → fs.kind? hd.object = some .regular ∨
      fs.kind? hd.object = some .directory ∧
        ∀ stage, t'.engine.phase.stage? = some stage → stage = .read .catchUp := by
  intro hd' hs'
  obtain ⟨hd, hs, hobject⟩ | ⟨ho, hp⟩ := h.open_cases hf hs'
  · obtain hreg | ⟨hdir, hstage⟩ := hfile hd hs
    · rw [hobject]
      exact .inl hreg
    · obtain ⟨hsrc, hstage'⟩ := stage_of_directory hstage hs hdir h
      obtain rfl := Source.opened.inj (hs'.symm.trans hsrc)
      exact .inr ⟨hdir, hstage'⟩
  · refine (kind?_of_openFile ho).imp_right fun hdir => ⟨hdir, fun stage hst => ?_⟩
    rw [hp] at hst
    exact (Option.some.inj hst).symm

theorem Kept.turn (hk : Kept fs now t) (h : Turn fs now t t') : Kept fs now t' where
  sound := hk.sound.turn h
  calm := h.calm hk.calm
  due := h.due hk.calm hk.due
  goes := by
    rw [h.config_eq]
    exact fun hf hr => h.goes hf hr (hk.goes hf hr)
  file := h.file hk.sound.fits hk.file

theorem Kept.files (hk : Kept fs now t) (h : Keeps fs fs') : Kept fs' now t where
  sound := hk.sound
  calm := hk.calm
  due := hk.due
  goes := hk.goes
  file := fun hd hs => (hk.file hd hs).imp (h _ _) fun ⟨hdir, hstage⟩ => ⟨h _ _ hdir, hstage⟩

theorem Kept.outer (hk : Kept fs now t) (queue : List Line) (closed stopRequested : Bool) :
    Kept fs now { t with queue, closed, stopRequested } where
  sound := ⟨hk.sound.valid, hk.sound.fits, hk.sound.limit, hk.sound.identity, hk.sound.position,
    hk.sound.capacity⟩
  calm := hk.calm
  due := hk.due
  goes := hk.goes
  file := hk.file

theorem kept_lasting : Lasting fs (Kept fs) where
  step := fun now t hk => hk.turn (turn_step hk.sound.fits fs now)
  later := fun now now' t hle hk =>
    { hk with due := fun due hw => (hk.due due hw).trans (Nat.add_le_add_right hle _) }
  wake := by
    intro now t due hk hw
    refine { hk with due := fun due' hw' => ?_ }
    rw [Option.some.inj (hw'.symm.trans hw)]
    exact Nat.le_add_right _ _

theorem kept_start {path : Path} {config : Config} (h : start fs path config = .ok t) (now : Nat) :
    Kept fs now t := by
  have hs := sound_start h
  obtain ⟨-, ⟨n, offset, ho, -, rfl⟩ | ⟨f, -, -, -, rfl⟩⟩ := start_cases h
  · refine ⟨hs, Watcher.calm_start, nofun, ?_, fun _ _ => nofun⟩
    rintro _ ⟨⟩
    exact (kind?_of_openFile ho).imp_right fun hdir =>
      ⟨hdir, fun stage hst => (Option.some.inj hst).symm⟩
  · exact ⟨hs, Watcher.calm_start, nofun, nofun, fun _ _ => nofun⟩

end Tailer
end LogFollower
