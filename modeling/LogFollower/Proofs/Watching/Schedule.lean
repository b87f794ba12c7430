import LogFollower.Proofs.Tailer.Sound
import LogFollower.Scenario

/-!
# Scripts under any events

A consumer lets time pass and takes lines, and other programs change the files between that. While
time passes the engine does what it can, and events come when they come: `Elapses` allows every one
of them at every moment. `Runs` are the runs of a script under some events, with the lines that its
steps return.

`Timely` holds of a tailer that looks again every second, whichever way it watches.
-/

namespace LogFollower

/-- What a consumer does with a tailer that goes on, and what others do to the files. -/
inductive Step
  | edit (change : Edit)
  | tick (seconds : Nat)
  | receive (max : Option Nat)
  | drain
  deriving DecidableEq

def Step.poll (seconds : Nat) : List Step := [.tick seconds, .drain]

/-- The scripts in which every change is followed by a poll of three seconds at least. -/
inductive Polled : List Step → Prop
  | done : Polled []
  | edit {seconds : Nat} {steps : List Step} (change : Edit) (h : 3 ≤ seconds)
      (rest : Polled steps) : Polled (.edit change :: (Step.poll seconds ++ steps))
  | tick {steps : List Step} (seconds : Nat) (rest : Polled steps) : Polled (.tick seconds :: steps)
  | receive {steps : List Step} (max : Option Nat) (rest : Polled steps) :
      Polled (.receive max :: steps)
  | drain {steps : List Step} (rest : Polled steps) : Polled (.drain :: steps)

namespace Tailer

def notify (t : Tailer) (event : Event) : Tailer :=
  { t with engine := { t.engine with watcher := t.engine.watcher.deliver event } }

/-- Time passes from `now` up to a target. The engine works while it can, events come at any moment,
and the clock goes on when nothing can be done. What is due at the target is left for later. -/
inductive Elapses (fs : FileSystem) (target : Nat) : Nat → Tailer → Tailer → Prop
  | done {now : Nat} {t : Tailer} (h : t.blocked now = true)
      (hdue : ∀ due, t.wakeTime = some due → target ≤ due) : Elapses fs target now t t
  | work {now : Nat} {t t' : Tailer} (h : t.blocked now = false)
      (rest : Elapses fs target now (t.step fs now) t') : Elapses fs target now t t'
  | notify {now : Nat} {t t' : Tailer} (event : Event)
      (rest : Elapses fs target now (t.notify event) t') : Elapses fs target now t t'
  | wait {now later : Nat} {t t' : Tailer} (h : t.blocked now = true) (hle : now ≤ later)
      (hlt : later < target) (hdue : ∀ due, t.wakeTime = some due → later ≤ due)
      (rest : Elapses fs target later t t') : Elapses fs target now t t'

/-- Lines are taken, a millisecond at a time, until there are none or the end is met. -/
inductive Drains (fs : FileSystem) : Nat → Tailer → List Line → Nat → Tailer → Prop
  | last {now : Nat} {t t' : Tailer}
      (h : (t.receive none).1 = [] ∨ (t.receive none).2.1 = true)
      (he : Elapses fs (now + 1) now (t.receive none).2.2 t') :
      Drains fs now t (t.receive none).1 (now + 1) t'
  | more {now now' : Nat} {t t' t'' : Tailer} {lines : List Line}
      (h : ¬ ((t.receive none).1 = [] ∨ (t.receive none).2.1 = true))
      (he : Elapses fs (now + 1) now (t.receive none).2.2 t')
      (rest : Drains fs (now + 1) t' lines now' t'') :
      Drains fs now t ((t.receive none).1 ++ lines) now' t''

/-- Whether the report of an error waits to be handed over. -/
def reporting (t : Tailer) : Bool :=
  match t.engine.phase with
  | .handing _ true _ => true
  | _ => false

/-- A script runs, and every step returns some lines. `taken` says that the tailer was just started
or all lines were just taken.

With `free` set, files are changed then, or else when no report waits for room in the channel.
Reports of a failure fill a channel that nobody takes lines from, and a tailer before a full channel
may come to the change only after the poll. When they have filled it depends on when the failure was
met, and so on the events. -/
inductive Runs (free : Bool) :
    FileSystem → Nat → Tailer → (taken : Bool) → List Step → List (List Line) → Prop
  | done {fs : FileSystem} {now : Nat} {t : Tailer} {taken : Bool} : Runs free fs now t taken [] []
  | edit {fs : FileSystem} {now : Nat} {t : Tailer} {taken : Bool} {change : Edit}
      {steps : List Step} {answers : List (List Line)}
      (h : free = true → taken = true ∨ t.reporting = false)
      (rest : Runs free (fs.edit change) now t taken steps answers) :
      Runs free fs now t taken (.edit change :: steps) ([] :: answers)
  | tick {fs : FileSystem} {now seconds : Nat} {t t' : Tailer} {taken : Bool} {steps : List Step}
      {answers : List (List Line)} (he : Elapses fs (now + seconds * 1000) now t t')
      (rest : Runs free fs (now + seconds * 1000) t' false steps answers) :
      Runs free fs now t taken (.tick seconds :: steps) ([] :: answers)
  | receive {fs : FileSystem} {now : Nat} {t t' : Tailer} {taken : Bool} {max : Option Nat}
      {steps : List Step} {answers : List (List Line)}
      (he : Elapses fs (now + 1) now (t.receive max).2.2 t')
      (rest : Runs free fs (now + 1) t' false steps answers) :
      Runs free fs now t taken (.receive max :: steps) ((t.receive max).1 :: answers)
  | drain {fs : FileSystem} {now now' : Nat} {t t' : Tailer} {taken : Bool} {lines : List Line}
      {steps : List Step} {answers : List (List Line)} (hd : Drains fs now t lines now' t')
      (rest : Runs free fs now' t' true steps answers) :
      Runs free fs now t taken (.drain :: steps) (lines :: answers)

end Tailer

/-- A tailer is started, a millisecond passes, a script runs, and every step returns some lines. -/
def Returned (free : Bool) (fs : FileSystem) (path : Path) (config : Config) (steps : List Step)
    (answers : List (List Line)) : Prop :=
  ∃ t t', Tailer.start fs path config = .ok t ∧ Tailer.Elapses fs 1 0 t t' ∧
    Tailer.Runs free fs 1 t' true steps answers

namespace Watcher

variable {fs : FileSystem} {p : Path} {config : Config} {watcher : Watcher}

theorem interval_start (h : config.pollInterval = recheck) :
    (Watcher.start fs p config).interval = recheck := by
  unfold start
  split_ifs
  · exact h
  · rfl

theorem interval_attach (fs : FileSystem) (p : Path) (watcher : Watcher) :
    (watcher.attach fs p).interval = watcher.interval := by
  cases watcher <;> rfl

theorem interval_forget (watcher : Watcher) : watcher.forget.interval = watcher.interval := by
  cases watcher <;> rfl

theorem interval_deliver (event : Event) (watcher : Watcher) :
    (watcher.deliver event).interval = watcher.interval := by
  cases watcher <;> rfl

theorem interval_awaken {woken : Watcher} (h : watcher.awaken = some woken) :
    woken.interval = watcher.interval := by
  cases watcher with
  | polling interval => cases h
  | notified name onFile queue =>
    unfold awaken at h
    dsimp only at h
    split at h
    · cases h
    · cases h
      rfl

end Watcher

namespace Tailer

open Engine

variable {fs : FileSystem} {now later target : Nat} {t t' : Tailer}

/-! ## A second at most -/

/-- A tailer that goes on and looks again within a second, whichever way it watches. -/
structure Timely (now : Nat) (t : Tailer) : Prop where
  sound : t.Sound
  on : t.On
  pace : t.engine.config.pollInterval = Watcher.recheck
  interval : t.engine.watcher.interval = Watcher.recheck
  due : ∀ due, t.wakeTime = some due → due ≤ now + Watcher.recheck

namespace Timely

theorem mono (h : Timely now t) (hle : now ≤ later) : Timely later t :=
  { h with due := fun due hw => (h.due due hw).trans (Nat.add_le_add_right hle _) }

theorem notify (h : Timely now t) (event : Event) : Timely now (t.notify event) where
  sound := { h.sound with }
  on := h.on
  pace := h.pace
  interval := (Watcher.interval_deliver event _).trans h.interval
  due := h.due

theorem queue (h : Timely now t) (queue : List Line) : Timely now { t with queue } :=
  { h with sound := { h.sound with } }

theorem turn (h : Timely now t) (ht : Turn fs now t t') : Timely now t' := by
  refine ⟨h.sound.turn ht, ?_, ?_, ?_, ?_⟩
  · exact ⟨ht.stopRequested_eq.trans h.on.1, ht.closed_eq.trans h.on.2⟩
  · rw [ht.config_eq]
    exact h.pace
  · cases ht with
    | wake _ why =>
      rcases why with ⟨-, rfl⟩ | ⟨-, hwake⟩
      · exact h.interval
      · exact (Watcher.interval_awaken hwake).trans h.interval
    | pass _ hp =>
      cases hp with
      | arm => exact Watcher.interval_start h.pace
      | found => exact (Watcher.interval_attach fs _ _).trans h.interval
      | clear => exact (Watcher.interval_forget _).trans h.interval
      | _ => exact h.interval
    | «open» => exact Watcher.interval_start h.pace
    | _ => exact h.interval
  · cases ht with
    | idle => exact h.due
    | rest =>
      rintro due ⟨⟩
      rw [h.pace]
    | wait =>
      rintro due ⟨⟩
      rw [h.interval]
    | _ => exact nofun

theorem step (h : Timely now t) (fs : FileSystem) : Timely now (t.step fs now) :=
  h.turn (turn_step h.sound.fits fs now)

end Timely

theorem timely_start {path : Path} {config : Config} (h : start fs path config = .ok t)
    (hpace : config.pollInterval = Watcher.recheck) (now : Nat) : Timely now t := by
  have hsound := sound_start h
  obtain ⟨-, ⟨n, offset, -, -, rfl⟩ | ⟨f, -, -, -, rfl⟩⟩ := start_cases h
  · exact ⟨hsound, ⟨rfl, rfl⟩, hpace, Watcher.interval_start hpace, nofun⟩
  · exact ⟨hsound, ⟨rfl, rfl⟩, hpace, Watcher.interval_start hpace, nofun⟩

/-! ## While time passes -/

/-- What steps and events keep, up to a time. -/
structure Stable (fs : FileSystem) (target : Nat) (P : Nat → Tailer → Prop) : Prop where
  work : ∀ now t, P now t → t.blocked now = false → P now (t.step fs now)
  notify : ∀ now t event, P now t → P now (t.notify event)
  wait : ∀ now later t, P now t → now ≤ later → later < target → P later t

variable {P : Nat → Tailer → Prop}

/-- What steps and events keep holds when the time has passed, and the tailer is held up then
until the target. -/
theorem Elapses.keeps (h : Elapses fs target now t t') (hP : Stable fs target P) (hnow : P now t) :
    ∃ last, (last = now ∨ last < target) ∧ P last t' ∧ t'.blocked last = true ∧
      ∀ due, t'.wakeTime = some due → target ≤ due := by
  induction h with
  | @done now t hb hdue => exact ⟨now, .inl rfl, hnow, hb, hdue⟩
  | work hb _ ih => exact ih (hP.work _ _ hnow hb)
  | notify event _ ih => exact ih (hP.notify _ _ event hnow)
  | wait _ hle hlt _ _ ih =>
    obtain ⟨last, hlast, hrest⟩ := ih (hP.wait _ _ _ hnow hle hlt)
    exact ⟨last, .inr (hlast.elim (fun h => h ▸ hlt) id), hrest⟩

theorem stable_timely (fs : FileSystem) (target : Nat) : Stable fs target Timely where
  work := fun _ _ h _ => h.step fs
  notify := fun _ _ event h => h.notify event
  wait := fun _ _ _ h hle _ => h.mono hle

theorem Elapses.timely (h : Elapses fs target now t t') (ht : Timely now t) (hle : now ≤ target) :
    Timely target t' := by
  obtain ⟨last, hlast, hkept, -⟩ := h.keeps (stable_timely fs target) ht
  refine hkept.mono ?_
  omega

end Tailer

end LogFollower
