import LogFollower.Proofs.Tailer.Effort
import LogFollower.Proofs.Tailer.Kept
import LogFollower.Proofs.Tailer.Run

/-!
# What a tailer has to do before it is held up

A tailer that is `Still` goes on, and no event comes to it. It sleeps until its time, and every step
that it is not held up from leaves less to do: its `labour`. A tailer whose sleep is over has to go
on first. So whenever such a tailer settles, it is held up (`Still.blocked_settle`).
-/

namespace LogFollower.Tailer

open Engine

variable {fs : FileSystem} {now : Nat} {t t' : Tailer}

/-- A tailer that goes on, and to which no event comes. -/
structure Still (t : Tailer) : Prop where
  sound : t.Sound
  on : t.On
  calm : t.engine.watcher.Calm t.engine.config
  persists : t.engine.Persists

namespace Still

theorem turn (h : t.Still) (ht : Turn fs now t t') : t'.Still where
  sound := h.sound.turn ht
  on := ⟨ht.stopRequested_eq.trans h.on.1, ht.closed_eq.trans h.on.2⟩
  calm := ht.calm h.calm
  persists := ht.persists h.persists

theorem step (h : t.Still) (fs : FileSystem) (now : Nat) : (t.step fs now).Still :=
  h.turn (turn_step h.sound.fits fs now)

theorem queue (h : t.Still) (queue : List Line) : Still { t with queue } :=
  { h with sound := { h.sound with } }

end Still

theorem still_lasting (fs : FileSystem) : Lasting fs fun _ => Still where
  step := fun now _ h => h.step fs now
  later := fun _ _ _ _ h => h
  wake := fun _ _ _ h _ => h

/-- How many steps there are at most until the tailer is held up. -/
def labour (fs : FileSystem) (now : Nat) (t : Tailer) : Nat :=
  match t.engine.phase with
  | .asleep due _ next => if due ≤ now then 1 + t.engine.toil fs next else 0
  | _ => t.engine.effort fs

theorem labour_asleep {due : Nat} {watching : Bool} {next : Stage}
    (hp : t.engine.phase = .asleep due watching next) :
    t.labour fs now = if due ≤ now then 1 + t.engine.toil fs next else 0 := by
  unfold labour
  rw [hp]

theorem labour_awake (hawake : ∀ due watching next, t.engine.phase ≠ .asleep due watching next) :
    t.labour fs now = t.engine.effort fs := by
  unfold labour
  split
  · next hp => exact absurd hp (hawake _ _ _)
  · rfl

namespace Still

theorem blocked_asleep (h : t.Still) {due : Nat} {watching : Bool} {next : Stage}
    (hp : t.engine.phase = .asleep due watching next) : t.blocked now = decide (now < due) := by
  unfold blocked
  rw [hp]
  simp [h.on.1, h.calm.awaken_eq]

theorem lt_due (h : t.Still) (hb : t.blocked now = false) {due : Nat} {watching : Bool}
    {next : Stage} (hp : (t.step fs now).engine.phase = .asleep due watching next) :
    now < due := by
  have hturn := turn_step h.sound.fits fs now
  generalize t.step fs now = t' at hp hturn
  cases hturn with
  | idle hb' => rw [hb] at hb'; cases hb'
  | rest =>
    cases hp
    exact Nat.lt_add_of_pos_right h.sound.pollInterval_pos
  | wait =>
    cases hp
    exact Nat.lt_add_of_pos_right (h.calm.interval_pos h.sound.pollInterval_pos)
  | _ => cases hp

/-- A step leaves less to do. -/
theorem labour_step (h : t.Still) (hb : t.blocked now = false) :
    (t.step fs now).labour fs now < t.labour fs now := by
  by_cases hp : ∃ due watching next, t.engine.phase = .asleep due watching next
  · obtain ⟨due, watching, next, hp⟩ := hp
    have hdue : due ≤ now := by
      rw [h.blocked_asleep hp] at hb
      exact Nat.not_lt.1 (of_decide_eq_false hb)
    obtain ⟨watcher, hstep⟩ : ∃ watcher, t.step fs now =
        { t with engine := { t.engine with watcher, phase := .ready next } } :=
      step_wake hp h.on hb
    rw [hstep, labour_asleep hp, if_pos hdue]
    exact Nat.lt_add_of_pos_left Nat.one_pos
  · have hawake : ∀ due watching next, t.engine.phase ≠ .asleep due watching next :=
      fun due watching next h => hp ⟨due, watching, next, h⟩
    have hturn := turn_step h.sound.fits fs now
    have hlt := (hturn.effort h.sound h.persists hawake).resolve_left (by rw [hb]; exact nofun)
    rw [labour_awake hawake]
    by_cases hp' : ∃ due watching next, (t.step fs now).engine.phase = .asleep due watching next
    · obtain ⟨due, watching, next, hp'⟩ := hp'
      rw [labour_asleep hp', if_neg (Nat.not_le.2 (h.lt_due hb hp'))]
      exact Nat.zero_lt_of_lt hlt
    · rw [labour_awake fun due watching next h => hp' ⟨due, watching, next, h⟩]
      exact hlt

theorem lt_of_wakeTime (h : t.Still) (hb : t.blocked now = true) {due : Nat}
    (hw : t.wakeTime = some due) : now < due := by
  unfold wakeTime at hw
  split at hw
  · next hp =>
    cases hw
    exact of_decide_eq_true ((h.blocked_asleep hp).symm.trans hb)
  · cases hw

end Still

theorem labour_le (fs : FileSystem) (now : Nat) (t : Tailer) :
    t.labour fs now ≤ 6 * fs.size + t.backlog + 40 := by
  by_cases hp : ∃ due watching next, t.engine.phase = .asleep due watching next
  · obtain ⟨due, watching, next, hp⟩ := hp
    have := toil_le fs t.engine next
    rw [labour_asleep hp]
    split_ifs <;> omega
  · rw [labour_awake fun due watching next h => hp ⟨due, watching, next, h⟩]
    exact effort_le_backlog fs t

theorem labour_paying (fs : FileSystem) : Paying fs (fun _ => Still) (labour fs) where
  pays := fun _ _ h hb => h.labour_step hb
  afford := by
    intro now t _
    have := labour_le fs now t
    unfold patience
    omega

/-- A tailer that settles is held up. -/
theorem Still.blocked_settle (h : t.Still) (fs : FileSystem) (now : Nat) :
    (t.settle fs now).blocked now = true :=
  Tailer.blocked_settle (P := fun _ => Still) (still_lasting fs) (labour_paying fs) h

theorem Still.settle (h : t.Still) (fs : FileSystem) (now : Nat) : (t.settle fs now).Still :=
  settle_of (P := fun _ => Still) (still_lasting fs) (t := t) h

theorem still_start {path : Path} {config : Config} (h : start fs path config = .ok t) :
    t.Still := by
  have hkept := kept_start h 0
  refine ⟨hkept.sound, ?_, hkept.calm, persists_start h⟩
  obtain ⟨-, ⟨n, offset, -, -, rfl⟩ | ⟨f, -, -, -, rfl⟩⟩ := start_cases h <;> exact ⟨rfl, rfl⟩

end LogFollower.Tailer
