import LogFollower.Proofs.Script
import LogFollower.Proofs.Tailer.Beat
import LogFollower.Proofs.Tailer.Labour
import LogFollower.Proofs.Watching.Schedule

/-!
# A scenario runs its scripts

In a scenario no events come, and time passes until nothing is due any more. That is one of the ways
in which a script can run (`runs_answers`).

What a tailer has to do before it is held up again is its `labour`. With the lines in the channel it
is under the rounds of a drain.
-/

namespace LogFollower

namespace Scenario

/-- Carries a step of a script out, with the lines that it returns. -/
def answer (s : Scenario) : Step → List Line × Scenario
  | .edit change => ([], s.edit change)
  | .tick seconds => ([], s.tick seconds)
  | .receive max => ((s.receive 0 max).1, (s.receive 0 max).2.2)
  | .drain => ((s.drain 0).1, (s.drain 0).2.2)

/-- The lines that the steps of a script return. -/
def answers (s : Scenario) : List Step → List (List Line)
  | [] => []
  | step :: steps => (s.answer step).1 :: (s.answer step).2.answers steps

/-- Whether no report waits when a script changes a file. `taken` says that the tailer was just
started or all lines were just taken. -/
def unhindered (s : Scenario) (taken : Bool) : List Step → Bool
  | [] => true
  | .edit change :: steps =>
    (taken || !(s.tailer? 0).any (·.reporting)) && (s.edit change).unhindered taken steps
  | .drain :: steps => (s.answer .drain).2.unhindered true steps
  | step :: steps => (s.answer step).2.unhindered false steps

end Scenario

theorem Watcher.Calm.deliver {config : Config} {watcher woken : Watcher} {event : Event}
    (h : watcher.Calm config) (hwake : (watcher.deliver event).awaken = some woken) :
    woken.Calm config := by
  cases watcher with
  | polling interval => cases hwake
  | notified name onFile queue =>
    obtain rfl : queue = [] := h
    unfold Watcher.deliver awaken at hwake
    dsimp only [List.nil_append] at hwake
    by_cases hc : event.concerns name = true
    · simp [hc] at hwake
      subst hwake
      rfl
    · simp [hc] at hwake

namespace Tailer

open Engine

variable {fs : FileSystem} {now target : Nat} {t t' : Tailer}

/-- A timely tailer to which no event comes. -/
structure Alone (now : Nat) (t : Tailer) : Prop where
  timely : Timely now t
  calm : t.engine.watcher.Calm t.engine.config
  persists : t.engine.Persists

theorem Alone.turn (h : Alone now t) (ht : Turn fs now t t') : Alone now t' :=
  ⟨h.timely.turn ht, ht.calm h.calm, ht.persists h.persists⟩

theorem Alone.step (h : Alone now t) (fs : FileSystem) : Alone now (t.step fs now) :=
  h.turn (turn_step h.timely.sound.fits fs now)

theorem Alone.queue (h : Alone now t) (queue : List Line) : Alone now { t with queue } :=
  ⟨h.timely.queue queue, h.calm, h.persists⟩

theorem alone_lasting (fs : FileSystem) : Lasting fs Alone where
  step := fun _ _ h => h.step fs
  later := fun _ _ _ hle h => ⟨h.timely.mono hle, h.calm, h.persists⟩
  wake := by
    intro now t due h hw
    refine ⟨{ h.timely with due := ?_ }, h.calm, h.persists⟩
    intro due' hw'
    rw [Option.some.inj (hw'.symm.trans hw)]
    exact Nat.le_add_right _ _

theorem Alone.still (h : Alone now t) : t.Still :=
  ⟨h.timely.sound, h.timely.on, h.calm, h.persists⟩

theorem due_of_step (h : Alone now t) (hb : t.blocked now = false) {due : Nat} {watching : Bool}
    {next : Stage} (hp : (t.step fs now).engine.phase = .asleep due watching next) :
    due = now + Watcher.recheck := by
  have hturn := turn_step h.timely.sound.fits fs now
  generalize t.step fs now = t' at hp hturn
  cases hturn with
  | idle hb' => rw [hb] at hb'; cases hb'
  | rest =>
    cases hp
    rw [h.timely.pace]
  | wait =>
    cases hp
    rw [h.timely.interval]
  | _ => cases hp

/-! ## Time passes as it may -/

/-- What is done at a moment can be done while time passes. -/
theorem elapses_of_settleWithin (fuel : Nat)
    (h : Elapses fs target now (t.settleWithin fs now fuel) t') : Elapses fs target now t t' := by
  induction fuel generalizing t with
  | zero => exact h
  | succ fuel ih =>
    unfold settleWithin at h
    cases hb : t.blocked now with
    | true =>
      rw [hb] at h
      exact h
    | false =>
      rw [hb] at h
      exact .work hb (ih h)

/-- A run through time without events is one of those with any events. -/
theorem elapses_runWithin (fuel : Nat) (hnow : now ≤ target) (hfuel : target ≤ now + fuel)
    (h : Alone now t) : Elapses fs target now t (t.runWithin fs target fuel now) := by
  induction fuel generalizing now t with
  | zero =>
    have hs := settle_of (alone_lasting fs) h
    have hb := h.still.blocked_settle fs now
    refine elapses_of_settleWithin _ (.done hb ?_)
    intro due hw
    have hlt := hs.still.lt_of_wakeTime hb hw
    omega
  | succ fuel ih =>
    have hs := settle_of (alone_lasting fs) h
    have hb := h.still.blocked_settle fs now
    rw [runWithin_succ]
    refine elapses_of_settleWithin (t.patience fs) ?_
    change Elapses fs target now (t.settle fs now) _
    cases hw : (t.settle fs now).wakeTime with
    | none => exact .done hb (by rw [hw]; exact nofun)
    | some due =>
      have hlt := hs.still.lt_of_wakeTime hb hw
      by_cases hdue : due < target
      · simp only [if_pos hdue]
        refine .wait hb hlt.le hdue ?_ ?_
        · intro due' hw'
          rw [hw] at hw'
          exact (Option.some.inj hw').le
        · exact ih hdue.le (by omega) ((alone_lasting fs).wake _ _ _ hs hw)
      · simp only [if_neg hdue]
        refine .done hb ?_
        intro due' hw'
        rw [hw] at hw'
        exact Option.some.inj hw' ▸ Nat.not_lt.1 hdue

theorem elapses_runTo (hnow : now ≤ target) (h : Alone now t) :
    Elapses fs target now t (t.runTo fs now target) :=
  elapses_runWithin _ hnow (by omega) h

section Woken

variable {due later : Nat} {next : Stage} {event : Event} {woken : Watcher}

theorem Alone.wake (h : Alone now t) (hp : t.engine.phase = .asleep due true next)
    (hwake : (t.engine.watcher.deliver event).awaken = some woken) :
    Alone now { t with engine := { t.engine with watcher := woken, phase := .ready next } } := by
  have hturn : Turn ⟨[]⟩ now (t.notify event)
      { t with engine := { t.engine with watcher := woken, phase := .ready next } } :=
    .wake hp (.inr ⟨rfl, hwake⟩)
  exact ⟨(h.timely.notify event).turn hturn, h.calm.deliver hwake, h.persists⟩

theorem elapses_woken (h : Alone now t) (hp : t.engine.phase = .asleep due true next)
    (hwake : (t.engine.watcher.deliver event).awaken = some woken)
    (hle : now ≤ later) (hdue : later < due) (hlt : later < target) :
    Elapses fs target now t
      ({ t with engine := { t.engine with watcher := woken, phase := .ready next } }.runTo
        fs later target) := by
  have hb : t.blocked now = true := by
    rw [h.still.blocked_asleep hp]
    exact decide_eq_true (hle.trans_lt hdue)
  have hlater : ∀ due', t.wakeTime = some due' → later ≤ due' := by
    intro due' hw
    unfold wakeTime at hw
    rw [hp] at hw
    cases hw
    exact hdue.le
  have hstirred : (t.notify event).blocked later = false := by
    unfold blocked notify
    simp [hp, hwake]
  have hstep : (t.notify event).step fs later =
      { t with engine := { t.engine with watcher := woken, phase := .ready next } } := by
    unfold step notify sleep
    simp [hp, hwake, h.timely.on.1]
  have halone := ((alone_lasting fs).later _ _ _ hle h).wake hp hwake
  refine .wait hb hle hlt hlater (.notify event (.work hstirred ?_))
  rw [hstep]
  exact elapses_runTo hlt.le halone

end Woken

/-! ## A drain has rounds enough -/

theorem runTo_millisecond (h : Alone now t) :
    t.runTo fs now (now + 1) = t.settle fs now := by
  have hs := settle_of (alone_lasting fs) h
  have hb := h.still.blocked_settle fs now
  have hfuel : now + 1 - now = 1 := by omega
  unfold runTo
  rw [hfuel, runWithin_succ]
  cases hw : (t.settle fs now).wakeTime with
  | none => rfl
  | some due =>
    have hlt := hs.still.lt_of_wakeTime hb hw
    exact if_neg (by omega)

theorem length_gives_le (e : Engine) : e.gives.length ≤ 1 := by
  unfold gives
  split
  · exact le_rfl
  · exact Nat.zero_le _

/-- The tailer is awake, or its sleep is over or has just begun. -/
def Stirs (now : Nat) (t : Tailer) : Prop :=
  ∀ due, t.wakeTime = some due → due ≤ now ∨ due = now + Watcher.recheck

/-- A line in the channel was paid for with a step. -/
theorem settleWithin_pays (fs : FileSystem) (fuel : Nat) (h : Alone now t) (hstirs : Stirs now t) :
    (t.settleWithin fs now fuel).queue.length + (t.settleWithin fs now fuel).labour fs now ≤
        t.queue.length + t.labour fs now ∧
      Stirs now (t.settleWithin fs now fuel) := by
  induction fuel generalizing t with
  | zero => exact ⟨le_rfl, hstirs⟩
  | succ fuel ih =>
    unfold settleWithin
    cases hb : t.blocked now with
    | true => exact ⟨le_rfl, hstirs⟩
    | false =>
      rw [if_neg Bool.false_ne_true]
      have hstirs' : Stirs now (t.step fs now) := by
        intro due hw
        right
        unfold wakeTime at hw
        split at hw
        · next hp =>
          cases hw
          exact due_of_step h hb hp
        · cases hw
      have hqueue : (t.step fs now).queue = t.queue ++ t.engine.gives :=
        (step_bare h.timely.on hb).2
      have hlabour : (t.step fs now).labour fs now < t.labour fs now := h.still.labour_step hb
      have hone := length_gives_le t.engine
      obtain ⟨hle, hstirs''⟩ := ih (h.step fs) hstirs'
      rw [hqueue, List.length_append] at hle
      exact ⟨by omega, hstirs''⟩

theorem labour_later (hstirs : Stirs now t) : t.labour fs (now + 1) = t.labour fs now := by
  unfold labour
  split
  · next due watching next hp =>
    have hdue := hstirs due (by unfold wakeTime; rw [hp])
    have : Watcher.recheck = 1000 := rfl
    split_ifs <;> omega
  · rfl

/-- After a millisecond there is nothing to take, or less to do. -/
theorem millisecond_pays (fs : FileSystem) (h : Alone now t) (hq : t.queue = []) :
    (t.runTo fs now (now + 1)).queue = [] ∨
      (t.runTo fs now (now + 1)).queue.length +
        (t.runTo fs now (now + 1)).labour fs (now + 1) ≤ t.labour fs now := by
  rw [runTo_millisecond h]
  by_cases hstirs : Stirs now t
  · right
    obtain ⟨hle, hstirs'⟩ := settleWithin_pays fs (t.patience fs) h hstirs
    rw [hq, List.length_nil, Nat.zero_add] at hle
    show (t.settleWithin fs now (t.patience fs)).queue.length + _ ≤ _
    rw [show t.settle fs now = t.settleWithin fs now (t.patience fs) from rfl,
      labour_later hstirs']
    exact hle
  · left
    unfold Stirs at hstirs
    push Not at hstirs
    obtain ⟨due, hw, hlt, -⟩ := hstirs
    have hb : t.blocked now = true := by
      unfold wakeTime at hw
      split at hw
      · next hp =>
        cases hw
        rw [h.still.blocked_asleep hp]
        exact decide_eq_true hlt
      · cases hw
    show (t.settleWithin fs now (t.patience fs)).queue = []
    rw [settleWithin_eq_of_blocked hb]
    exact hq

end Tailer

namespace Scenario

open Tailer

variable {s : Scenario} {t : Tailer}

/-- A drain ends because nothing comes any more, and not because its rounds are over. -/
theorem drains_drainWithin (rounds : Nat) (taken : List Line) (h : s.tailer? 0 = some t)
    (ha : Alone s.now t) (hpos : 0 < rounds)
    (hrounds : t.queue = [] ∨ 1 + t.queue.length + t.labour s.fs s.now < rounds) :
    ∃ lines t', (drainWithin 0 rounds taken s).1 = taken ++ lines ∧
      Drains s.fs s.now t lines (drainWithin 0 rounds taken s).2.2.now t' ∧
      (drainWithin 0 rounds taken s).2.2.tailer? 0 = some t' ∧
      Alone (drainWithin 0 rounds taken s).2.2.now t' := by
  induction rounds generalizing s t taken with
  | zero => omega
  | succ rounds ih =>
    obtain ⟨hlines, hended, htailer⟩ := receive_tailer h none
    have hfs := fs_receive s 0 none
    have hnow := now_receive s 0 none
    have hempty : Alone s.now (t.receive none).2.2 := ha.queue _
    have hqueue : (t.receive none).2.2.queue = [] := by
      unfold Tailer.receive
      simp
    have hall : (t.receive none).1 = t.queue := by
      unfold Tailer.receive
      simp
    have hle := Nat.le_succ s.now
    have he : Elapses s.fs (s.now + 1) s.now (t.receive none).2.2
        ((t.receive none).2.2.runTo s.fs s.now (s.now + 1)) := elapses_runTo hle hempty
    have hnext := runTo_of (alone_lasting s.fs) hle hempty
    unfold drainWithin
    dsimp only
    rw [hlines, hended]
    by_cases hlast : (t.receive none).1 = [] ∨ (t.receive none).2.1 = true
    · rw [if_pos hlast]
      dsimp only
      rw [hnow]
      exact ⟨_, _, rfl, .last hlast he, htailer, hnext⟩
    · rw [if_neg hlast]
      rw [hall, not_or] at hlast
      have hsome := List.length_pos_iff.2 hlast.1
      have hbound : 1 + t.queue.length + t.labour s.fs s.now < rounds + 1 :=
        hrounds.resolve_left hlast.1
      have hpays := millisecond_pays s.fs hempty hqueue
      have hlabour : (t.receive none).2.2.labour s.fs s.now = t.labour s.fs s.now := rfl
      rw [hlabour] at hpays
      obtain ⟨lines, t', hgiven, hdrains, htailer', ha'⟩ := ih (taken ++ (t.receive none).1) htailer
        (by rw [hnow]; exact hnext) (by omega)
        (by rw [hnow, hfs]; exact hpays.imp_right fun hpays => by omega)
      rw [hfs, hnow] at hdrains
      refine ⟨(t.receive none).1 ++ lines, t', ?_, .more ?_ he hdrains, htailer', ha'⟩
      · rw [hgiven, List.append_assoc]
      · rw [hall, not_or]
        exact hlast

theorem drains_drain (h : s.tailer? 0 = some t) (ha : Alone s.now t) :
    ∃ t', Drains s.fs s.now t (s.drain 0).1 (s.drain 0).2.2.now t' ∧
      (s.drain 0).2.2.tailer? 0 = some t' ∧ Alone (s.drain 0).2.2.now t' := by
  have hlabour := labour_le s.fs s.now t
  have hrounds : s.rounds 0 = 8 * (s.fs.size + (t.backlog + t.queue.length)) + 10000 := by
    unfold rounds
    rw [h]
    rfl
  obtain ⟨lines, t', hgiven, hdrains, htailer, ha'⟩ := drains_drainWithin (s.rounds 0) [] h ha
    (by omega) (.inr (by omega))
  rw [List.nil_append] at hgiven
  subst hgiven
  exact ⟨t', hdrains, htailer, ha'⟩

/-- A script runs in a scenario, with the lines that its steps return. -/
theorem runs_answers {free taken : Bool} {steps : List Step} (h : s.tailer? 0 = some t)
    (ha : Alone s.now t) (hfree : free = true → s.unhindered taken steps = true) :
    Runs free s.fs s.now t taken steps (s.answers steps) := by
  induction steps generalizing s t taken with
  | nil => exact .done
  | cons step steps ih =>
    cases step with
    | edit change =>
      unfold unhindered at hfree
      simp only [h, Bool.and_eq_true] at hfree
      have hrest := ih (s := s.edit change) h ha fun hf => (hfree hf).2
      refine .edit (fun hf => ?_) hrest
      simpa using (hfree hf).1
    | tick seconds =>
      have hle : s.now ≤ s.now + seconds * 1000 := Nat.le_add_right _ _
      have htailer : (s.tick seconds).tailer? 0 =
          some (t.runTo s.fs s.now (s.now + seconds * 1000)) := by
        unfold tick
        rw [tailer?_pass, h]
        rfl
      exact .tick (elapses_runTo hle ha)
        (ih (s := s.tick seconds) htailer (runTo_of (alone_lasting s.fs) hle ha) hfree)
    | receive max =>
      obtain ⟨hlines, -, htailer⟩ := receive_tailer h max
      have hle := Nat.le_succ s.now
      have hqueue : Alone s.now (t.receive max).2.2 := ha.queue _
      have hrest := ih (s := (s.receive 0 max).2.2) htailer
        (by rw [now_receive]; exact runTo_of (alone_lasting s.fs) hle hqueue) hfree
      rw [fs_receive, now_receive] at hrest
      show Runs free s.fs s.now t taken _
        ((s.receive 0 max).1 :: (s.receive 0 max).2.2.answers steps)
      rw [hlines]
      exact .receive (elapses_runTo hle hqueue) hrest
    | drain =>
      obtain ⟨t', hdrains, htailer, ha'⟩ := drains_drain h ha
      have hrest := ih (s := (s.drain 0).2.2) htailer ha' hfree
      have hfs : (s.drain 0).2.2.fs = s.fs := fs_drainWithin 0 _ [] s
      rw [hfs] at hrest
      exact .drain hdrains hrest

end Scenario

end LogFollower
