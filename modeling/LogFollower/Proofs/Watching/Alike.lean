import LogFollower.Proofs.Watching.Own

/-!
# Both ways without events

A tailer to which no event comes looks again after a second, whichever way it watches. So two
tailers that differ in their way of watching alone (`Alike`) do the same at the same moments, and
every step of every script returns the same lines from both, the reports of errors among them
(`answers_alike`).
-/

namespace LogFollower

namespace Tailer

open Engine

variable {fs : FileSystem} {now target : Nat} {t t' : Tailer}

theorem wakeTime_step (h : Alone now t) (hb : t.blocked now = false) :
    (t.step fs now).wakeTime =
      (t.step fs now).engine.bare.alone.wakeTime.map fun _ => now + Watcher.recheck := by
  have hbare : (t.step fs now).engine.bare.alone.engine.phase =
      (t.step fs now).engine.phase.timeless := rfl
  unfold wakeTime
  rw [hbare]
  cases hp : (t.step fs now).engine.phase with
  | asleep due watching next => exact congrArg some (due_of_step h hb hp)
  | _ => rfl

/-- Two tailers that differ in their way of watching alone. -/
structure Alike (t t' : Tailer) : Prop where
  bare : t.engine.bare = t'.engine.bare
  wake : t.wakeTime = t'.wakeTime
  queue : t.queue = t'.queue
  room : t.capacity = t'.capacity

namespace Alike

theorem phase (h : Alike t t') : t.engine.phase = t'.engine.phase := by
  have hbare : t.engine.phase.timeless = t'.engine.phase.timeless := congrArg Engine.phase h.bare
  have hwake := h.wake
  unfold wakeTime at hwake
  cases hp : t.engine.phase <;> cases hp' : t'.engine.phase <;>
    simp_all [Phase.timeless]

theorem backlog (h : Alike t t') : t.backlog = t'.backlog := by
  have hsplitter : t.engine.splitter = t'.engine.splitter := by
    change t.engine.bare.splitter = t'.engine.bare.splitter
    rw [h.bare]
  unfold Tailer.backlog
  rw [h.phase, hsplitter]

theorem blocked (h : Alike t t') (ha : Alone now t) (ha' : Alone now t') :
    t.blocked now = t'.blocked now := by
  unfold Tailer.blocked
  rw [h.phase, h.queue, h.room, ha.timely.on.1, ha.timely.on.2, ha'.timely.on.1, ha'.timely.on.2,
    ha.calm.awaken_eq, ha'.calm.awaken_eq]

theorem step (h : Alike t t') (ha : Alone now t) (ha' : Alone now t') :
    Alike (t.step fs now) (t'.step fs now) := by
  cases hb : t.blocked now with
  | true =>
    rw [step_eq_of_blocked hb, step_eq_of_blocked (h.blocked ha ha' ▸ hb)]
    exact h
  | false =>
    have hb' : t'.blocked now = false := h.blocked ha ha' ▸ hb
    have hengine : (t.step fs now).engine.bare = (t'.step fs now).engine.bare := by
      rw [(step_bare ha.timely.on hb).1, (step_bare ha'.timely.on hb').1, h.bare]
    have hgives : t.engine.gives = t'.engine.gives := by
      rw [← gives_bare, h.bare, gives_bare]
    constructor
    · exact hengine
    · rw [wakeTime_step ha hb, wakeTime_step ha' hb', hengine]
    · rw [(step_bare ha.timely.on hb).2, (step_bare ha'.timely.on hb').2, h.queue, hgives]
    · rw [(turn_step ha.timely.sound.fits fs now).capacity_eq,
        (turn_step ha'.timely.sound.fits fs now).capacity_eq, h.room]

theorem settleWithin (fuel : Nat) (h : Alike t t') (ha : Alone now t) (ha' : Alone now t') :
    Alike (t.settleWithin fs now fuel) (t'.settleWithin fs now fuel) := by
  induction fuel generalizing t t' with
  | zero => exact h
  | succ fuel ih =>
    unfold Tailer.settleWithin
    rw [h.blocked ha ha']
    split_ifs
    · exact h
    · exact ih (h.step ha ha') (ha.step fs) (ha'.step fs)

theorem settle (fs : FileSystem) (h : Alike t t') (ha : Alone now t) (ha' : Alone now t') :
    Alike (t.settle fs now) (t'.settle fs now) := by
  have hpatience : t.patience fs = t'.patience fs := by
    unfold patience
    rw [h.backlog]
  unfold Tailer.settle
  rw [hpatience]
  exact h.settleWithin _ ha ha'

theorem runWithin (fuel : Nat) (h : Alike t t') (ha : Alone now t) (ha' : Alone now t') :
    Alike (t.runWithin fs target fuel now) (t'.runWithin fs target fuel now) := by
  induction fuel generalizing now t t' with
  | zero => exact h.settle fs ha ha'
  | succ fuel ih =>
    have hs := h.settle fs ha ha'
    have hlasting := alone_lasting fs
    rw [runWithin_succ, runWithin_succ, ← hs.wake]
    cases hw : (t.settle fs now).wakeTime with
    | none => exact hs
    | some due =>
      by_cases hdue : due < target
      · simp only [if_pos hdue]
        exact ih hs (hlasting.wake _ _ _ (settle_of hlasting ha) hw)
          (hlasting.wake _ _ _ (settle_of hlasting ha') (hs.wake ▸ hw))
      · simp only [if_neg hdue]
        exact hs

theorem runTo (h : Alike t t') (ha : Alone now t) (ha' : Alone now t') :
    Alike (t.runTo fs now target) (t'.runTo fs now target) :=
  h.runWithin _ ha ha'

theorem receive (h : Alike t t') (ha : Alone now t) (ha' : Alone now t') (max : Option Nat) :
    (t.receive max).1 = (t'.receive max).1 ∧ (t.receive max).2.1 = (t'.receive max).2.1 ∧
      Alike (t.receive max).2.2 (t'.receive max).2.2 := by
  have hended : t.ended = t'.ended := by
    unfold ended
    rw [h.phase]
  unfold Tailer.receive
  refine ⟨?_, ?_, ⟨h.bare, h.wake, ?_, h.room⟩⟩
  · simp only [h.queue]
  · simp only [h.queue, hended, ha.timely.on.2, ha'.timely.on.2]
  · simp only [h.queue]

end Alike

end Tailer

namespace Scenario

open Tailer

variable {s s' : Scenario}

/-- Two scenarios that differ in the way of watching alone. -/
structure Alike (s s' : Scenario) : Prop where
  fs : s.fs = s'.fs
  now : s.now = s'.now
  tailers : ∃ t t', s.tailer? 0 = some t ∧ s'.tailer? 0 = some t' ∧ Alone s.now t ∧
    Alone s.now t' ∧ t.Alike t'

namespace Alike

theorem edit (h : s.Alike s') (change : Edit) : (s.edit change).Alike (s'.edit change) :=
  ⟨congrArg (·.edit change) h.fs, h.now, h.tailers⟩

theorem pass (h : s.Alike s') (ms : Nat) : (s.pass ms).Alike (s'.pass ms) := by
  obtain ⟨hfs, hnow, t, t', ht, ht', ha, ha', halike⟩ := h
  have hle : s.now ≤ s.now + ms := Nat.le_add_right _ _
  refine ⟨hfs, congrArg (· + ms) hnow, t.runTo s.fs s.now (s.now + ms),
    t'.runTo s.fs s.now (s.now + ms), ?_, ?_, runTo_of (alone_lasting s.fs) hle ha,
    runTo_of (alone_lasting s.fs) hle ha', halike.runTo ha ha'⟩
  · rw [tailer?_pass, ht]
    rfl
  · rw [tailer?_pass, ht', ← hfs, ← hnow]
    rfl

theorem take (h : s.Alike s') (max : Option Nat) :
    (s.take 0 max).1 = (s'.take 0 max).1 ∧ (s.take 0 max).2.1 = (s'.take 0 max).2.1 ∧
      (s.take 0 max).2.2.Alike (s'.take 0 max).2.2 := by
  obtain ⟨hfs, hnow, t, t', ht, ht', ha, ha', halike⟩ := h
  obtain ⟨hlines, hended, htailer⟩ := take_eq ht max
  obtain ⟨hlines', hended', htailer'⟩ := take_eq ht' max
  obtain ⟨hsame, hend, hrest⟩ := halike.receive ha ha' max
  refine ⟨by rw [hlines, hlines', hsame], by rw [hended, hended', hend], ?_, ?_, _, _, htailer,
    htailer', ?_, ?_, hrest⟩
  · rw [fs_take, fs_take, hfs]
  · rw [now_take, now_take, hnow]
  · rw [now_take]
    exact ha.queue _
  · rw [now_take]
    exact ha'.queue _

theorem receive (h : s.Alike s') (max : Option Nat) :
    (s.receive 0 max).1 = (s'.receive 0 max).1 ∧ (s.receive 0 max).2.1 = (s'.receive 0 max).2.1 ∧
      (s.receive 0 max).2.2.Alike (s'.receive 0 max).2.2 := by
  obtain ⟨hlines, hended, hrest⟩ := h.take max
  exact ⟨hlines, hended, hrest.pass 1⟩

theorem drainWithin (rounds : Nat) (taken : List Line) (h : s.Alike s') :
    (drainWithin 0 rounds taken s).1 = (drainWithin 0 rounds taken s').1 ∧
      (drainWithin 0 rounds taken s).2.2.Alike (drainWithin 0 rounds taken s').2.2 := by
  induction rounds generalizing s s' taken with
  | zero => exact ⟨rfl, h⟩
  | succ rounds ih =>
    obtain ⟨hlines, hended, hrest⟩ := h.receive none
    unfold Scenario.drainWithin
    dsimp only
    rw [hlines, hended]
    split_ifs
    · exact ⟨rfl, hrest⟩
    · exact ih _ hrest

theorem drain (h : s.Alike s') :
    (s.drain 0).1 = (s'.drain 0).1 ∧ (s.drain 0).2.2.Alike (s'.drain 0).2.2 := by
  have hrounds : s.rounds 0 = s'.rounds 0 := by
    obtain ⟨hfs, -, t, t', ht, ht', -, -, halike⟩ := h
    unfold rounds
    rw [hfs, ht, ht']
    simp only [Option.elim_some, halike.backlog, halike.queue]
  unfold Scenario.drain
  rw [hrounds]
  exact h.drainWithin _ []

theorem answer (h : s.Alike s') (step : Step) :
    (s.answer step).1 = (s'.answer step).1 ∧ (s.answer step).2.Alike (s'.answer step).2 := by
  cases step with
  | edit change => exact ⟨rfl, h.edit change⟩
  | tick seconds => exact ⟨rfl, h.pass _⟩
  | receive max =>
    obtain ⟨hlines, -, hrest⟩ := h.receive max
    exact ⟨hlines, hrest⟩
  | drain => exact h.drain

end Alike

/-- Without events every step of a script returns the same lines, whichever way the tailer
watches. -/
theorem answers_alike (h : s.Alike s') (steps : List Step) :
    s.answers steps = s'.answers steps := by
  induction steps generalizing s s' with
  | nil => rfl
  | cons step steps ih =>
    obtain ⟨hlines, hrest⟩ := h.answer step
    unfold answers
    rw [hlines, ih hrest]

end Scenario

end LogFollower
