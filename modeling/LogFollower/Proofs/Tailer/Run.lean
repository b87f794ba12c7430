import LogFollower.Proofs.Tailer.Turn

/-!
# Runs of one tailer

`settle` and `runTo` only ever take steps, so what steps keep and time does not spoil holds after
them (`settle_of`, `runTo_of`). Where a cost goes down with every step, they stop for want of
anything to do and not for want of fuel (`blocked_settle`); a run through time then ends asleep
until its end at least, or before a full channel (`rested_runTo`).
-/

namespace LogFollower.Tailer

variable {fs : FileSystem} {t : Tailer}

/-! ## What steps keep -/

/-- What steps keep and time does not spoil. -/
structure Lasting (fs : FileSystem) (P : Nat → Tailer → Prop) : Prop where
  step : ∀ now t, P now t → P now (t.step fs now)
  later : ∀ now now' t, now ≤ now' → P now t → P now' t
  wake : ∀ now t due, P now t → t.wakeTime = some due → P due t

variable {P : Nat → Tailer → Prop}

theorem Lasting.and {Q : Tailer → Prop} (hP : Lasting fs P)
    (hQ : ∀ now t, P now t → Q t → Q (t.step fs now)) :
    Lasting fs fun now t => P now t ∧ Q t where
  step := fun now t h => ⟨hP.step now t h.1, hQ now t h.1 h.2⟩
  later := fun now now' t hle h => ⟨hP.later now now' t hle h.1, h.2⟩
  wake := fun now t due h hw => ⟨hP.wake now t due h.1 hw, h.2⟩

theorem settleWithin_of (hP : Lasting fs P) {now : Nat} (fuel : Nat) (h : P now t) :
    P now (t.settleWithin fs now fuel) := by
  induction fuel generalizing t with
  | zero => exact h
  | succ fuel ih =>
    unfold settleWithin
    split_ifs
    · exact h
    · exact ih (hP.step now t h)

theorem settle_of (hP : Lasting fs P) {now : Nat} (h : P now t) : P now (t.settle fs now) :=
  settleWithin_of hP _ h

theorem runWithin_succ (target fuel now : Nat) (t : Tailer) :
    t.runWithin fs target (fuel + 1) now =
      match (t.settle fs now).wakeTime with
      | some due =>
        if due < target then (t.settle fs now).runWithin fs target fuel due else t.settle fs now
      | none => t.settle fs now := rfl

theorem runWithin_of (hP : Lasting fs P) {target : Nat} (fuel : Nat) {now : Nat}
    (hnow : now ≤ target) (h : P now t) : P target (t.runWithin fs target fuel now) := by
  induction fuel generalizing now t with
  | zero => exact hP.later now target _ hnow (settle_of hP h)
  | succ fuel ih =>
    have hs := settle_of hP h
    have hend := hP.later now target _ hnow hs
    rw [runWithin_succ]
    cases hw : (t.settle fs now).wakeTime with
    | none => exact hend
    | some due =>
      by_cases hdue : due < target
      · simp only [if_pos hdue]
        exact ih hdue.le (hP.wake now _ due hs hw)
      · simp only [if_neg hdue]
        exact hend

/-- What steps keep and time does not spoil holds after a run. -/
theorem runTo_of (hP : Lasting fs P) {now target : Nat} (hnow : now ≤ target) (h : P now t) :
    P target (t.runTo fs now target) :=
  runWithin_of hP _ hnow h

/-! ## Coming to rest -/

/-- The task goes on, and nobody asked it to stop or closed the channel. -/
structure Running (t : Tailer) : Prop where
  alive : t.engine.phase ≠ .ended
  wanted : t.stopRequested = false
  listened : t.closed = false
  /-- No event waits to be looked at. -/
  calm : t.engine.watcher.awaken = none

/-- Asleep until a time at least, or before a full channel. -/
def Rested (target : Nat) (t : Tailer) : Prop :=
  (∃ due watching next, t.engine.phase = .asleep due watching next ∧ target ≤ due) ∨
    ∃ line lines rest next, t.engine.phase = .handing (line :: lines) rest next ∧
      t.capacity ≤ t.queue.length

theorem rested_of_blocked (h : t.Running) {now : Nat} (hb : t.blocked now = true) :
    t.Rested (now + 1) := by
  unfold blocked at hb
  split at hb
  · next hp => exact absurd hp h.alive
  · cases hb
  · cases hb
  · next line lines rest next hp =>
    simp only [Bool.and_eq_true, decide_eq_true_eq] at hb
    exact .inr ⟨line, lines, rest, next, hp, hb.2⟩
  · next due watching next hp =>
    simp only [Bool.and_eq_true, decide_eq_true_eq] at hb
    exact .inl ⟨due, watching, next, hp, hb.1.2⟩

theorem Rested.mono {target target' : Nat} (h : t.Rested target) (hle : target' ≤ target) :
    t.Rested target' := by
  obtain ⟨due, watching, next, hp, hdue⟩ | hfull := h
  · exact .inl ⟨due, watching, next, hp, hle.trans hdue⟩
  · exact .inr hfull

/-- A cost that every step pays for. -/
structure Paying (fs : FileSystem) (P : Nat → Tailer → Prop) (cost : Nat → Tailer → Nat) :
    Prop where
  pays : ∀ now t, P now t → t.blocked now = false → cost now (t.step fs now) < cost now t
  afford : ∀ now t, P now t → cost now t ≤ t.patience fs

variable {cost : Nat → Tailer → Nat}

theorem blocked_settleWithin (hP : Lasting fs P) (hc : Paying fs P cost) {now : Nat} (fuel : Nat)
    (h : P now t) (hfuel : cost now t ≤ fuel) : (t.settleWithin fs now fuel).blocked now = true := by
  induction fuel generalizing t with
  | zero =>
    by_contra hb
    have := hc.pays now t h (Bool.eq_false_iff.2 hb)
    omega
  | succ fuel ih =>
    unfold settleWithin
    cases hb : t.blocked now with
    | true => exact hb
    | false =>
      have := hc.pays now t h hb
      exact ih (hP.step now t h) (by omega)

theorem blocked_settle (hP : Lasting fs P) (hc : Paying fs P cost) {now : Nat} (h : P now t) :
    (t.settle fs now).blocked now = true :=
  blocked_settleWithin hP hc _ h (hc.afford now t h)

theorem rested_runWithin (hP : Lasting fs P) (hc : Paying fs P cost)
    (hr : ∀ now t, P now t → t.Running) {target : Nat} (fuel : Nat) {now : Nat}
    (hnow : now ≤ target) (hfuel : target ≤ now + fuel) (h : P now t) :
    (t.runWithin fs target fuel now).Rested target := by
  have hs := settle_of hP h
  have hrest := rested_of_blocked (hr now _ hs) (blocked_settle hP hc h)
  induction fuel generalizing now t with
  | zero => exact hrest.mono (by omega)
  | succ fuel ih =>
    rw [runWithin_succ]
    obtain ⟨due, watching, next, hp, hdue⟩ | ⟨line, lines, rest, next, hp, hfull⟩ := hrest
    · have hw : (t.settle fs now).wakeTime = some due := by
        unfold wakeTime
        rw [hp]
      rw [hw]
      by_cases hlt : due < target
      · simp only [if_pos hlt]
        have hd := hP.wake now _ due hs hw
        have hs' := settle_of hP hd
        exact ih hlt.le (by omega) hd hs' (rested_of_blocked (hr due _ hs') (blocked_settle hP hc hd))
      · simp only [if_neg hlt]
        exact .inl ⟨due, watching, next, hp, Nat.not_lt.1 hlt⟩
    · have hw : (t.settle fs now).wakeTime = none := by
        unfold wakeTime
        rw [hp]
      rw [hw]
      exact .inr ⟨line, lines, rest, next, hp, hfull⟩

/-- A run through time comes to rest. -/
theorem rested_runTo (hP : Lasting fs P) (hc : Paying fs P cost)
    (hr : ∀ now t, P now t → t.Running) {now target : Nat} (hnow : now ≤ target) (h : P now t) :
    (t.runTo fs now target).Rested target :=
  rested_runWithin hP hc hr _ hnow (by omega) h

end LogFollower.Tailer
