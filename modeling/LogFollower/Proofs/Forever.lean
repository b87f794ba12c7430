import LogFollower.Proofs.World
import Mathlib.Order.OrderIsoNat

/-!
# Runs without an end

A schedule says what happens in a world, for ever: `World.moment` is the world after the first moves
of it. It `Serves` if the engine and the consumer get their turns again and again, and it `Ages` if
time passes again and again.

A step that the engine is not held up from is an advance. What comes of the moves in which there is
no advance is the same for all of them: the engine stays where it is. So a schedule that serves and
in which the advances come to an end brings the engine to a rest (`rests_of_no_advance`), and one
that ages too brings it to its end (`ended_of_no_advance`). The advances come to an end where a rank
falls with each of them (`exists_no_advance`).
-/

namespace LogFollower

/-- A sequence of numbers that does not rise comes to a stand. -/
theorem exists_forall_eq {f : Nat → Nat} {k : Nat} (h : ∀ i, k ≤ i → f (i + 1) ≤ f i) :
    ∃ j, k ≤ j ∧ ∀ i, j ≤ i → f (i + 1) = f i := by
  let falling : Nat →o Natᵒᵈ :=
    ⟨fun i => OrderDual.toDual (f (k + i)), monotone_nat_of_le_succ fun i => h (k + i) (by omega)⟩
  obtain ⟨n, hn⟩ := WellFoundedGT.monotone_chain_condition falling
  have stands (i : Nat) (hi : k + n ≤ i) : f i = f (k + n) := by
    obtain ⟨m, rfl⟩ := Nat.exists_eq_add_of_le hi
    rw [Nat.add_assoc]
    exact (OrderDual.toDual.injective (hn (n + m) (Nat.le_add_right n m))).symm
  exact ⟨k + n, Nat.le_add_right k n, fun i hi => by rw [stands i hi, stands (i + 1) (by omega)]⟩

namespace World

/-- The world after the first moves of a schedule. -/
def moment (w : World) (σ : Nat → Move) : Nat → World
  | 0 => w
  | i + 1 => (w.moment σ i).move (σ i)

/-- The engine gets its turn again and again, and so does the consumer, who takes a line at least if
there is one. -/
structure Serves (σ : Nat → Move) : Prop where
  works : ∀ i, ∃ j, i ≤ j ∧ σ j = .work
  takes : ∀ i, ∃ j, i ≤ j ∧ ∃ max, σ j = .receive max ∧ max ≠ some 0

def Ages (σ : Nat → Move) : Prop := ∀ i, ∃ j, i ≤ j ∧ ∃ ms, σ j = .wait ms ∧ 0 < ms

/-- Whether a move is a step that the engine is not held up from. -/
def advances (w : World) : Move → Bool
  | .work => !w.tailer.blocked w.now
  | _ => false

/-- The engine has ended, or it sleeps and nothing wakes it at the moment. -/
def Rests (w : World) : Prop :=
  w.tailer.blocked w.now = true ∧
    (w.tailer.ended = true ∨ ∃ due watching next, w.tailer.engine.phase = .asleep due watching next)

variable {w : World} {m : Move} {σ : Nat → Move} {k : Nat}

theorem moment_of_work {i : Nat} (h : σ i = .work) :
    w.moment σ (i + 1) = (w.moment σ i).move .work :=
  congrArg (w.moment σ i).move h

theorem reaches_moment {allowed : World → Move → Prop}
    (h : ∀ i, allowed (w.moment σ i) (σ i)) (i : Nat) : w.Reaches allowed (w.moment σ i) := by
  induction i with
  | zero => exact .here
  | succ i ih => exact .move ih (h i)

/-! ## Moves without an advance -/

theorem tailer_work_of_blocked (h : w.tailer.blocked w.now = true) :
    (w.move .work).tailer = w.tailer := Tailer.step_eq_of_blocked h

theorem blocked_of_not_advances (h : w.advances .work = false) : w.tailer.blocked w.now = true := by
  simpa [advances] using h

theorem advances_of_ne (hm : m ≠ .work) : w.advances m = false := by
  cases m with
  | work => exact absurd rfl hm
  | _ => rfl

theorem phase_move (h : w.advances m = false) :
    (w.move m).tailer.engine.phase = w.tailer.engine.phase := by
  cases m with
  | work => rw [tailer_work_of_blocked (blocked_of_not_advances h)]
  | _ => rfl

theorem capacity_move (h : w.advances m = false) :
    (w.move m).tailer.capacity = w.tailer.capacity := by
  cases m with
  | work => rw [tailer_work_of_blocked (blocked_of_not_advances h)]
  | _ => rfl

theorem length_queue_move (h : w.advances m = false) :
    (w.move m).tailer.queue.length ≤ w.tailer.queue.length := by
  cases m with
  | work => rw [tailer_work_of_blocked (blocked_of_not_advances h)]
  | receive max =>
    show (w.tailer.queue.drop _).length ≤ _
    rw [List.length_drop]
    exact Nat.sub_le _ _
  | _ => exact le_rfl

theorem length_queue_receive {max : Option Nat} (hmax : max ≠ some 0)
    (hq : w.tailer.queue ≠ []) :
    (w.move (.receive max)).tailer.queue.length < w.tailer.queue.length := by
  have hlen := List.length_pos_of_ne_nil hq
  have hcount : 0 < max.getD (w.tailer.queue.length + 1) := by
    cases max with
    | none => exact Nat.succ_pos _
    | some n => exact Nat.pos_of_ne_zero fun e => hmax (congrArg some e)
  show (w.tailer.queue.drop _).length < _
  rw [List.length_drop]
  omega

theorem isSome_awaken_deliver {watcher : Watcher} (event : Event)
    (h : watcher.awaken.isSome = true) : (watcher.deliver event).awaken.isSome = true := by
  cases watcher with
  | polling interval => cases h
  | notified name onFile queue =>
    unfold Watcher.awaken at h
    unfold Watcher.deliver Watcher.awaken
    cases hq : queue.dropWhile (!·.concerns name) with
    | nil => simp [hq] at h
    | cons e rest => simp [List.dropWhile_append, hq]

/-- An engine that can go on can do so later, when more was asked for, taken or delivered. -/
theorem not_blocked_mono {t t' : Tailer} {now now' : Nat} (hb : t.blocked now = false)
    (hnow : now ≤ now') (hphase : t'.engine.phase = t.engine.phase)
    (hwake : t.engine.watcher.awaken.isSome = true → t'.engine.watcher.awaken.isSome = true)
    (hstop : t.stopRequested = true → t'.stopRequested = true)
    (hclosed : t.closed = true → t'.closed = true)
    (hroom : t.queue.length < t.capacity → t'.queue.length < t'.capacity) :
    t'.blocked now' = false := by
  unfold Tailer.blocked at hb ⊢
  rw [hphase]
  cases hp : t.engine.phase with
  | ended => simp [hp] at hb
  | ready stage => rfl
  | handing lines rest next =>
    cases lines with
    | nil => rfl
    | cons line lines =>
      simp only [hp, Bool.and_eq_false_iff, Bool.not_eq_false', decide_eq_false_iff_not,
        Nat.not_le] at hb ⊢
      exact hb.imp (Or.imp hstop hclosed) hroom
  | asleep due watching next =>
    simp only [hp, Bool.and_eq_false_iff, Bool.not_eq_false', decide_eq_false_iff_not,
      Nat.not_lt, Bool.and_eq_true] at hb ⊢
    exact hb.imp (Or.imp hstop fun h => h.trans hnow) (And.imp_right hwake)

theorem not_blocked_move (hb : w.tailer.blocked w.now = false) (hm : m ≠ .work) :
    (w.move m).tailer.blocked (w.move m).now = false := by
  cases m with
  | work => exact absurd rfl hm
  | edit change => exact hb
  | wait ms => exact not_blocked_mono hb (Nat.le_add_right _ _) rfl id id id id
  | notify event => exact not_blocked_mono hb le_rfl rfl (isSome_awaken_deliver event) id id id
  | receive max =>
    have hle : (w.move (.receive max)).tailer.queue.length ≤ w.tailer.queue.length :=
      length_queue_move rfl
    exact not_blocked_mono hb le_rfl rfl id id id hle.trans_lt
  | stop => exact not_blocked_mono hb le_rfl rfl id (fun _ => rfl) id id
  | cleanup => exact not_blocked_mono hb le_rfl rfl id (fun _ => rfl) (fun _ => rfl) id

theorem now_move (w : World) (m : Move) : w.now ≤ (w.move m).now := by
  cases m with
  | wait ms => exact Nat.le_add_right _ _
  | _ => exact le_rfl

theorem now_moment_mono {i j : Nat} (hij : i ≤ j) : (w.moment σ i).now ≤ (w.moment σ j).now :=
  monotone_nat_of_le_succ (fun i => now_move (w.moment σ i) (σ i)) hij

theorem exists_le_now (ha : Ages σ) (i time : Nat) : ∃ j, i ≤ j ∧ time ≤ (w.moment σ j).now := by
  induction time with
  | zero => exact ⟨i, le_rfl, Nat.zero_le _⟩
  | succ time ih =>
    obtain ⟨j, hj, hle⟩ := ih
    obtain ⟨l, hl, ms, hwait, hms⟩ := ha j
    have hnow : (w.moment σ (l + 1)).now = (w.moment σ l).now + ms := by
      show ((w.moment σ l).move (σ l)).now = _
      rw [hwait]
      rfl
    have := now_moment_mono (w := w) (σ := σ) hl
    exact ⟨l + 1, by omega, by omega⟩

/-! ## Schedules that come to a rest -/

/-- A rank that never rises and falls with every advance leaves only so many of them. -/
theorem exists_no_advance (rank : World → Nat)
    (hle : ∀ i, k ≤ i → rank (w.moment σ (i + 1)) ≤ rank (w.moment σ i))
    (hlt : ∀ i, k ≤ i → (w.moment σ i).advances (σ i) = true →
      rank (w.moment σ (i + 1)) < rank (w.moment σ i)) :
    ∃ j, k ≤ j ∧ ∀ i, j ≤ i → (w.moment σ i).advances (σ i) = false := by
  obtain ⟨j, hj, hstands⟩ := exists_forall_eq (f := fun i => rank (w.moment σ i)) hle
  refine ⟨j, hj, fun i hi => ?_⟩
  by_contra hadv
  have := hlt i (hj.trans hi) (by simpa using hadv)
  exact absurd (hstands i hi) this.ne

section NoAdvance

variable (hno : ∀ i, k ≤ i → (w.moment σ i).advances (σ i) = false)

include hno

theorem blocked_of_no_advance (hs : Serves σ) {i : Nat} (hi : k ≤ i) :
    (w.moment σ i).tailer.blocked (w.moment σ i).now = true := by
  by_contra hb
  have stays (j : Nat) (hj : i ≤ j) :
      (w.moment σ j).tailer.blocked (w.moment σ j).now = false := by
    induction j, hj using Nat.le_induction with
    | base => simpa using hb
    | succ j hj ih =>
      refine not_blocked_move ih fun hm => ?_
      have := hno j (hi.trans hj)
      rw [hm] at this
      exact absurd (blocked_of_not_advances this) (by rw [ih]; exact nofun)
  obtain ⟨j, hj, hwork⟩ := hs.works i
  have := hno j (hi.trans hj)
  rw [hwork] at this
  exact absurd (blocked_of_not_advances this) (by rw [stays j hj]; exact nofun)

theorem phase_of_no_advance {i : Nat} (hi : k ≤ i) :
    (w.moment σ i).tailer.engine.phase = (w.moment σ k).tailer.engine.phase := by
  induction i, hi using Nat.le_induction with
  | base => rfl
  | succ i hi ih => exact (phase_move (hno i hi)).trans ih

theorem queue_of_no_advance (hs : Serves σ) :
    ∃ j, k ≤ j ∧ (w.moment σ j).tailer.queue = [] := by
  obtain ⟨j, hj, hstands⟩ := exists_forall_eq (f := fun i => (w.moment σ i).tailer.queue.length)
    fun i hi => length_queue_move (hno i hi)
  obtain ⟨i, hi, max, hrec, hmax⟩ := hs.takes j
  refine ⟨i, hj.trans hi, ?_⟩
  by_contra hq
  have hlt := length_queue_receive hmax hq
  rw [← hrec] at hlt
  exact absurd (hstands i hi) hlt.ne

/-- A schedule that serves brings the engine to a rest, once there is no advance any more. -/
theorem rests_of_no_advance (hs : Serves σ) (hc : 0 < (w.moment σ k).tailer.capacity) {i : Nat}
    (hi : k ≤ i) : (w.moment σ i).Rests := by
  have hb := blocked_of_no_advance hno hs hi
  refine ⟨hb, ?_⟩
  cases hp : (w.moment σ i).tailer.engine.phase with
  | ended => exact .inl (decide_eq_true hp)
  | asleep due watching next => exact .inr ⟨due, watching, next, rfl⟩
  | ready stage => simp [Tailer.blocked, hp] at hb
  | handing lines rest next =>
    exfalso
    have hcap (j : Nat) (hj : k ≤ j) :
        (w.moment σ j).tailer.capacity = (w.moment σ k).tailer.capacity := by
      induction j, hj using Nat.le_induction with
      | base => rfl
      | succ j hj ih => exact (capacity_move (hno j hj)).trans ih
    -- a channel that is emptied has room
    obtain ⟨j, hj, hq⟩ := queue_of_no_advance hno hs
    have hbj := blocked_of_no_advance hno hs hj
    have hpj : (w.moment σ j).tailer.engine.phase = .handing lines rest next :=
      (phase_of_no_advance hno hj).trans ((phase_of_no_advance hno hi).symm.trans hp)
    unfold Tailer.blocked at hbj
    cases lines with
    | nil => simp [hpj] at hbj
    | cons line lines =>
      rw [← hcap j hj] at hc
      simp [hpj, hq, hc.ne'] at hbj

/-- A schedule that ages as well brings the engine to its end. -/
theorem ended_of_no_advance (hs : Serves σ) (ha : Ages σ)
    (hc : 0 < (w.moment σ k).tailer.capacity) :
    ∃ j, k ≤ j ∧ (w.moment σ j).tailer.ended = true ∧ (w.moment σ j).tailer.queue = [] := by
  obtain ⟨j, hj, hq⟩ := queue_of_no_advance hno hs
  refine ⟨j, hj, ?_, hq⟩
  obtain hend | ⟨due, watching, next, hp⟩ := (rests_of_no_advance hno hs hc hj).2
  · exact hend
  · exfalso
    obtain ⟨i, hi, hdue⟩ : ∃ i, j ≤ i ∧ due ≤ (w.moment σ i).now := exists_le_now ha j due
    have hb := blocked_of_no_advance hno hs (hj.trans hi)
    have hpi : (w.moment σ i).tailer.engine.phase = .asleep due watching next :=
      (phase_of_no_advance hno (hj.trans hi)).trans ((phase_of_no_advance hno hj).symm.trans hp)
    unfold Tailer.blocked at hb
    simp [hpi, Nat.not_lt.2 hdue] at hb

end NoAdvance

end World
end LogFollower
