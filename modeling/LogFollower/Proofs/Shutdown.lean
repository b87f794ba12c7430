import LogFollower.Lifecycle

/-!
# Shutting down

The owner of a task asks it to stop, stops it and lets time pass, in any order and as often as it
likes. What it is told comes from two places: from the task as long as it can be joined, and from
the fact that it was joined after that. `Lifecycle.Sound` ties the two to the job: a task that can
still be joined is as far as its job can be, and one that was joined was asked to stop. So nothing
that was seen is taken back, and the first stop alone tells whether the job broke down
(`shuts_down`).
-/

namespace LogFollower

/-- Where a job can be. -/
def Progress.Fits (job : Job) : Progress → Prop
  | .fresh => True
  | .waiting => job = .waits
  | .asleep _ => ∃ ms, job = .sleeps ms
  | .finished broken => broken = true ↔ job = .breaksDown

namespace Progress

variable {job : Job} {p : Progress}

theorem fits_begin (job : Job) (now : Nat) : (job.begin now).Fits job := by
  cases job <;> simp [Job.begin, Fits]

theorem Fits.run (h : p.Fits job) (now : Nat) (stopRequested : Bool) :
    (p.run job now stopRequested).Fits job := by
  have hbegun : (if p = fresh then job.begin now else p).Fits job := by
    split
    · exact fits_begin job now
    · exact h
  unfold Progress.run
  generalize (if p = fresh then job.begin now else p) = q at hbegun
  cases q with
  | fresh => exact hbegun
  | finished broken => exact hbegun
  | waiting =>
    show (if stopRequested then finished false else waiting).Fits job
    split
    · simp [Fits, show job = .waits from hbegun]
    · exact hbegun
  | asleep due =>
    show (if due ≤ now then finished false else asleep due).Fits job
    split
    · obtain ⟨ms, rfl⟩ := hbegun
      simp [Fits]
    · exact hbegun

theorem run_finished (job : Job) (now : Nat) (stopRequested broken : Bool) :
    (finished broken).run job now stopRequested = finished broken := rfl

theorem ended_run (h : p.ended = true) (now : Nat) (stopRequested : Bool) :
    (p.run job now stopRequested).ended = true := by
  cases p with
  | finished broken => rfl
  | _ => exact absurd h Bool.false_ne_true

theorem run_eq_broken_iff (h : p.Fits job) (now : Nat) :
    p.run job now true = finished true ↔ job = .breaksDown := by
  constructor
  · intro hrun
    have hfits := h.run now true
    rw [hrun] at hfits
    exact hfits.1 rfl
  · rintro rfl
    cases p with
    | fresh => rfl
    | waiting => cases h
    | asleep due => exact absurd h (by simp [Fits])
    | finished broken => rw [run_finished, h.2 rfl]

end Progress

namespace Lifecycle

inductive Act
  | requestStop
  | stop
  | pass (ms : Nat)
  deriving DecidableEq, Repr

/-- What a stop answers, and the task after an act. -/
def act (l : Lifecycle) : Act → Option (Except TailError Unit) × Lifecycle
  | .requestStop => (none, l.requestStop)
  | .stop => (some l.stop.1, l.stop.2)
  | .pass ms => (none, l.pass ms)

/-- Acts one after another: what the stops among them answer, and the task after them. -/
def acts (l : Lifecycle) : List Act → List (Except TailError Unit) × Lifecycle
  | [] => ([], l)
  | a :: more => ((l.act a).1.toList ++ ((l.act a).2.acts more).1, ((l.act a).2.acts more).2)

variable {l : Lifecycle}

theorem acts_cons (l : Lifecycle) (a : Act) (more : List Act) :
    l.acts (a :: more) =
      ((l.act a).1.toList ++ ((l.act a).2.acts more).1, ((l.act a).2.acts more).2) := rfl

/-! ## Stops -/

@[simp] theorem job_stop (l : Lifecycle) : l.stop.2.job = l.job := by
  unfold stop
  split
  · rfl
  · split <;> rfl

@[simp] theorem stopRequested_stop (l : Lifecycle) : l.stop.2.stopRequested = true := by
  unfold stop
  split
  · rfl
  · split <;> rfl

/-- A task that was joined answers at once, and nothing changes. -/
theorem stop_joined (ht : l.task = none) (hs : l.stopRequested = true) : l.stop = (.ok (), l) := by
  have hasked : l.requestStop = l := by rw [requestStop, ← hs]
  unfold stop
  rw [ht]
  exact congrArg (Prod.mk _) hasked

theorem stop_of_finished {p : Progress} {broken : Bool} (ht : l.task = some p)
    (h : p.run l.job l.now true = .finished broken) :
    l.stop = (if broken then .error .taskFailed else .ok (),
      { l with task := none, stopRequested := true }) := by
  unfold stop
  simp only [ht, h]
  cases broken <;> rfl

theorem stop_answer {p : Progress} (ht : l.task = some p) (hp : p.Fits l.job) :
    l.stop.1 = if l.job = .breaksDown then .error .taskFailed else .ok () := by
  have hbroken := Progress.run_eq_broken_iff hp l.now
  unfold stop
  simp only [ht]
  split
  · next h => rw [if_pos (hbroken.1 h)]
  · next h => rw [if_neg fun hjob => by rw [hbroken.2 hjob] at h; cases h]
  · next h _ => rw [if_neg fun hjob => h (hbroken.2 hjob)]

/-! ## What acts keep -/

/-- A task that can be joined is where its job can be, and one that was joined was asked to stop. -/
structure Sound (l : Lifecycle) : Prop where
  fits : ∀ p, l.task = some p → p.Fits l.job
  joined : l.task = none → l.stopRequested = true

theorem sound_spawn (job : Job) : (spawn job).Sound where
  fits := by
    rintro _ ⟨⟩
    trivial
  joined := nofun

theorem job_act (l : Lifecycle) (a : Act) : (l.act a).2.job = l.job := by
  cases a with
  | requestStop => rfl
  | stop => exact job_stop l
  | pass ms => rfl

theorem Sound.act (h : l.Sound) (a : Act) : (l.act a).2.Sound := by
  cases a with
  | requestStop => exact ⟨h.fits, fun _ => rfl⟩
  | stop =>
    have htask : l.stop.2.task = none := task_stop l
    refine ⟨fun p hp => ?_, fun _ => stopRequested_stop l⟩
    have hnone : (none : Option Progress) = some p := htask.symm.trans hp
    cases hnone
  | pass ms =>
    refine ⟨fun p hp => ?_, fun hnone => h.joined (Option.map_eq_none_iff.1 hnone)⟩
    obtain ⟨q, hq, rfl⟩ := Option.map_eq_some_iff.1 hp
    exact ((h.fits q hq).run _ _).run _ _

theorem stopRequested_act (h : l.stopRequested = true) (a : Act) :
    (l.act a).2.stopRequested = true := by
  cases a with
  | requestStop => rfl
  | stop => exact stopRequested_stop l
  | pass ms => exact h

theorem task_act (h : l.task = none) (a : Act) : (l.act a).2.task = none := by
  cases a with
  | requestStop => exact h
  | stop => exact task_stop l
  | pass ms => exact Option.map_eq_none_iff.2 h

theorem finished_of_joined (h : l.task = none) : l.finished = true := by
  unfold finished
  rw [h]
  rfl

theorem finished_act (h : l.finished = true) (a : Act) : (l.act a).2.finished = true := by
  cases a with
  | requestStop => exact h
  | stop => exact finished_of_joined (task_stop l)
  | pass ms =>
    unfold finished at h
    cases ht : l.task with
    | none => exact finished_of_joined (Option.map_eq_none_iff.2 ht)
    | some p =>
      rw [ht] at h
      have hended : p.ended = true := h
      unfold Lifecycle.act pass finished
      rw [ht]
      exact Progress.ended_run (Progress.ended_run hended _ _) _ _

theorem acts_keep {P : Lifecycle → Prop} (hact : ∀ (l : Lifecycle) a, P l → P (l.act a).2) (h : P l)
    (done : List Act) : P (l.acts done).2 := by
  induction done generalizing l with
  | nil => exact h
  | cons a done ih => exact ih (hact l a h)

theorem Sound.acts (h : l.Sound) (done : List Act) : (l.acts done).2.Sound :=
  acts_keep (P := Sound) (fun _ a h => h.act a) h done

theorem stopRequested_acts (h : l.stopRequested = true) (done : List Act) :
    (l.acts done).2.stopRequested = true :=
  acts_keep (P := fun l => l.stopRequested = true) (fun _ a h => stopRequested_act h a) h done

theorem task_acts (h : l.task = none) (done : List Act) : (l.acts done).2.task = none :=
  acts_keep (P := fun l => l.task = none) (fun _ a h => task_act h a) h done

theorem finished_acts (h : l.finished = true) (done : List Act) :
    (l.acts done).2.finished = true :=
  acts_keep (P := fun l => l.finished = true) (fun _ a h => finished_act h a) h done

/-! ## Answers -/

theorem answers_joined (h : l.Sound) (ht : l.task = none) (done : List Act) :
    ∀ answer ∈ (l.acts done).1, answer = .ok () := by
  induction done generalizing l with
  | nil => simp [acts]
  | cons a done ih =>
    intro answer hanswer
    rw [acts_cons] at hanswer
    rcases List.mem_append.1 hanswer with hfirst | hlater
    · cases a with
      | requestStop => cases hfirst
      | stop =>
        have hstop : l.stop.1 = .ok () := by rw [stop_joined ht (h.joined ht)]
        exact (List.mem_singleton.1 hfirst).trans hstop
      | pass ms => cases hfirst
    · exact ih (h.act a) (task_act ht a) answer hlater

/-- The first stop alone tells whether the job broke down: before it there are no answers and
the task can be joined, and behind it all answers are good and the task was joined. -/
theorem answers_cases (h : l.Sound) {p : Progress} (hp : l.task = some p) (done : List Act) :
    ((l.acts done).1 = [] ∧ (l.acts done).2.task ≠ none) ∨
    ∃ later, (l.acts done).1 =
        (if l.job = .breaksDown then .error .taskFailed else .ok ()) :: later ∧
      (∀ answer ∈ later, answer = .ok ()) ∧ (l.acts done).2.task = none := by
  induction done generalizing l p with
  | nil => exact .inl ⟨rfl, by rw [acts, hp]; exact nofun⟩
  | cons a done ih =>
    rw [acts_cons, ← job_act l a]
    cases a with
    | requestStop => exact ih (h.act .requestStop) hp
    | stop =>
      refine .inr ⟨(l.stop.2.acts done).1, ?_, ?_, task_acts (task_stop l) done⟩
      · rw [job_act]
        exact congrArg (· :: (l.stop.2.acts done).1) (stop_answer hp (h.fits p hp))
      · exact answers_joined (h.act .stop) (task_stop l) done
    | pass ms => exact ih (h.act (.pass ms)) (congrArg (Option.map _) hp)

/-- How a task is shut down, whatever its job is and whatever its owner did. A stop request stays
and so does the end of the task; after a stop both are seen, and after a drop the request. The first
stop answers with an error if and only if the job breaks down. Every later one answers well and at
once: neither the task nor the clock moves. -/
theorem shuts_down (job : Job) (done : List Act) :
    let l := ((spawn job).acts done).2
    let answers := ((spawn job).acts done).1
    (∀ more, l.stopRequested = true → (l.acts more).2.stopRequested = true) ∧
    (∀ more, l.finished = true → (l.acts more).2.finished = true) ∧
    l.requestStop.stopRequested = true ∧
    (l.stop.2.stopRequested = true ∧ l.stop.2.finished = true) ∧
    l.drop.stopRequested = true ∧
    (∀ first later, answers = first :: later →
      (first = .error .taskFailed ↔ job = .breaksDown) ∧
      (first = .ok () ↔ job ≠ .breaksDown) ∧
      (∀ answer ∈ later, answer = .ok ()) ∧
      l.stop = (.ok (), l)) := by
  intro l answers
  have hsound : l.Sound := (sound_spawn job).acts done
  refine ⟨fun more h => stopRequested_acts h more, fun more h => finished_acts h more, rfl,
    ⟨stopRequested_stop l, finished_of_joined (task_stop l)⟩, rfl, fun first later heq => ?_⟩
  rcases answers_cases (sound_spawn job) rfl done with ⟨hnil, -⟩ | ⟨rest, hcons, hlater, hjoined⟩
  · exact absurd (heq.symm.trans hnil) (List.cons_ne_nil _ _)
  · obtain ⟨rfl, rfl⟩ := List.cons_eq_cons.1 (heq.symm.trans hcons)
    have hjob : (spawn job).job = job := rfl
    rw [hjob]
    refine ⟨?_, ?_, hlater, stop_joined hjoined (hsound.joined hjoined)⟩
    · by_cases hb : job = .breaksDown <;> simp [hb]
    · by_cases hb : job = .breaksDown <;> simp [hb]

theorem shuts_down_broken :
    let done : List Act := [.pass 5, .requestStop, .stop, .pass 1000, .stop]
    ((spawn .breaksDown).acts done).1 = [.error .taskFailed, .ok ()] ∧
      ((spawn .breaksDown).acts done).2.stop = (.ok (), ⟨.breaksDown, none, true, 1005⟩) := by
  intro done
  obtain ⟨-, -, -, -, -, hanswers⟩ := shuts_down .breaksDown done
  have hall : ((spawn .breaksDown).acts done).1 = [.error .taskFailed, .ok ()] := rfl
  exact ⟨hall, (hanswers _ _ hall).2.2.2⟩

end Lifecycle
end LogFollower
