import LogFollower.Proofs.Forever
import LogFollower.Proofs.Stopping.Prompt
import LogFollower.Proofs.Watching.Schedule

/-!
# Progress in no time

While the files and the clock stand still, an engine cannot go round in circles: `Tailer.debt` bounds
the steps that it takes until nothing is left but to wait. It is made of the effort to the next rest,
of that after a sleep that is over, and of as much for every event that can still wake the engine. An
event can only wake an engine that waits, and it is used up then.

`rests_in_no_time` says so of every world that can be reached, whatever the path leads to and
wherever the handle stands.
-/

namespace LogFollower

namespace Watcher

variable {fs : FileSystem} {p : Path} {config : Config}

def pending : Watcher → Nat
  | polling _ => 0
  | notified _ _ queue => queue.length

theorem pending_start : (start fs p config).pending = 0 := by
  unfold start
  split_ifs <;> rfl

theorem pending_attach (watcher : Watcher) : (watcher.attach fs p).pending = watcher.pending := by
  cases watcher <;> rfl

theorem pending_forget (watcher : Watcher) : watcher.forget.pending = 0 := by
  cases watcher <;> rfl

theorem pending_deliver (event : Event) (watcher : Watcher) :
    (watcher.deliver event).pending ≤ watcher.pending + 1 := by
  cases watcher with
  | polling interval => exact Nat.zero_le _
  | notified name onFile queue => exact List.length_append.le

theorem pending_awaken {watcher woken : Watcher} (h : watcher.awaken = some woken) :
    woken.pending < watcher.pending := by
  cases watcher with
  | polling interval => cases h
  | notified name onFile queue =>
    unfold awaken at h
    have hle := (List.dropWhile_sublist (l := queue) (!·.concerns name)).length_le
    cases hq : queue.dropWhile (!·.concerns name) with
    | nil => simp [hq] at h
    | cons event rest =>
      simp only [hq, Option.some.injEq] at h
      rw [hq, List.length_cons] at hle
      subst h
      exact hle

theorem interval_pos_start (h : 0 < config.pollInterval) : 0 < (start fs p config).interval := by
  unfold start
  split_ifs
  · exact h
  · exact Nat.succ_pos _

end Watcher

namespace Tailer

open Engine

variable {fs : FileSystem} {now : Nat} {t t' : Tailer}

/-- A sound tailer that waits for the next file only if it follows, and takes its time. -/
structure Lively (t : Tailer) : Prop where
  sound : t.Sound
  persists : t.engine.Persists
  interval : 0 < t.engine.watcher.interval

theorem Lively.turn (h : t.Lively) (ht : Turn fs now t t') : t'.Lively where
  sound := h.sound.turn ht
  persists := ht.persists h.persists
  interval := by
    have hpoll := h.sound.pollInterval_pos
    cases ht with
    | wake _ why =>
      obtain ⟨-, rfl⟩ | ⟨-, hwake⟩ := why
      · exact h.interval
      · exact h.interval.trans_eq (Watcher.interval_awaken hwake).symm
    | pass _ hp =>
      cases hp with
      | arm => exact Watcher.interval_pos_start hpoll
      | found => exact h.interval.trans_eq (Watcher.interval_attach fs _ _).symm
      | clear => exact h.interval.trans_eq (Watcher.interval_forget _).symm
      | _ => exact h.interval
    | «open» => exact Watcher.interval_pos_start hpoll
    | _ => exact h.interval

theorem lively_start {path : Path} {config : Config} (h : start fs path config = .ok t) :
    t.Lively := by
  refine ⟨sound_start h, persists_start h, ?_⟩
  have hpoll := (sound_start h).pollInterval_pos
  obtain ⟨-, ⟨n, offset, -, -, rfl⟩ | ⟨f, -, -, -, rfl⟩⟩ := start_cases h <;>
    exact Watcher.interval_pos_start hpoll

theorem Turn.pending_le (h : Turn fs now t t') :
    t'.engine.watcher.pending ≤ t.engine.watcher.pending := by
  cases h with
  | wake _ why =>
    obtain ⟨-, rfl⟩ | ⟨-, hwake⟩ := why
    · exact le_rfl
    · exact (Watcher.pending_awaken hwake).le
  | pass _ hp =>
    cases hp with
    | arm => exact Watcher.pending_start.trans_le (Nat.zero_le _)
    | found => exact (Watcher.pending_attach _).le
    | clear => exact (Watcher.pending_forget _).trans_le (Nat.zero_le _)
    | _ => exact le_rfl
  | «open» => exact Watcher.pending_start.trans_le (Nat.zero_le _)
  | _ => exact le_rfl

theorem Lively.lt_due (h : t.Lively) (hb : t.blocked now = false) {due : Nat} {watching : Bool}
    {next : Stage} (hp : (t.step fs now).engine.phase = .asleep due watching next) :
    now < due := by
  have hturn := turn_step h.sound.fits fs now
  generalize t.step fs now = t' at hp hturn
  cases hturn with
  | idle hb' => rw [hb] at hb'; cases hb'
  | rest =>
    cases hp
    exact Nat.lt_add_of_pos_right h.sound.pollInterval_pos
  | wait =>
    cases hp
    exact Nat.lt_add_of_pos_right h.interval
  | _ => cases hp

/-! ## What is owed -/

/-- As many steps as there are at most on the way from any stage to a rest. -/
def lap (fs : FileSystem) : Nat := 6 * fs.size + 40

theorem toil_lt_lap (fs : FileSystem) (e : Engine) (stage : Stage) : e.toil fs stage < lap fs := by
  have := toil_le fs e stage
  unfold lap
  omega

/-- How many steps there are at most from a sleep that is over to the next rest. -/
def overdue (fs : FileSystem) (now : Nat) (t : Tailer) : Nat :=
  match t.engine.phase with
  | .asleep due _ next => if due ≤ now then t.engine.toil fs next else 0
  | _ => 0

/-- How many steps there are at most until the engine waits. -/
def arrears (fs : FileSystem) (now : Nat) (t : Tailer) : Nat := t.engine.effort fs + t.overdue fs now

/-- How many steps there are at most until nothing can be done. -/
def debt (fs : FileSystem) (now : Nat) (t : Tailer) : Nat :=
  t.arrears fs now + t.engine.watcher.pending * lap fs

theorem overdue_asleep {due : Nat} {watching : Bool} {next : Stage}
    (hp : t.engine.phase = .asleep due watching next) :
    t.overdue fs now = if due ≤ now then t.engine.toil fs next else 0 := by
  unfold overdue
  rw [hp]

theorem overdue_awake (h : ∀ due watching next, t.engine.phase ≠ .asleep due watching next) :
    t.overdue fs now = 0 := by
  unfold overdue
  split
  · next hp => exact absurd hp (h _ _ _)
  · rfl

theorem Lively.overdue_step (h : t.Lively) (hb : t.blocked now = false) :
    (t.step fs now).overdue fs now = 0 := by
  by_cases hp : ∃ due watching next, (t.step fs now).engine.phase = .asleep due watching next
  · obtain ⟨due, watching, next, hp⟩ := hp
    rw [overdue_asleep hp, if_neg (h.lt_due hb hp).not_ge]
  · exact overdue_awake fun due watching next hp' => hp ⟨due, watching, next, hp'⟩

theorem effort_asleep {due : Nat} {watching : Bool} {next : Stage}
    (hp : t.engine.phase = .asleep due watching next) : t.engine.effort fs = 1 := by
  unfold Engine.effort
  rw [hp]

/-- A step of an engine that sleeps ends its task, or wakes it: its time has come, or an event has,
and that is used up. -/
theorem Lively.step_asleep (h : t.Lively) (fs : FileSystem) (hb : t.blocked now = false)
    {due : Nat} {watching : Bool} {next : Stage} (hp : t.engine.phase = .asleep due watching next) :
    (t.step fs now).engine.effort fs = 0 ∨
      (t.step fs now).engine.effort fs = t.engine.toil fs next ∧
        (due ≤ now ∨ (t.step fs now).engine.watcher.pending < t.engine.watcher.pending) := by
  have hturn := turn_step h.sound.fits fs now
  generalize t.step fs now = t' at hturn
  cases hturn with
  | idle hb' => rw [hb] at hb'; cases hb'
  | quit => exact .inl rfl
  | wake hp' why =>
    obtain ⟨rfl, rfl, rfl⟩ := Phase.asleep.inj (hp.symm.trans hp')
    exact .inr ⟨rfl, why.imp And.left fun ⟨_, hwake⟩ => Watcher.pending_awaken hwake⟩
  | hand hp' | rest hp' | resume hp' => cases hp.symm.trans hp'
  | pass hw | fail hw | wait hw | «open» hw | rewind hw | read hw | flush hw | leave hw | last hw
  | finish hw => cases hp.symm.trans hw.1

/-- An advance leaves less to do before the engine waits, unless the engine waited and an event
woke it. -/
theorem Lively.arrears_step (h : t.Lively) (fs : FileSystem) (hb : t.blocked now = false) :
    (t.step fs now).arrears fs now < t.arrears fs now ∨
      (∃ due watching next, t.engine.phase = .asleep due watching next ∧ now < due) ∧
        (t.step fs now).arrears fs now < lap fs ∧
        (t.step fs now).engine.watcher.pending < t.engine.watcher.pending := by
  unfold arrears
  rw [h.overdue_step hb, Nat.add_zero]
  by_cases hp : ∃ due watching next, t.engine.phase = .asleep due watching next
  · obtain ⟨due, watching, next, hp⟩ := hp
    rw [effort_asleep hp, overdue_asleep hp]
    obtain heff | ⟨heff, hwhy⟩ := h.step_asleep fs hb hp
    · exact .inl (by omega)
    · by_cases hdue : due ≤ now
      · rw [heff, if_pos hdue]
        exact .inl (Nat.lt_add_of_pos_left Nat.one_pos)
      · have := toil_lt_lap fs t.engine next
        exact .inr ⟨⟨due, watching, next, hp, by omega⟩, by omega, hwhy.resolve_left hdue⟩
  · have hawake : ∀ due watching next, t.engine.phase ≠ .asleep due watching next :=
      fun due watching next h => hp ⟨due, watching, next, h⟩
    have hturn := turn_step h.sound.fits fs now
    have hlt := (hturn.effort h.sound h.persists hawake).resolve_left (by rw [hb]; exact nofun)
    exact .inl (Nat.lt_of_lt_of_le hlt (Nat.le_add_right _ _))

theorem Lively.debt_step (h : t.Lively) (hb : t.blocked now = false) :
    (t.step fs now).debt fs now < t.debt fs now := by
  have hle := (turn_step h.sound.fits fs now).pending_le
  unfold debt
  obtain hlt | ⟨⟨due, watching, next, hp, -⟩, harrears, hpending⟩ := h.arrears_step fs hb
  · have := Nat.mul_le_mul_right (lap fs) hle
    omega
  · have hused := Nat.mul_le_mul_right (lap fs) hpending
    have hone : 1 ≤ t.arrears fs now := (effort_asleep hp).ge.trans (Nat.le_add_right _ _)
    rw [Nat.succ_mul] at hused
    omega

theorem debt_le (fs : FileSystem) (now : Nat) (t : Tailer) :
    t.debt fs now ≤ t.backlog + lap fs * (t.engine.watcher.pending + 2) := by
  have heffort : t.engine.effort fs ≤ t.backlog + lap fs := by
    have := effort_le_backlog fs t
    unfold lap
    omega
  have hoverdue : t.overdue fs now ≤ lap fs := by
    unfold overdue
    split
    · split_ifs
      · exact (toil_lt_lap fs _ _).le
      · exact Nat.zero_le _
    · exact Nat.zero_le _
  have hlap : lap fs * (t.engine.watcher.pending + 2) =
      t.engine.watcher.pending * lap fs + 2 * lap fs := by ring
  unfold debt arrears
  omega

end Tailer

namespace World

variable {w v : World} {m : Move} {σ : Nat → Move} {k : Nat}

/-- The moves that change no file and take no time. -/
def Instant : Move → Prop
  | .edit _ => False
  | .wait _ => False
  | _ => True

def notifies : Move → Bool
  | .notify _ => true
  | _ => false

/-- How many steps the engine takes that it is not held up from. -/
def steps (w : World) : List Move → Nat
  | [] => 0
  | m :: moves => (if w.advances m then 1 else 0) + (w.move m).steps moves

/-- The engine has ended, or it sleeps until a time that has not come. -/
def Waits (w : World) : Prop :=
  w.tailer.ended = true ∨
    ∃ due watching next, w.tailer.engine.phase = .asleep due watching next ∧ w.now < due

theorem Reaches.lively (h : w.Reaches anyMove v) (hw : w.tailer.Lively) : v.tailer.Lively := by
  refine h.invariant (motive := fun u => u.tailer.Lively) hw ?_
  rintro u m hu -
  cases m with
  | work => exact hu.turn (Tailer.turn_step hu.sound.fits u.fs u.now)
  | edit | wait => exact hu
  | notify event =>
    exact ⟨{ hu.sound with }, hu.persists,
      hu.interval.trans_eq (Watcher.interval_deliver event _).symm⟩
  | receive | stop | cleanup => exact ⟨{ hu.sound with }, hu.persists, hu.interval⟩

theorem fs_move (hm : Instant m) : (w.move m).fs = w.fs := by
  cases m with
  | edit | wait => exact hm.elim
  | _ => rfl

def debt (w : World) : Nat := w.tailer.debt w.fs w.now

/-- An instant move adds nothing to what is owed but for an event, and an advance takes from
it. -/
theorem debt_move (hw : w.tailer.Lively) (hm : Instant m) :
    (if w.advances m then 1 else 0) + (w.move m).debt ≤
      w.debt + if notifies m then Tailer.lap w.fs else 0 := by
  cases m with
  | edit | wait => exact hm.elim
  | work =>
    cases hb : w.tailer.blocked w.now with
    | true =>
      have : (w.move .work).debt = w.debt := by
        unfold debt
        rw [tailer_work_of_blocked hb]
        rfl
      simp [advances, hb, this, notifies]
    | false =>
      have hlt : (w.move .work).debt < w.debt := hw.debt_step hb
      simp only [advances, hb, notifies]
      simp
      omega
  | notify event =>
    have hmul := Nat.mul_le_mul_right (Tailer.lap w.fs)
      (Watcher.pending_deliver event w.tailer.engine.watcher)
    rw [Nat.add_mul, Nat.one_mul] at hmul
    have hdebt : (w.move (.notify event)).debt ≤ w.debt + Tailer.lap w.fs :=
      (Nat.add_le_add_left hmul _).trans (Nat.add_assoc _ _ _).ge
    simpa [advances, notifies] using hdebt
  | receive | stop | cleanup => exact (Nat.zero_add _).le

theorem lively_moment (hw : w.tailer.Lively) (i : Nat) : (w.moment σ i).tailer.Lively :=
  (reaches_moment (fun _ => trivial) i : w.Reaches anyMove _).lively hw

/-- Instant moves come with so many steps at most. -/
theorem steps_le (hw : w.tailer.Lively) {moves : List Move} (hm : ∀ m ∈ moves, Instant m) :
    w.steps moves ≤ w.debt + Tailer.lap w.fs * moves.countP notifies := by
  induction moves generalizing w with
  | nil => exact Nat.zero_le _
  | cons m moves ih =>
    obtain ⟨hm, hmoves⟩ := List.forall_mem_cons.1 hm
    have hmove := debt_move hw hm
    have hreach : w.Reaches anyMove (w.move m) := .move .here trivial
    have hmore := ih (hreach.lively hw) hmoves
    rw [fs_move hm] at hmore
    rw [steps, List.countP_cons, Nat.mul_add]
    split_ifs at hmove ⊢ <;> omega

def arrears (w : World) : Nat := w.tailer.arrears w.fs w.now

theorem arrears_move (hm : Instant m) (hadv : w.advances m = false) :
    (w.move m).arrears = w.arrears := by
  cases m with
  | edit | wait => exact hm.elim
  | work =>
    have htailer := tailer_work_of_blocked (blocked_of_not_advances hadv)
    unfold arrears
    rw [htailer]
    rfl
  | notify | receive | stop | cleanup => rfl

theorem arrears_advance (hw : w.tailer.Lively) (hwait : ¬w.Waits) (hadv : w.advances m = true) :
    (w.move m).arrears < w.arrears := by
  cases m with
  | work =>
    have hb : w.tailer.blocked w.now = false := by simpa [advances] using hadv
    exact (hw.arrears_step w.fs hb).resolve_right fun h => hwait (.inr h.1)
  | _ => cases hadv

theorem Rests.waits (h : w.Rests) : w.Waits := by
  obtain ⟨hb, hend | ⟨due, watching, next, hp⟩⟩ := h
  · exact .inl hend
  · refine .inr ⟨due, watching, next, hp, ?_⟩
    unfold Tailer.blocked at hb
    simp only [hp, Bool.and_eq_true, decide_eq_true_eq] at hb
    exact hb.1.2

/-- The engine comes to wait again and again, however many events come. -/
theorem exists_waits (hw : w.tailer.Lively) (hm : ∀ i, Instant (σ i)) (hs : Serves σ) (k : Nat) :
    ∃ i, k ≤ i ∧ (w.moment σ i).Waits := by
  by_contra hnever
  have hwait (i : Nat) (hi : k ≤ i) : ¬(w.moment σ i).Waits := fun h => hnever ⟨i, hi, h⟩
  have hlt (i : Nat) (hi : k ≤ i) (hadv : (w.moment σ i).advances (σ i) = true) :
      (w.moment σ (i + 1)).arrears < (w.moment σ i).arrears :=
    arrears_advance (lively_moment hw i) (hwait i hi) hadv
  have hle (i : Nat) (hi : k ≤ i) : (w.moment σ (i + 1)).arrears ≤ (w.moment σ i).arrears := by
    cases hadv : (w.moment σ i).advances (σ i) with
    | true => exact (hlt i hi hadv).le
    | false => exact (arrears_move (hm i) hadv).le
  obtain ⟨j, hj, hno⟩ := exists_no_advance arrears hle hlt
  have hrests := rests_of_no_advance hno hs (lively_moment hw j).sound.capacity le_rfl
  exact hwait j hj hrests.waits

/-- The engine rests for good when no more events come. -/
theorem exists_rests (hw : w.tailer.Lively) (hm : ∀ i, Instant (σ i)) (hs : Serves σ)
    (hn : ∀ i, k ≤ i → notifies (σ i) = false) :
    ∃ j, k ≤ j ∧ ∀ i, j ≤ i → (w.moment σ i).Rests := by
  have hfalls (i : Nat) (hi : k ≤ i) :
      (if (w.moment σ i).advances (σ i) then 1 else 0) + (w.moment σ (i + 1)).debt ≤
        (w.moment σ i).debt := by
    have hlively : (w.moment σ i).tailer.Lively := lively_moment hw i
    have := debt_move hlively (hm i)
    rwa [hn i hi, if_neg Bool.false_ne_true, Nat.add_zero] at this
  obtain ⟨j, hj, hno⟩ := exists_no_advance (w := w) (σ := σ) (k := k) debt
    (fun i hi => (Nat.le_add_left _ _).trans (hfalls i hi)) fun i hi hadv => by
      have := hfalls i hi
      rw [if_pos hadv] at this
      omega
  exact ⟨j, hj, fun i hi =>
    rests_of_no_advance hno hs (lively_moment hw j).sound.capacity hi⟩

end World

open World

/-- **There is progress in no time.** In every world that can be reached, while the files and the
clock stand still, the engine takes only so many steps as there are bytes to read, lines to hand
over and events to look at; however many events come, it waits or has ended again and again as long
as it gets its turn and the lines are taken; and when no more come it rests, and stays so. -/
theorem rests_in_no_time {fs : FileSystem} {path : Path} {config : Config} {t : Tailer}
    {w : World} (hs : Tailer.start fs path config = .ok t)
    (hw : (World.start fs t).Reaches anyMove w) :
    (∀ moves : List Move, (∀ m ∈ moves, Instant m) →
      w.steps moves ≤ w.tailer.backlog +
        (6 * w.fs.size + 40) * (w.tailer.engine.watcher.pending + moves.countP notifies + 2)) ∧
    ∀ σ : Nat → Move, (∀ i, Instant (σ i)) → Serves σ →
      (∀ k, ∃ i, k ≤ i ∧ (w.moment σ i).Waits) ∧
      ∀ k, (∀ i, k ≤ i → notifies (σ i) = false) →
        ∃ j, k ≤ j ∧ ∀ i, j ≤ i → (w.moment σ i).Rests := by
  have hlively : w.tailer.Lively := hw.lively (Tailer.lively_start hs)
  refine ⟨fun moves hm => ?_, fun σ hm hserves =>
    ⟨exists_waits hlively hm hserves, fun k hn => exists_rests hlively hm hserves hn⟩⟩
  have hsteps := steps_le hlively hm
  have hdebt : w.debt ≤ _ := Tailer.debt_le w.fs w.now w.tailer
  have hlap : Tailer.lap w.fs * (w.tailer.engine.watcher.pending + moves.countP notifies + 2) =
      Tailer.lap w.fs * (w.tailer.engine.watcher.pending + 2) +
        Tailer.lap w.fs * moves.countP notifies := by ring
  exact hlap ▸ hsteps.trans (by omega)

namespace Sample

def notified : Tailer :=
  { tailer with engine := { tailer.engine with
      config := { config with poll := false }, watcher := .notified "a" true [] } }

theorem start_notified :
    Tailer.start files name { config with poll := false } = .ok notified := by decide +kernel

/-- The tailer waits behind the end of a file that was cut short, and two events have come, one of
them for another file. -/
def alarmed : World :=
  (((((World.start files notified).works 6).move (.edit (.truncate name 1))).move
    (.notify ⟨[other]⟩)).move (.notify ⟨[name]⟩))

def turns (i : Nat) : Move := if i % 2 = 0 then .work else .receive none

theorem serves_turns : Serves turns where
  works i := ⟨2 * i, by omega, if_pos (by omega)⟩
  takes i := ⟨2 * i + 1, by omega, none, if_neg (by omega), nofun⟩

theorem instant_turns (i : Nat) : Instant (turns i) := by
  unfold turns
  split_ifs <;> trivial

theorem notifies_turns (i : Nat) : notifies (turns i) = false := by
  unfold turns
  split_ifs <;> rfl

end Sample

theorem rests_in_no_time_shortened :
    Tailer.start Sample.files Sample.name { Sample.config with poll := false } =
        .ok Sample.notified ∧
      (World.start Sample.files Sample.notified).Reaches anyMove Sample.alarmed ∧
      Sample.alarmed.steps (List.replicate 12 .work) = 8 ∧
      (∀ moves : List Move, (∀ m ∈ moves, Instant m) →
        Sample.alarmed.steps moves ≤ Sample.alarmed.tailer.backlog +
          (6 * Sample.alarmed.fs.size + 40) *
            (Sample.alarmed.tailer.engine.watcher.pending + moves.countP notifies + 2)) ∧
      (∀ k, ∃ i, k ≤ i ∧ (Sample.alarmed.moment Sample.turns i).Waits) ∧
      ∃ j, ∀ i, j ≤ i → (Sample.alarmed.moment Sample.turns i).Rests := by
  have hreach : (World.start Sample.files Sample.notified).Reaches anyMove Sample.alarmed :=
    .move (.move (.move (reaches_works .here (fun _ => trivial) 6) trivial) trivial) trivial
  obtain ⟨hsteps, hrests⟩ := rests_in_no_time Sample.start_notified hreach
  obtain ⟨hwaits, hlast⟩ := hrests Sample.turns Sample.instant_turns Sample.serves_turns
  obtain ⟨j, -, hj⟩ := hlast 0 fun i _ => Sample.notifies_turns i
  exact ⟨Sample.start_notified, hreach, by decide +kernel, hsteps, hwaits, j, hj⟩

end LogFollower
