import LogFollower.Tailer
import Mathlib.Tactic

/-!
# What one step does

`Turn` lists all that a step of a tailer can do, with what has to hold for it. `turn_step` says that
the list is complete for an engine that has an open file just when it needs one (`Engine.Fits`).
Every property of runs is proved along this list. Where the phase is known, the equations at the
end say what the step comes to.

Most steps only go from stage to stage (`Passes`), report an error (`Fails`) or wait for a change
(`Waits`). The steps that matter for the lines are few: a handle is placed (`Turn.open`,
`Turn.rewind`), bytes are read (`Turn.read`), the last line is given up (`Turn.flush`) and a line is
handed over (`Turn.hand`).
-/

namespace LogFollower

/-- The stage that a phase is at or goes on with. -/
def Phase.stage? : Phase → Option Stage
  | .ready stage => some stage
  | .handing _ _ next => some next
  | .asleep _ _ next => some next
  | .ended => none

theorem Phase.ne_ended {phase : Phase} {stage : Stage} (h : phase.stage? = some stage) :
    phase ≠ .ended := by
  rintro rfl
  cases h

/-- Whether a stage belongs to opening the path again. -/
def Stage.seeks : Stage → Bool
  | .arm => true
  | .look => true
  | .reopen => true
  | _ => false

/-- Whether the engine still follows a file at a stage: it has not found the file gone. -/
def Stage.attends : Stage → Bool
  | .read .catchUp => true
  | .clear => true
  | .check => true
  | _ => false

def Source.isAway : Source → Bool
  | .opened _ => false
  | .away _ => true

namespace Engine

/-- A file is open unless the path is being opened again. -/
def Fits (e : Engine) : Prop :=
  ∀ stage, e.phase.stage? = some stage → stage.seeks = e.source.isAway

variable (fs : FileSystem) (e : Engine)

/-- The steps from one stage to another that read nothing and give nothing out. -/
inductive Passes : Stage → Stage → Watcher → Prop
  | arm : Passes .arm .look (.start fs e.path e.config)
  | found {n : Nat} (h : fs.find e.path = .ok n) :
      Passes .look .reopen (e.watcher.attach fs e.path)
  | vanished {f : Fault} (h : fs.openFile e.path = .error f) (hf : f.notFound) :
      Passes .reopen .arm e.watcher
  | caughtUp {s : Session} (hs : e.source = .opened s)
      (h : fs.read s.object s.position chunkSize = .ok []) (hf : e.config.follow) :
      Passes (.read .catchUp) .clear e.watcher
  | readOut {s : Session} {goal : Goal} (hs : e.source = .opened s)
      (h : fs.read s.object s.position chunkSize = .ok [])
      (hf : goal = .catchUp → e.config.follow = false) :
      Passes (.read goal) .flush e.watcher
  | clear : Passes .clear .check e.watcher.forget
  | grown {s : Session} (hs : e.source = .opened s)
      (h : classify (fs.look e.path) s.identifier e.splitter.consumed = .ok .modified) :
      Passes .check (.read .catchUp) e.watcher
  | gone {s : Session} (hs : e.source = .opened s)
      (h : classify (fs.look e.path) s.identifier e.splitter.consumed = .ok .deleted) :
      Passes .check (.read .drain) e.watcher
  | kept (h : e.config.completeLines = true ∨ e.splitter.held = []) :
      Passes .flush .leave e.watcher
  | done (h : e.config.follow = true → e.config.reopen = false ∧ e.config.failOnDelete = false) :
      Passes .leave .finish e.watcher

/-- The errors that are met at a stage, and where the engine goes on after them. -/
inductive Fails : Stage → TailError → Stage → Prop
  | look {f : Fault} (h : fs.find e.path = .error f) (hf : f.notFound = false) :
      Fails .look (.file f) .arm
  | reopen {f : Fault} (h : fs.openFile e.path = .error f) (hf : f.notFound = false) :
      Fails .reopen (.file f) .arm
  | read {s : Session} {goal : Goal} {f : Fault} (hs : e.source = .opened s)
      (h : fs.read s.object s.position chunkSize = .error f) :
      Fails (.read goal) (.file f) goal.afterFailure
  | check {s : Session} {error : TailError} (hs : e.source = .opened s)
      (h : classify (fs.look e.path) s.identifier e.splitter.consumed = .error error) :
      Fails .check error (.read .catchUp)

/-- The stages that wait for a change, and where the engine goes on after it. -/
inductive Waits : Stage → Stage → Prop
  | missing {f : Fault} (h : fs.find e.path = .error f) (hf : f.notFound) : Waits .look .look
  | same {s : Session} (hs : e.source = .opened s)
      (h : classify (fs.look e.path) s.identifier e.splitter.consumed = .ok .none) :
      Waits .check .clear

end Engine

namespace Tailer

open Engine

variable {fs : FileSystem} {now : Nat} {t : Tailer}

/-- Whether the engine works at a stage even though it may have been asked to stop. -/
def Works (t : Tailer) (stage : Stage) : Prop :=
  t.engine.phase = .ready stage ∧ ¬ (t.stopRequested ∧ stage.observesStop)

theorem Works.stage_eq {stage : Stage} (h : t.Works stage) :
    t.engine.phase.stage? = some stage := by
  rw [h.1]
  rfl

/-- What a step can do. -/
inductive Turn (fs : FileSystem) (now : Nat) (t : Tailer) : Tailer → Prop
  | idle (h : t.blocked now) : Turn fs now t t
  | quit (h : t.stopRequested = true ∨ t.closed = true) : Turn fs now t t.quit
  | hand {line : Line} {lines : List Line} {rest : Bool} {next : Stage}
      (h : t.engine.phase = .handing (line :: lines) rest next)
      (on : ¬ (t.stopRequested ∨ t.closed)) (room : t.queue.length < t.capacity) :
      Turn fs now t { t.withPhase (.handing lines rest next) with queue := t.queue ++ [line] }
  | rest {next : Stage} (h : t.engine.phase = .handing [] true next) :
      Turn fs now t (t.withPhase (.asleep (now + t.engine.config.pollInterval) false next))
  | resume {next : Stage} (h : t.engine.phase = .handing [] false next) :
      Turn fs now t (t.withPhase (.ready next))
  | wake {due : Nat} {watching : Bool} {next : Stage} {watcher : Watcher}
      (h : t.engine.phase = .asleep due watching next)
      (why : due ≤ now ∧ watcher = t.engine.watcher ∨
        watching = true ∧ t.engine.watcher.awaken = some watcher) :
      Turn fs now t { t with engine := { t.engine with watcher, phase := .ready next } }
  | pass {stage next : Stage} {watcher : Watcher} (h : t.Works stage)
      (hp : Passes fs t.engine stage next watcher) :
      Turn fs now t { t with engine := { t.engine with watcher, phase := .ready next } }
  | fail {stage next : Stage} {error : TailError} (h : t.Works stage)
      (hf : Fails fs t.engine stage error next) :
      Turn fs now t { t with engine := t.engine.report error next }
  | wait {stage next : Stage} (h : t.Works stage) (hw : Waits fs t.engine stage next) :
      Turn fs now t { t with engine := t.engine.await now next }
  | open {n offset : Nat} (h : t.Works .reopen) (ho : fs.openFile t.engine.path = .ok n)
      (hp : offset = reopenOffset t.engine.config t.engine.stood (FileSystem.identify n)) :
      Turn fs now t { t with engine := { t.engine with
        source := .opened ⟨n, FileSystem.identify n, offset⟩
        splitter := t.engine.splitter.reset offset
        watcher := .start fs t.engine.path t.engine.config
        phase := .ready (.read .catchUp) } }
  | rewind {s : Session} (h : t.Works .check) (hs : t.engine.source = .opened s)
      (hc : classify (fs.look t.engine.path) s.identifier t.engine.splitter.consumed =
        .ok .truncated) :
      Turn fs now t { t with engine := { t.engine with
        source := .opened { s with position := 0 }
        splitter := t.engine.splitter.reset 0
        phase := .ready (.read .catchUp) } }
  | read {s : Session} {goal : Goal} {bytes : Bytes} (h : t.Works (.read goal))
      (hs : t.engine.source = .opened s)
      (hr : fs.read s.object s.position chunkSize = .ok bytes) (hb : bytes ≠ []) :
      Turn fs now t { t with engine := { t.engine with
        source := .opened { s with position := s.position + bytes.length }
        splitter := (t.engine.splitter.push bytes).2
        phase := .handing ((t.engine.splitter.push bytes).1.map (Line.ofPiece (some s.identifier)))
          false (.read goal) } }
  | flush (h : t.Works .flush) (hc : t.engine.config.completeLines = false)
      (hh : t.engine.splitter.held ≠ []) :
      Turn fs now t { t with engine := { t.engine with
        splitter := t.engine.splitter.reset t.engine.splitter.consumed
        phase := .handing [Line.ofPiece t.engine.identifier
          ⟨t.engine.splitter.pending, t.engine.splitter.consumed⟩] false .leave } }
  | leave (h : t.Works .leave) (hf : t.engine.config.follow = true)
      (hr : t.engine.config.reopen = true) :
      Turn fs now t { t with engine :=
        { t.engine with source := .away t.engine.identifier, phase := .ready .arm } }
  | last (h : t.Works .leave) (hf : t.engine.config.follow = true)
      (hr : t.engine.config.reopen = false) (hd : t.engine.config.failOnDelete = true) :
      Turn fs now t { t with engine := { t.engine with
        phase := .handing [t.engine.errorLine (.gone t.engine.path.display)] false .finish } }
  | finish (h : t.Works .finish) :
      Turn fs now t { t with engine := { t.engine with phase := .ended } }

theorem opened_of_fits {e : Engine} (hf : e.Fits) {stage : Stage}
    (h : e.phase.stage? = some stage) (hs : stage.seeks = false) : ∃ s, e.source = .opened s := by
  have := hf stage h
  rw [hs] at this
  cases he : e.source with
  | opened s => exact ⟨s, rfl⟩
  | away p => rw [he] at this; simp [Source.isAway] at this

theorem away_of_fits {e : Engine} (hf : e.Fits) {stage : Stage}
    (h : e.phase.stage? = some stage) (hs : stage.seeks = true) : ∃ p, e.source = .away p := by
  have := hf stage h
  rw [hs] at this
  cases he : e.source with
  | opened s => rw [he] at this; simp [Source.isAway] at this
  | away p => exact ⟨p, rfl⟩

theorem turn_look (h : t.Works .look) : Turn fs now t { t with engine := t.engine.look fs now } := by
  cases hf : fs.find t.engine.path with
  | ok n =>
    simp only [Engine.look, FileSystem.stat, hf]
    exact .pass h (.found hf)
  | error f =>
    cases hn : f.notFound with
    | true =>
      simp only [Engine.look, FileSystem.stat, hf, hn, if_true]
      exact .wait h (.missing hf hn)
    | false =>
      simp only [Engine.look, FileSystem.stat, hf, hn, Bool.false_eq_true, if_false]
      exact .fail h (.look hf hn)

theorem turn_reopen (h : t.Works .reopen) :
    Turn fs now t { t with engine := t.engine.reopen fs } := by
  cases ho : fs.openFile t.engine.path with
  | ok n =>
    simp only [Engine.reopen, ho]
    exact .open h ho rfl
  | error f =>
    cases hn : f.notFound with
    | true =>
      simp only [Engine.reopen, ho, hn, if_true]
      exact .pass h (.vanished ho hn)
    | false =>
      simp only [Engine.reopen, ho, hn, Bool.false_eq_true, if_false]
      exact .fail h (.reopen ho hn)

theorem turn_read {goal : Goal} (h : t.Works (.read goal)) {s : Session}
    (hs : t.engine.source = .opened s) :
    Turn fs now t { t with engine := t.engine.read fs goal } := by
  cases hr : fs.read s.object s.position chunkSize with
  | error f =>
    simp only [Engine.read, hs, hr]
    exact .fail h (.read hs hr)
  | ok bytes =>
    cases bytes with
    | cons b bytes =>
      simp only [Engine.read, hs, hr]
      exact .read h hs hr (List.cons_ne_nil b bytes)
    | nil =>
      simp only [Engine.read, hs, hr]
      cases goal with
      | drain => exact .pass h (.readOut hs hr nofun)
      | catchUp =>
        cases hf : t.engine.config.follow with
        | true =>
          simp only [Engine.atEnd, hf, if_true]
          exact .pass h (.caughtUp hs hr hf)
        | false =>
          simp only [Engine.atEnd, hf, Bool.false_eq_true, if_false]
          exact .pass h (.readOut hs hr fun _ => hf)

theorem turn_check (h : t.Works .check) {s : Session} (hs : t.engine.source = .opened s) :
    Turn fs now t { t with engine := t.engine.check fs now } := by
  cases hc : classify (fs.look t.engine.path) s.identifier t.engine.splitter.consumed with
  | error error =>
    simp only [Engine.check, hs, hc]
    exact .fail h (.check hs hc)
  | ok change =>
    cases change with
    | none => simp only [Engine.check, hs, hc]; exact .wait h (.same hs hc)
    | modified => simp only [Engine.check, hs, hc]; exact .pass h (.grown hs hc)
    | truncated => simp only [Engine.check, hs, hc]; exact .rewind h hs hc
    | deleted => simp only [Engine.check, hs, hc]; exact .pass h (.gone hs hc)

theorem turn_flush (h : t.Works .flush) : Turn fs now t { t with engine := t.engine.flush } := by
  cases hc : t.engine.config.completeLines with
  | true =>
    simp only [Engine.flush, hc, if_true]
    exact .pass h (.kept (.inl hc))
  | false =>
    by_cases hh : t.engine.splitter.held = []
    · simp only [Engine.flush, hc, Splitter.finish, hh, Bool.false_eq_true, if_false, if_true]
      exact .pass h (.kept (.inr hh))
    · simp only [Engine.flush, hc, Splitter.finish, hh, Bool.false_eq_true, if_false]
      exact .flush h hc hh

theorem turn_leave (h : t.Works .leave) : Turn fs now t { t with engine := t.engine.leave } := by
  cases hf : t.engine.config.follow with
  | false =>
    simp only [Engine.leave, hf, Bool.false_eq_true, not_false_eq_true, if_true]
    exact .pass h (.done fun h' => absurd (hf.symm.trans h') nofun)
  | true =>
    cases hr : t.engine.config.reopen with
    | true =>
      simp only [Engine.leave, hf, hr, not_true_eq_false, if_false, if_true]
      exact .leave h hf hr
    | false =>
      cases hd : t.engine.config.failOnDelete with
      | true =>
        simp only [Engine.leave, hf, hr, hd, Bool.false_eq_true, not_true_eq_false, if_false,
          if_true]
        exact .last h hf hr hd
      | false =>
        simp only [Engine.leave, hf, hr, hd, Bool.false_eq_true, not_true_eq_false, if_false]
        exact .pass h (.done fun _ => ⟨hr, hd⟩)

theorem turn_hand {line : Line} {lines : List Line} {rest : Bool} {next : Stage}
    (h : t.engine.phase = .handing (line :: lines) rest next) :
    Turn fs now t (t.hand line lines rest next) := by
  unfold hand
  split_ifs with hq hroom
  · exact .quit hq
  · exact .hand h hq hroom
  · refine .idle ?_
    rw [not_or] at hq
    unfold blocked
    rw [h]
    simp [hq.1, hq.2, Nat.not_lt.1 hroom]

theorem turn_sleep {due : Nat} {watching : Bool} {next : Stage}
    (h : t.engine.phase = .asleep due watching next) :
    Turn fs now t (t.sleep now due watching next) := by
  unfold sleep
  by_cases hq : t.stopRequested = true
  · rw [if_pos hq]; exact .quit (.inl hq)
  · rw [if_neg hq]
    cases ha : if watching then t.engine.watcher.awaken else none with
    | some watcher =>
      have hw : watching = true ∧ t.engine.watcher.awaken = some watcher := by
        cases watching <;> simp_all
      exact .wake h (.inr hw)
    | none =>
      by_cases hd : due ≤ now
      · simp only [if_pos hd]
        exact .wake h (.inl ⟨hd, rfl⟩)
      · simp only [if_neg hd]
        refine .idle ?_
        unfold blocked
        rw [h]
        have hw : (watching && t.engine.watcher.awaken.isSome) = false := by
          cases watching <;> simp_all
        simp [hq, hw, Nat.not_le.1 hd]

/-- A step does one of the things listed. -/
theorem turn_step (hf : t.engine.Fits) (fs : FileSystem) (now : Nat) :
    Turn fs now t (t.step fs now) := by
  unfold step
  cases h : t.engine.phase with
  | ended => exact .idle (by unfold blocked; rw [h])
  | asleep due watching next => exact turn_sleep h
  | handing lines rest next =>
    cases lines with
    | cons line lines => exact turn_hand h
    | nil =>
      cases rest with
      | true => exact .rest h
      | false => exact .resume h
  | ready stage =>
    by_cases hq : t.stopRequested ∧ stage.observesStop
    · simp only [if_pos hq]; exact .quit (.inl hq.1)
    · simp only [if_neg hq]
      have hw : t.Works stage := ⟨h, hq⟩
      have hst : t.engine.phase.stage? = some stage := by rw [h]; rfl
      cases stage with
      | arm => exact .pass hw .arm
      | look => exact turn_look hw
      | reopen => exact turn_reopen hw
      | read goal =>
        obtain ⟨s, hs⟩ := opened_of_fits hf hst rfl
        exact turn_read hw hs
      | clear => exact .pass hw .clear
      | check =>
        obtain ⟨s, hs⟩ := opened_of_fits hf hst rfl
        exact turn_check hw hs
      | flush => exact turn_flush hw
      | leave => exact turn_leave hw
      | finish => exact .finish hw

theorem step_works {stage : Stage} (h : t.Works stage) :
    t.step fs now = { t with engine := t.engine.work fs now stage } := by
  unfold step
  rw [h.1]
  exact if_neg h.2

/-! ## The step of a tailer that goes on -/

/-- Nobody asked the tailer to stop or closed its channel. -/
def On (t : Tailer) : Prop := t.stopRequested = false ∧ t.closed = false

theorem step_ready {stage : Stage} (hp : t.engine.phase = .ready stage) (on : t.On) :
    t.step fs now = { t with engine := t.engine.work fs now stage } :=
  step_works ⟨hp, fun h => absurd (on.1.symm.trans h.1) nofun⟩

theorem step_hand {line : Line} {lines : List Line} {rest : Bool} {next : Stage}
    (hp : t.engine.phase = .handing (line :: lines) rest next) (on : t.On)
    (room : t.queue.length < t.capacity) :
    t.step fs now =
      { t.withPhase (.handing lines rest next) with queue := t.queue ++ [line] } := by
  unfold step
  rw [hp]
  simp [hand, on.1, on.2, room]

theorem step_rest {next : Stage} (hp : t.engine.phase = .handing [] true next) :
    t.step fs now =
      t.withPhase (.asleep (now + t.engine.config.pollInterval) false next) := by
  unfold step
  rw [hp]

theorem step_resume {next : Stage} (hp : t.engine.phase = .handing [] false next) :
    t.step fs now = t.withPhase (.ready next) := by
  unfold step
  rw [hp]

theorem step_wake {due : Nat} {watching : Bool} {next : Stage}
    (hp : t.engine.phase = .asleep due watching next) (on : t.On)
    (hb : t.blocked now = false) :
    ∃ watcher, t.step fs now =
      { t with engine := { t.engine with watcher, phase := .ready next } } := by
  have awake : ¬ t.stopRequested = true := by rw [on.1]; exact nofun
  unfold step
  rw [hp]
  show ∃ watcher, t.sleep now due watching next = _
  unfold sleep
  rw [if_neg awake]
  cases ha : if watching then t.engine.watcher.awaken else none with
  | some watcher => exact ⟨watcher, rfl⟩
  | none =>
    have hdue : due ≤ now := by
      unfold blocked at hb
      rw [hp] at hb
      cases watching <;> simp_all [on.1]
    exact ⟨t.engine.watcher, if_pos hdue⟩

end Tailer
end LogFollower
