import LogFollower.Proofs.Tailer.Turn

/-!
# What an engine does, whenever it does it

Over files that stay as they are, what an engine does next and what it gives out depend on where it
stands alone. The clock, the events and the channel only decide when. `Engine.bare` forgets what has
to do with time: how the path is watched, and when the engine wakes. `Engine.beat` is what a bare
engine does when nothing holds it up, and `Engine.gives` the line that it gives out then.

`Tailer.step_bare` says that a step of a tailer is a beat of its bare engine, unless it is blocked.
So two tailers that differ in their time alone do the same, one perhaps later than the other.
-/

namespace LogFollower

/-- The phase without the time that it ends at. -/
def Phase.timeless : Phase → Phase
  | .asleep _ watching next => .asleep 0 watching next
  | phase => phase

@[simp] theorem Phase.timeless_timeless (phase : Phase) :
    phase.timeless.timeless = phase.timeless := by
  cases phase <;> rfl

namespace Engine

variable {fs : FileSystem} {e : Engine}

/-- The engine without what has to do with time: how it watches, and when it wakes. -/
def bare (e : Engine) : Engine :=
  { e with
    config := { e.config with poll := true }
    watcher := .polling 0
    phase := e.phase.timeless }

@[simp] theorem bare_bare (e : Engine) : e.bare.bare = e.bare := by
  unfold bare
  simp

/-- The line that an engine hands over next. -/
def gives (e : Engine) : List Line :=
  match e.phase with
  | .handing (line :: _) _ _ => [line]
  | _ => []

@[simp] theorem gives_bare (e : Engine) : e.bare.gives = e.gives := by
  unfold gives bare
  cases e.phase <;> rfl

/-- A tailer of an engine, with room for a line. -/
def alone (e : Engine) : Tailer := ⟨e, [], 1, false, false⟩

/-- What an engine comes to when nothing holds it up. -/
def beat (fs : FileSystem) (e : Engine) : Engine := (e.alone.step fs 0).engine.bare

theorem on_alone (e : Engine) : e.alone.On := ⟨rfl, rfl⟩

@[simp] theorem bare_beat (fs : FileSystem) (e : Engine) : (e.beat fs).bare = e.beat fs :=
  bare_bare _

theorem beat_ended (hp : e.phase = .ended) : e.beat fs = e.bare := by
  unfold beat Tailer.step alone
  simp only [hp]

theorem beat_ready {stage : Stage} (hp : e.phase = .ready stage) :
    e.beat fs = (e.work fs 0 stage).bare :=
  congrArg (fun t : Tailer => t.engine.bare) (Tailer.step_ready hp e.on_alone)

theorem beat_hand {line : Line} {lines : List Line} {rest : Bool} {next : Stage}
    (hp : e.phase = .handing (line :: lines) rest next) :
    e.beat fs = { e with phase := .handing lines rest next }.bare :=
  congrArg (fun t : Tailer => t.engine.bare) (Tailer.step_hand hp e.on_alone Nat.one_pos)

theorem beat_rest {next : Stage} (hp : e.phase = .handing [] true next) :
    e.beat fs = { e with phase := .asleep 0 false next }.bare :=
  congrArg (fun t : Tailer => t.engine.bare) (Tailer.step_rest hp)

theorem beat_resume {next : Stage} (hp : e.phase = .handing [] false next) :
    e.beat fs = { e with phase := .ready next }.bare :=
  congrArg (fun t : Tailer => t.engine.bare) (Tailer.step_resume hp)

theorem beat_wake {watching : Bool} {next : Stage} (hp : e.phase = .asleep 0 watching next) :
    e.beat fs = { e with phase := .ready next }.bare := by
  have hawake : e.alone.blocked 0 = false := by
    unfold Tailer.blocked alone
    rw [hp]
    simp
  obtain ⟨watcher, hstep⟩ : ∃ watcher, e.alone.step fs 0 =
      { e.alone with engine := { e.alone.engine with watcher, phase := .ready next } } :=
    Tailer.step_wake hp e.on_alone hawake
  exact congrArg (fun t : Tailer => t.engine.bare) hstep

/-- What an engine does at a stage does not depend on the time or on how it watches. -/
theorem bare_work (fs : FileSystem) (now : Nat) (e : Engine) (stage : Stage) :
    (e.bare.work fs 0 stage).bare = (e.work fs now stage).bare := by
  have hpath : e.bare.path = e.path := rfl
  have hsource : e.bare.source = e.source := rfl
  have hsplitter : e.bare.splitter = e.splitter := rfl
  cases stage with
  | arm | clear | finish => rfl
  | look =>
    simp only [work, look, hpath]
    cases fs.stat e.path with
    | ok stat => rfl
    | error f => cases hf : f.notFound <;> simp only [hf] <;> rfl
  | reopen =>
    simp only [work, reopen, hpath]
    cases fs.openFile e.path with
    | ok n => rfl
    | error f => cases hf : f.notFound <;> simp only [hf] <;> rfl
  | read goal =>
    have hend : (e.bare.atEnd goal).bare = (e.atEnd goal).bare := by cases goal <;> rfl
    simp only [work, read, hsource]
    cases e.source with
    | away previous => exact hend
    | opened s =>
      cases hr : fs.read s.object s.position chunkSize with
      | error f => simp only [hr]; rfl
      | ok bytes =>
        cases bytes with
        | nil => simp only [hr]; exact hend
        | cons b bytes => simp only [hr]; rfl
  | check =>
    simp only [work, check, hsource, hpath, hsplitter]
    cases e.source with
    | away previous => rfl
    | opened s =>
      cases hc : classify (fs.look e.path) s.identifier e.splitter.consumed with
      | error error => simp only [hc]; rfl
      | ok change => cases change <;> simp only [hc] <;> rfl
  | flush =>
    have hcomplete : e.bare.config.completeLines = e.config.completeLines := rfl
    simp only [work, flush, hcomplete, hsplitter]
    cases e.config.completeLines with
    | true => rfl
    | false =>
      obtain ⟨piece, splitter⟩ := e.splitter.finish
      cases piece <;> rfl
  | leave =>
    have hfollow : e.bare.config.follow = e.config.follow := rfl
    have hreopen : e.bare.config.reopen = e.config.reopen := rfl
    have hfail : e.bare.config.failOnDelete = e.config.failOnDelete := rfl
    simp only [work, leave, hfollow, hreopen, hfail]
    cases e.config.follow <;> cases e.config.reopen <;> cases e.config.failOnDelete <;> rfl

/-- What an engine gives out in a number of beats, and what it comes to. -/
def beats (fs : FileSystem) (e : Engine) : Nat → Engine × List Line
  | 0 => (e, [])
  | count + 1 => ((e.beats fs count).1.beat fs, (e.beats fs count).2 ++ (e.beats fs count).1.gives)

theorem lines_prefix (fs : FileSystem) (e : Engine) {count count' : Nat} (h : count ≤ count') :
    (e.beats fs count).2 <+: (e.beats fs count').2 := by
  induction h with
  | refl => exact List.prefix_rfl
  | step _ ih => exact ih.trans (List.prefix_append _ _)

theorem beats_of_ended {count : Nat} (hb : (e.beats fs count).1.bare = (e.beats fs count).1)
    (hp : (e.beats fs count).1.phase = .ended) {count' : Nat} (h : count ≤ count') :
    e.beats fs count' = e.beats fs count := by
  induction h with
  | refl => rfl
  | step _ ih =>
    have hgives : (e.beats fs count).1.gives = [] := by
      unfold gives
      rw [hp]
    show (_, _) = _
    rw [ih, beat_ended hp, hb, hgives, List.append_nil]

end Engine

namespace Tailer

variable {fs : FileSystem} {now : Nat} {t : Tailer}

/-- A step of a tailer that goes on is a beat of its engine, and hands over what the engine
gives. -/
theorem step_bare (on : t.On) (hb : t.blocked now = false) :
    (t.step fs now).engine.bare = t.engine.bare.beat fs ∧
      (t.step fs now).queue = t.queue ++ t.engine.gives := by
  cases hp : t.engine.phase with
  | ended =>
    unfold blocked at hb
    rw [hp] at hb
    cases hb
  | ready stage =>
    have hp' : t.engine.bare.phase = .ready stage := congrArg Phase.timeless hp
    have hgives : t.engine.gives = [] := by unfold Engine.gives; rw [hp]
    rw [step_ready hp on, Engine.beat_ready hp', hgives, List.append_nil]
    exact ⟨(Engine.bare_work fs now t.engine stage).symm, rfl⟩
  | asleep due watching next =>
    have hp' : t.engine.bare.phase = .asleep 0 watching next := congrArg Phase.timeless hp
    have hgives : t.engine.gives = [] := by unfold Engine.gives; rw [hp]
    obtain ⟨watcher, hstep⟩ : ∃ watcher, t.step fs now =
        { t with engine := { t.engine with watcher, phase := .ready next } } := step_wake hp on hb
    rw [hstep, Engine.beat_wake hp', hgives, List.append_nil]
    exact ⟨rfl, rfl⟩
  | handing lines rest next =>
    have hp' : t.engine.bare.phase = .handing lines rest next := congrArg Phase.timeless hp
    cases lines with
    | cons line lines =>
      have hgives : t.engine.gives = [line] := by unfold Engine.gives; rw [hp]
      have hroom : t.queue.length < t.capacity := by
        unfold blocked at hb
        rw [hp] at hb
        simpa [on.1, on.2] using hb
      rw [step_hand hp on hroom, Engine.beat_hand hp', hgives]
      exact ⟨rfl, rfl⟩
    | nil =>
      have hgives : t.engine.gives = [] := by unfold Engine.gives; rw [hp]
      rw [hgives, List.append_nil]
      cases rest with
      | true =>
        rw [step_rest hp, Engine.beat_rest hp']
        exact ⟨rfl, rfl⟩
      | false =>
        rw [step_resume hp, Engine.beat_resume hp']
        exact ⟨rfl, rfl⟩

end Tailer

end LogFollower
