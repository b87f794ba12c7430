import LogFollower.Engine

/-!
# Tailers

A `Tailer` is an engine, the lines it has put into the channel and the consumer has not taken, and
the stop request. `step` lets the engine do one thing; it leaves a tailer alone that is `blocked`:
ended, asleep, or before a full channel (`step_eq_of_blocked`). `settle` steps until nothing can be
done at the moment, and `runTo` lets time pass.
-/

namespace LogFollower

/-- A running tailer. -/
structure Tailer where
  engine : Engine
  /-- The lines not yet taken, oldest first. -/
  queue : List Line
  capacity : Nat
  /-- The consumer takes no more lines than are queued. -/
  closed : Bool
  stopRequested : Bool
  deriving DecidableEq, Repr

namespace Tailer

def start (fs : FileSystem) (path : Path) (config : Config) : Except TailError Tailer :=
  match Engine.start fs path config with
  | .ok engine => .ok ⟨engine, [], max 1 config.channelCapacity, false, false⟩
  | .error e => .error e

def withPhase (t : Tailer) (phase : Phase) : Tailer :=
  { t with engine := { t.engine with phase } }

/-- The tailer with its task ended. -/
def quit (t : Tailer) : Tailer := t.withPhase .ended

def ended (t : Tailer) : Bool := t.engine.phase = .ended

/-- Nothing can be done before time passes, an event comes, lines are taken or a stop is
requested. -/
def blocked (now : Nat) (t : Tailer) : Bool :=
  match t.engine.phase with
  | .ended => true
  | .ready _ => false
  | .handing [] _ _ => false
  | .handing (_ :: _) _ _ => !t.stopRequested && !t.closed && t.capacity ≤ t.queue.length
  | .asleep due watching _ =>
    !t.stopRequested && now < due && !(watching && t.engine.watcher.awaken.isSome)

/-- Hands one line over, or ends when it is not wanted any more. -/
def hand (t : Tailer) (line : Line) (lines : List Line) (rest : Bool) (next : Stage) : Tailer :=
  if t.stopRequested ∨ t.closed then t.quit
  else if t.queue.length < t.capacity then
    { t.withPhase (.handing lines rest next) with queue := t.queue ++ [line] }
  else t

/-- Goes on sleeping or wakes up. An event counts before the time does. -/
def sleep (now : Nat) (t : Tailer) (due : Nat) (watching : Bool) (next : Stage) : Tailer :=
  if t.stopRequested then t.quit
  else
    match if watching then t.engine.watcher.awaken else none with
    | some watcher => { t with engine := { t.engine with watcher, phase := .ready next } }
    | none => if due ≤ now then t.withPhase (.ready next) else t

/-- Lets the engine do one thing. -/
def step (fs : FileSystem) (now : Nat) (t : Tailer) : Tailer :=
  match t.engine.phase with
  | .ended => t
  | .ready stage =>
    if t.stopRequested ∧ stage.observesStop then t.quit
    else { t with engine := t.engine.work fs now stage }
  | .handing [] true next =>
    t.withPhase (.asleep (now + t.engine.config.pollInterval) false next)
  | .handing [] false next => t.withPhase (.ready next)
  | .handing (line :: lines) rest next => t.hand line lines rest next
  | .asleep due watching next => t.sleep now due watching next

theorem step_eq_of_blocked {fs : FileSystem} {now : Nat} {t : Tailer} (h : t.blocked now) :
    t.step fs now = t := by
  unfold blocked at h
  unfold step
  split at h
  · next e => rw [e]
  · simp at h
  · simp at h
  · next e =>
    rw [e]
    simp only [Bool.and_eq_true, Bool.not_eq_true', decide_eq_true_eq] at h
    simp only [hand, h.1.1, h.1.2]
    simp [Nat.not_lt.2 h.2]
  · next watching _ e =>
    rw [e]
    simp only [Bool.and_eq_true, Bool.not_eq_true', decide_eq_true_eq] at h
    have awake : (if watching then t.engine.watcher.awaken else none) = none := by
      cases watching <;> simp_all
    simp only [sleep, h.1.1, awake]
    simp [Nat.not_le.2 h.1.2]

/-- Steps until the tailer is blocked, at most `fuel` times. -/
def settleWithin (fs : FileSystem) (now : Nat) : (fuel : Nat) → Tailer → Tailer
  | 0, t => t
  | fuel + 1, t => if t.blocked now then t else settleWithin fs now fuel (t.step fs now)

theorem settleWithin_eq_of_blocked {fs : FileSystem} {now : Nat} {t : Tailer} (h : t.blocked now)
    (fuel : Nat) : t.settleWithin fs now fuel = t := by
  cases fuel with
  | zero => rfl
  | succ fuel => simp [settleWithin, h]

/-- How many lines and bytes the engine holds. -/
def backlog (t : Tailer) : Nat :=
  let lines :=
    match t.engine.phase with
    | .handing lines _ _ => lines.length
    | _ => 0
  lines + t.engine.splitter.held.length

/-- Steps enough to be blocked: every step but a few takes a byte or a line, and no byte is read
more than four times before the engine sleeps. -/
def patience (fs : FileSystem) (t : Tailer) : Nat := 16 * (fs.size + t.backlog) + 100

/-- Steps until nothing can be done at the moment. -/
def settle (fs : FileSystem) (now : Nat) (t : Tailer) : Tailer :=
  t.settleWithin fs now (t.patience fs)

/-- When the engine wakes up by itself. -/
def wakeTime (t : Tailer) : Option Nat :=
  match t.engine.phase with
  | .asleep due _ _ => some due
  | _ => none

/-- Runs up to a time, waking up at most `fuel` times. -/
def runWithin (fs : FileSystem) (target : Nat) : (fuel now : Nat) → Tailer → Tailer
  | 0, now, t => t.settle fs now
  | fuel + 1, now, t =>
    let t := t.settle fs now
    match t.wakeTime with
    | some due => if due < target then runWithin fs target fuel due t else t
    | none => t

/-- Lets time pass from `now` to `target`. Every sleep takes a millisecond at least. What is due at
`target` itself is left to the run after this. -/
def runTo (fs : FileSystem) (now target : Nat) (t : Tailer) : Tailer :=
  t.runWithin fs target (target - now) now

/-- The lines taken from the queue, at most `max`; whether the end of the stream was met; and the
tailer without them. -/
def receive (max : Option Nat) (t : Tailer) : List Line × Bool × Tailer :=
  let count := max.getD (t.queue.length + 1)
  (t.queue.take count, t.queue.length < count && (t.ended || t.closed),
    { t with queue := t.queue.drop count })

theorem queue_receive (max : Option Nat) (t : Tailer) :
    (t.receive max).1 ++ (t.receive max).2.2.queue = t.queue := by
  simp [receive]

/-- Asks the task to stop and takes no further lines. -/
def cleanup (t : Tailer) : Tailer := { t with stopRequested := true, closed := true }

/-- Stops the task and waits for its end. -/
def stop (fs : FileSystem) (now : Nat) (t : Tailer) : Tailer :=
  { t with stopRequested := true }.settle fs now

def shown (t : Tailer) : String :=
  "Tailer \x7b path: " ++ t.engine.path.shown ++ ", stop_requested: "
    ++ toString t.stopRequested ++ ", .. \x7d"

end Tailer
end LogFollower
