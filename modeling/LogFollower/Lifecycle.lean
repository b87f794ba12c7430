import LogFollower.Error

/-!
# Shutdown

A task is asked to stop and may be joined. Joining waits for its end, whatever the task does, and
tells once whether it broke down. A wait that can be interrupted ends at the stop request or when
its time is over, whichever comes first.
-/

namespace LogFollower

/-- What a task does. -/
inductive Job
  /-- Waits for the stop request. -/
  | waits
  /-- Sleeps for some milliseconds and does not look for a stop request. -/
  | sleeps (ms : Nat)
  | breaksDown
  | returns
  deriving DecidableEq, Repr

inductive Progress
  | fresh
  | waiting
  | asleep (due : Nat)
  | finished (broken : Bool)
  deriving DecidableEq, Repr

/-- What a job does when it first runs. -/
def Job.begin (now : Nat) : Job → Progress
  | waits => .waiting
  | sleeps ms => .asleep (now + ms)
  | breaksDown => .finished true
  | returns => .finished false

namespace Progress

def run (job : Job) (now : Nat) (stopRequested : Bool) (p : Progress) : Progress :=
  match if p = fresh then job.begin now else p with
  | waiting => if stopRequested then finished false else waiting
  | asleep due => if due ≤ now then finished false else asleep due
  | p => p

def ended : Progress → Bool
  | finished _ => true
  | _ => false

end Progress

/-- A task with its stop request. -/
structure Lifecycle where
  job : Job
  /-- Nothing once the task was joined. -/
  task : Option Progress
  stopRequested : Bool
  now : Nat
  deriving DecidableEq, Repr

namespace Lifecycle

/-- A task that has not run yet. -/
def spawn (job : Job) : Lifecycle := ⟨job, some .fresh, false, 0⟩

def requestStop (l : Lifecycle) : Lifecycle := { l with stopRequested := true }

/-- Whether the task has ended, as far as the owner can see. -/
def finished (l : Lifecycle) : Bool := l.task.all (·.ended)

/-- Lets milliseconds pass. What is due at the very end is left to the next time. -/
def pass (l : Lifecycle) (ms : Nat) : Lifecycle :=
  let run (p : Progress) (now : Nat) : Progress := p.run l.job now l.stopRequested
  { l with
    now := l.now + ms
    task := l.task.map fun p => run (run p l.now) (l.now + ms - 1) }

/-- Asks the task to stop and waits for its end. The first call after a breakdown tells of it. -/
def stop (l : Lifecycle) : Except TailError Unit × Lifecycle :=
  let asked := l.requestStop
  match l.task with
  | none => (.ok (), asked)
  | some p =>
    let joined := { asked with task := none }
    match p.run l.job l.now true with
    | .finished true => (.error .taskFailed, joined)
    | .asleep due => (.ok (), { joined with now := due })
    | _ => (.ok (), joined)

@[simp] theorem stopRequested_requestStop (l : Lifecycle) :
    l.requestStop.stopRequested = true := rfl

@[simp] theorem stopRequested_pass (l : Lifecycle) (ms : Nat) :
    (l.pass ms).stopRequested = l.stopRequested := rfl

@[simp] theorem task_stop (l : Lifecycle) : l.stop.2.task = none := by
  unfold stop
  split
  · next h => simpa [requestStop] using h
  · split <;> rfl

/-- Drops the task, which asks it to stop. -/
def drop (l : Lifecycle) : Lifecycle := l.requestStop

end Lifecycle

/-- Work that takes some milliseconds and has an outcome, unless a stop is requested before. The
second part is the time that it took. -/
def interruptible (stopAt : Option Nat) (ms : Nat) (outcome : Except TailError Unit) :
    Except TailError Unit × Nat :=
  match stopAt with
  | some t => if t = 0 ∨ t < ms then (.error .stopped, t) else (outcome, ms)
  | none => (outcome, ms)

end LogFollower
