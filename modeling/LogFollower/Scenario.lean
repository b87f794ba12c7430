import LogFollower.FileSystem.Edit
import LogFollower.Tailer

/-!
# Scenarios

A `Scenario` is a directory, a clock and four slots for tailers on files in it. Its operations are
what a consumer does: start a tailer, let time pass, take lines, stop. Time passes only where an
operation says so, and files change only between operations.

`drain` takes lines until there are none, and `poll` lets seconds pass first.
-/

namespace LogFollower

/-- A place for a tailer. -/
structure Slot where
  tailer : Option Tailer
  /-- Where the last line of text that was taken here ended. -/
  last : Option SeekInfo
  deriving DecidableEq, Repr

/-- A directory, a clock in milliseconds, and tailers. -/
structure Scenario where
  fs : FileSystem
  now : Nat
  slots : List Slot
  deriving DecidableEq, Repr

namespace Scenario

def slotCount : Nat := 4

/-- A scenario in a directory, before anything was started. -/
def start (fs : FileSystem) : Scenario := ⟨fs, 0, List.replicate slotCount ⟨none, none⟩⟩

def tailer? (s : Scenario) (i : Nat) : Option Tailer := (s.slots[i]?).bind (·.tailer)

/-- Where the last line of text taken from a slot ended. -/
def last? (s : Scenario) (i : Nat) : Option SeekInfo := (s.slots[i]?).bind (·.last)

/-- Puts a tailer into a slot, or takes it out. -/
def put (s : Scenario) (i : Nat) (tailer : Option Tailer) : Scenario :=
  { s with slots := s.slots.modify i fun slot => { slot with tailer } }

def edit (s : Scenario) (e : Edit) : Scenario := { s with fs := s.fs.edit e }

/-- Lets milliseconds pass for all tailers. -/
def pass (s : Scenario) (ms : Nat) : Scenario :=
  let run (slot : Slot) : Slot :=
    { slot with tailer := slot.tailer.map (Tailer.runTo s.fs s.now (s.now + ms)) }
  { s with now := s.now + ms, slots := s.slots.map run }

/-- Starts a tailer in a slot. The one before is dropped first. -/
def launch (s : Scenario) (i : Nat) (path : Path) (config : Config) :
    Except TailError Unit × Scenario :=
  match Tailer.start s.fs path config with
  | .ok t => (.ok (), (s.put i (some t)).pass 1)
  | .error e => (.error e, s.put i none)

def tick (s : Scenario) (n : Nat) : Scenario := s.pass (n * 1000)

/-- Where the last line of text among some ended. -/
def lastSeek (lines : List Line) : Option SeekInfo :=
  (lines.reverse.find? (!·.isError)).map (·.seekInfo)

/-- Takes lines from a slot without letting time pass. -/
def take (s : Scenario) (i : Nat) (max : Option Nat) : List Line × Bool × Scenario :=
  match s.tailer? i with
  | none => ([], false, s)
  | some t =>
    let (lines, ended, t) := t.receive max
    let keep (slot : Slot) : Slot := ⟨some t, (lastSeek lines).or slot.last⟩
    (lines, ended, { s with slots := s.slots.modify i keep })

/-- Takes lines from a slot, at most `max`; then a millisecond passes. -/
def receive (s : Scenario) (i : Nat) (max : Option Nat) : List Line × Bool × Scenario :=
  let (lines, ended, s) := s.take i max
  (lines, ended, s.pass 1)

def drainWithin (i : Nat) : (rounds : Nat) → List Line → Scenario → List Line × Bool × Scenario
  | 0, taken, s => (taken, false, s)
  | rounds + 1, taken, s =>
    let (lines, ended, s) := s.receive i none
    if lines = [] ∨ ended then (taken ++ lines, ended, s)
    else drainWithin i rounds (taken ++ lines) s

/-- More rounds than there can be lines of text. -/
def rounds (s : Scenario) (i : Nat) : Nat :=
  let held := (s.tailer? i).elim 0 fun t => t.backlog + t.queue.length
  8 * (s.fs.size + held) + 10000

def drain (s : Scenario) (i : Nat) : List Line × Bool × Scenario :=
  drainWithin i (s.rounds i) [] s

/-- Lets seconds pass and takes what comes. -/
def poll (s : Scenario) (i : Nat) (n : Nat) : List Line × Bool × Scenario :=
  (s.tick n).drain i

def modify (s : Scenario) (i : Nat) (f : Tailer → Tailer) : Scenario :=
  s.put i ((s.tailer? i).map f)

/-- Whether the task of a slot has ended. -/
def stopped (s : Scenario) (i : Nat) : Bool := (s.tailer? i).any (·.ended)

/-- Asks the tailer of a slot to stop and lets a millisecond pass. -/
def cleanup (s : Scenario) (i : Nat) : Scenario := (s.modify i Tailer.cleanup).pass 1

def stop (s : Scenario) (i : Nat) : Scenario := s.modify i (Tailer.stop s.fs s.now)

/-- Drops the tailer of a slot and lets a millisecond pass. -/
def drop (s : Scenario) (i : Nat) : Scenario := (s.put i none).pass 1

end Scenario
end LogFollower
