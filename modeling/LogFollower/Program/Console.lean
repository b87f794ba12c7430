import LogFollower.FileSystem.Edit
import LogFollower.Tailer

/-!
# Programs that print a stream

A program takes lines from a tailer as they come and prints each, on one of two channels. Meanwhile
other programs may change files, and the user may interrupt it: a `Cue` says after how much output.

`watch` runs such a program on a clock that advances only when nothing can be done. A run that would
never end has no result.
-/

namespace LogFollower

inductive Printed
  | out (text : String)
  | err (text : String)
  deriving DecidableEq, Repr

/-- What a program leaves behind. -/
structure Outcome where
  exitCode : Nat
  out : String
  err : String
  deriving DecidableEq, Repr

/-- Lines, each with its end. -/
def unlines (lines : List String) : String := String.join (lines.map (· ++ "\n"))

/-- The outcome of a program that printed lines. -/
def Outcome.ofPrinted (exitCode : Nat) (printed : List Printed) : Outcome where
  exitCode
  out := unlines (printed.filterMap fun | .out s => some s | .err _ => none)
  err := unlines (printed.filterMap fun | .err s => some s | .out _ => none)

/-- What happens around a program: once it printed so many lines, files are changed, and then the
user may interrupt it. -/
structure Cue where
  outLines : Nat
  errLines : Nat
  edits : List Edit
  interrupt : Bool
  deriving DecidableEq, Repr

def Cue.never : Cue := ⟨0, 0, [], false⟩

/-- A running program. -/
structure Live where
  fs : FileSystem
  now : Nat
  tailer : Tailer
  /-- The lines printed, newest first. -/
  printed : List Printed
  /-- How many of them are on each channel. -/
  outLines : Nat
  errLines : Nat
  /-- The lines taken from the tailer, newest first. -/
  taken : List Line
  deriving DecidableEq, Repr

namespace Live

/-- A program that has printed some lines and starts to take others. -/
def start (fs : FileSystem) (tailer : Tailer) (printed : List Printed) : Live where
  fs
  now := 0
  tailer
  printed := printed.reverse
  outLines := printed.countP fun | .out _ => true | .err _ => false
  errLines := printed.countP fun | .err _ => true | .out _ => false
  taken := []

def print (l : Live) (p : Printed) : Live :=
  match p with
  | .out _ => { l with printed := p :: l.printed, outLines := l.outLines + 1 }
  | .err _ => { l with printed := p :: l.printed, errLines := l.errLines + 1 }

/-- Takes a line from the tailer and prints it. -/
def take (format : Line → Printed) (l : Live) (line : Line) : Live :=
  { l.print (format line) with taken := line :: l.taken }

/-- Whether the program printed as much as a cue waits for. -/
def reached (l : Live) (cue : Cue) : Bool :=
  cue.outLines ≤ l.outLines && cue.errLines ≤ l.errLines

/-- How a program prints and when it is content. -/
structure Manner where
  format : Line → Printed
  /-- The number of lines after which it takes no more. -/
  limit : Option Nat
  /-- The milliseconds without a line after which it takes no more. -/
  patience : Option Nat

/-- Runs a program to its end, in at most `rounds` rounds. A round takes the lines that are there,
or lets the cue happen, or lets time pass. The program waits for lines since `since`. -/
def watch (manner : Manner) : (rounds : Nat) → (cue : Option Cue) → (since : Nat) → Live →
    Option Live
  | 0, _, _, _ => none
  | rounds + 1, cue, since, l =>
    let tailer := l.tailer.settle l.fs l.now
    let room := manner.limit.map (· - l.taken.length)
    let (lines, ended, tailer) := tailer.receive room
    let l := lines.foldl (take manner.format) { l with tailer }
    if manner.limit.any (· ≤ l.taken.length) then some l
    else if ended then some l
    else if lines ≠ [] then watch manner rounds cue l.now l
    else
      match cue.filter l.reached with
      | some c =>
        let l := { l with fs := c.edits.foldl FileSystem.edit l.fs }
        if c.interrupt then some { l with tailer := l.tailer.cleanup }
        else watch manner rounds none since l
      | none =>
        match tailer.wakeTime with
        | none => none
        | some due =>
          match manner.patience with
          | some ms =>
            if due < since + ms then watch manner rounds cue since { l with now := due }
            else some { l with now := since + ms }
          | none => watch manner rounds cue since { l with now := due }

/-- Rounds enough for every run that ends. -/
def rounds (l : Live) (cue : Cue) : Nat :=
  let coming := (cue.edits.foldl FileSystem.edit l.fs).size
  16 * (l.fs.size + coming) + 100000

def run (manner : Manner) (cue : Cue) (l : Live) : Option Live :=
  l.watch manner (l.rounds cue) (some cue) l.now

end Live
end LogFollower
