import LogFollower.Program.Console
import LogFollower.Seek.Reader

/-!
# Reading what is new

A program that prints what came into a log since its last run. It stops once the log was quiet for
a second, and saves the position of the last line that it printed. The position carries the
identity of the log: after a rotation the new log is read from its beginning.
-/

namespace LogFollower.Resume

/-- The log that is read when none is named. -/
def defaultLog : String := "app.log"

/-- The file that the position is saved in when none is named. -/
def defaultState : String := "app.log.position"

/-- How long the log has to be quiet, in milliseconds. -/
def quiet : Nat := 1000

/-- Why no position could be loaded. -/
inductive LoadFault
  | unreadable (fault : Fault)
  | noPosition
  deriving DecidableEq, Repr

def LoadFault.text : LoadFault → String
  | unreadable f => f.shown
  | noPosition => "InvalidJson"

/-- The saved position; the beginning if there is none. -/
def load (fs : FileSystem) (state : Path) : Except LoadFault SeekInfo :=
  match fs.stat state with
  | .error _ => .ok .start
  | .ok _ =>
    match fs.readAll state with
    | .error f => .error (.unreadable f)
    | .ok bytes =>
      match Text.text? bytes with
      | none => .error (.unreadable .noText)
      | some text =>
        match SeekInfo.parse text with
        | .ok s => .ok s
        | .error _ => .error .noPosition

def save (fs : FileSystem) (state : Path) (s : SeekInfo) : Except Fault FileSystem :=
  fs.write state fun _ => Text.encode s.json

def format (l : Line) : Printed :=
  match l.error with
  | some e => .err ("Error: " ++ e.message)
  | none => .out l.text

/-- The outcome of a run that fails after it printed lines. -/
def failed (printed : List Printed) (text : String) : Outcome :=
  .ofPrinted 1 (printed ++ [.err ("Error: " ++ text)])

/-- Runs the program in a directory, which it may change. -/
def run (fs : FileSystem) (arguments : List String) : Option (Outcome × FileSystem) :=
  let log := arguments.headD defaultLog
  let state := (arguments.drop 1).headD defaultState
  match load fs (.ofString state) with
  | .error f => some (failed [] f.text, fs)
  | .ok location =>
    let greeting := .out ("Resuming " ++ log ++ " at " ++ location.shown)
    match Tailer.start fs (.ofString log) { Config.followName with location := some location } with
    | .error e => some (failed [greeting] e.shown, fs)
    | .ok t =>
      match (Live.start fs t [greeting]).run ⟨format, none, some quiet⟩ .never with
      | none => none
      | some l =>
        let printed := l.printed.reverse
        match l.taken.find? (!·.isError) with
        | none => some (.ofPrinted 0 printed, fs)
        | some line =>
          match save fs (.ofString state) line.seekInfo with
          | .error f => some (failed printed f.shown, fs)
          | .ok saved =>
            let note :=
              "Saved position " ++ toString line.seekInfo.offset ++ " to " ++ state
            some (.ofPrinted 0 (printed ++ [.out note]), saved)

end LogFollower.Resume
