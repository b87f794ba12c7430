import LogFollower.Program.Console

/-!
# The first lines

A small program that follows a file by name, prints the first ten items of the stream with their
offsets, and ends.
-/

namespace LogFollower.FirstLines

/-- The file that is followed when none is named. -/
def defaultPath : String := "app.log"

def count : Nat := 10

/-- A number in a column of eight. -/
def column (n : Nat) : String :=
  let digits := toString n
  "".pushn ' ' (8 - digits.length) ++ digits

def format (l : Line) : Printed :=
  match l.error with
  | some e => .err ("Error: " ++ e.message)
  | none => .out ("[" ++ column l.offset ++ "] " ++ l.text)

/-- Runs the program in a directory. -/
def run (fs : FileSystem) (arguments : List String) (cue : Cue) : Option Outcome :=
  let path := arguments.headD defaultPath
  match Tailer.start fs (.ofString path) .followName with
  | .error e => some (.ofPrinted 1 [.err ("Error: " ++ e.shown)])
  | .ok t =>
    let greeting := .out ("Following " ++ path ++ " - waiting for new lines...")
    ((Live.start fs t [greeting]).run ⟨format, some count, none⟩ cue).map fun l =>
      .ofPrinted 0 l.printed.reverse

end LogFollower.FirstLines
