import LogFollower.Arguments
import LogFollower.Program.Console

/-!
# The command

`log-tail` prints the lines of one file. Lines of text go to the standard output, errors to the
other channel. It ends when the stream does, or when it is interrupted.
-/

namespace LogFollower.Follow

def name : String := "log-tail"

def version : String := "0.1.0"

def versionText : String := name ++ " " ++ version ++ "\n"

def helpText : String := unlines [
  "Print lines appended to a file, following it across rotations",
  "",
  "Usage: log-tail [OPTIONS] <PATH>",
  "",
  "Arguments:",
  "  <PATH>  File to follow",
  "",
  "Options:",
  "  -f, --follow",
  "          Keep reading as the file grows",
  "  -F, --follow-name",
  "          Follow by name: also reopen the file after rotation or deletion",
  "      --poll",
  "          Poll for changes instead of using filesystem notifications",
  "      --poll-interval-ms <POLL_INTERVAL_MS>",
  "          Poll interval in milliseconds [default: 250]",
  "      --from-start",
  "          Print existing content instead of starting at the end",
  "      --offset <OFFSET>",
  "          Resume at this byte offset",
  "      --identifier <IDENTIFIER>",
  "          File identifier the offset was recorded for",
  "      --show-offsets",
  "          Prefix each line with its resumable offset and file identifier",
  "  -h, --help",
  "          Print help",
  "  -V, --version",
  "          Print version"]

def format (a : Arguments) (l : Line) : Printed :=
  match l.error with
  | some e => .err ("Error reading " ++ a.path ++ ": " ++ e.message)
  | none =>
    if a.showOffsets then
      let id := (l.identifier.map (·.token)).getD "-"
      .out (toString l.offset ++ "\t" ++ id ++ "\t" ++ l.text)
    else .out l.text

/-- What the command does with arguments that are no command. Asking for help or the version is no
failure. -/
def refuse : UsageFault → Outcome
  | .help => ⟨0, helpText, ""⟩
  | .version => ⟨0, versionText, ""⟩
  | _ => ⟨2, "", ""⟩

/-- What is printed when the file cannot be followed. -/
def startFailure (a : Arguments) (e : TailError) : Printed :=
  .err ("Error following " ++ a.path ++ ": " ++ e.message)

/-- Runs the command in a directory. -/
def run (fs : FileSystem) (arguments : List String) (cue : Cue) : Option Outcome :=
  match Arguments.parse arguments with
  | .error f => some (refuse f)
  | .ok a =>
    match Tailer.start fs (.ofString a.path) a.config with
    | .error e => some (.ofPrinted 1 [startFailure a e])
    | .ok t =>
      ((Live.start fs t []).run ⟨format a, none, none⟩ cue).map fun l =>
        .ofPrinted 0 l.printed.reverse

end LogFollower.Follow
