import LogFollower.Fault

/-!
# Errors of a tailer

The causes for which a tailer refuses to start, reports on its stream or ends, with their texts.
-/

namespace LogFollower

/-- Why a configuration cannot be used. -/
inductive ConfigFault
  | reopenWithoutFollow
  | noPollInterval
  | noCapacity
  | noLineSize
  | beforeStart (position : Int)
  | stated (text : String)
  deriving DecidableEq, Repr

def ConfigFault.text : ConfigFault → String
  | reopenWithoutFollow => "reopen requires follow"
  | noPollInterval => "poll interval must be positive"
  | noCapacity => "channel capacity must be positive"
  | noLineSize => "max line size must be positive"
  | beforeStart p => "seek to " ++ toString p ++ " lands before the start of the file"
  | stated s => s

/-- What can go wrong with a tailer. -/
inductive TailError
  /-- Opening, reading or looking at the file failed. -/
  | file (fault : Fault)
  /-- Watching for changes failed. -/
  | watching (text : String)
  /-- It is not known which file a handle refers to. -/
  | noIdentity (fault : Fault)
  | config (fault : ConfigFault)
  /-- The file is gone and is not waited for. -/
  | gone (path : String)
  /-- The tailer was asked to stop. -/
  | stopped
  /-- The consumer takes no more lines. -/
  | closed
  /-- The task broke down. -/
  | taskFailed
  deriving DecidableEq, Repr

namespace TailError

def message : TailError → String
  | file f => "I/O error: " ++ f.text
  | watching s => "File watcher error: " ++ s
  | noIdentity f => "File identity unavailable: " ++ f.text
  | config f => "Invalid configuration: " ++ f.text
  | gone path => "File no longer exists: " ++ path
  | stopped => "Tailer stopped"
  | closed => "Stream closed"
  | taskFailed => "Tail task failed"

/-- The text of the error underneath, if there is one. -/
def cause : TailError → Option String
  | file f => some f.text
  | watching s => some s
  | noIdentity f => some f.text
  | _ => none

/-- Whether the error ends the follow loop instead of being reported on the stream. -/
def terminal : TailError → Bool
  | stopped => true
  | closed => true
  | _ => false

def notFound : TailError → Bool
  | file f => f.notFound
  | _ => false

/-- The parts of an error, spelled out. -/
def shown : TailError → String
  | file f => "Io(" ++ f.shown ++ ")"
  | watching s => "Watcher(" ++ Text.shown s ++ ")"
  | noIdentity f => "IdentityUnavailable \x7b source: " ++ f.shown ++ " \x7d"
  | config f => "InvalidConfig \x7b message: " ++ Text.shown f.text ++ " \x7d"
  | gone path => "FileNotFound \x7b path: " ++ Text.shown path ++ " \x7d"
  | stopped => "Cancelled"
  | closed => "StreamClosed"
  | taskFailed => "TaskFailed"

end TailError
end LogFollower
