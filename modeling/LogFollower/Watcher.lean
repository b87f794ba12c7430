import LogFollower.Change
import LogFollower.Config

/-!
# Ways of watching

A watcher decides when the path is looked at again: after an interval, or, with notifications, as
soon as an event names the file and otherwise after a second. Notifications need a directory that
can be watched; without one the watcher falls back to intervals. The notifications of a directory
that can be watched neither fail to be set up nor break off.
-/

namespace LogFollower

/-- A notification: the paths it is about. -/
structure Event where
  paths : List Path
  deriving DecidableEq, Repr

/-- Whether an event is about a file with the name. -/
def Event.concerns (e : Event) (name : String) : Bool :=
  e.paths.any fun p => p.fileName.any fun s => Text.lossy s = name

/-- How a path is watched. -/
inductive Watcher
  | polling (interval : Nat)
  /-- `queue` holds the events not yet looked at, oldest first. -/
  | notified (name : String) (onFile : Bool) (queue : List Event)
  deriving DecidableEq, Repr

/-- Whether notifications can be had for what a path leads to. The empty path stands for the
current directory. -/
def FileSystem.watchable (fs : FileSystem) (p : Path) : Bool :=
  p.bytes = [] || (fs.find p).toBool

namespace Watcher

/-- Milliseconds after which a notified watcher looks again without an event. It covers what is
written through a link into a directory that is not watched. -/
def recheck : Nat := 1000

/-- The name that events are compared with. -/
def watchedName (p : Path) : String :=
  match p.fileName with
  | some s => Text.lossy s
  | none => ""

def start (fs : FileSystem) (p : Path) (config : Config) : Watcher :=
  if config.poll ∨ ¬ fs.watchable p.directory then .polling config.pollInterval
  else .notified (watchedName p) (fs.watchable p) []

/-- Milliseconds to the next look when no event comes. -/
def interval : Watcher → Nat
  | polling interval => interval
  | notified _ _ _ => recheck

/-- Watches the file too, once it is there. -/
def attach (fs : FileSystem) (p : Path) : Watcher → Watcher
  | polling interval => .polling interval
  | notified name onFile queue => .notified name (onFile || fs.watchable p) queue

/-- Forgets the events that a look at the path makes out of date. -/
def forget : Watcher → Watcher
  | polling interval => .polling interval
  | notified name onFile _ => .notified name onFile []

def deliver (e : Event) : Watcher → Watcher
  | polling interval => .polling interval
  | notified name onFile queue => .notified name onFile (queue ++ [e])

/-- Takes events up to the first that concerns the file; `none` when there is no such event. -/
def awaken : Watcher → Option Watcher
  | polling _ => none
  | notified name onFile queue =>
    match queue.dropWhile (!·.concerns name) with
    | [] => none
    | _ :: rest => some (.notified name onFile rest)

def shownSpan (ms : Nat) : String :=
  if ms = 0 then "0ns"
  else if ms < 1000 then toString ms ++ "ms"
  else
    let digits := (toString (1000 + ms % 1000)).toList.drop 1
    let fraction := (digits.reverse.dropWhile (· = '0')).reverse
    toString (ms / 1000) ++ (if fraction = [] then "" else "." ++ String.ofList fraction) ++ "s"

def shown (p : Path) : Watcher → String
  | polling interval =>
    "Polling(PollingWatcher \x7b path: " ++ p.shown ++ ", interval: " ++ shownSpan interval
      ++ " \x7d)"
  | notified _ onFile _ =>
    "Notify(NotifyWatcher \x7b path: " ++ p.shown ++ ", watching_file: " ++ toString onFile
      ++ ", .. \x7d)"

end Watcher
end LogFollower
