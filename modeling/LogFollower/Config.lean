import LogFollower.Seek

/-!
# Configuration

What a tailer is told to do. `Config.fault?` names the first thing that makes a configuration
unusable.
-/

namespace LogFollower

/-- How a file is tailed. -/
structure Config where
  /-- Keep reading after the end of the file is reached. -/
  follow : Bool
  /-- Open the path again when the file is gone. -/
  reopen : Bool
  /-- Look at the path at intervals instead of waiting for notifications. -/
  poll : Bool
  /-- Where to start; the end of the file if nothing is said. -/
  location : Option SeekInfo
  /-- Refuse to start on a missing file, even if the path is to be reopened later. -/
  mustExist : Bool
  /-- Give out only lines that are complete. -/
  completeLines : Bool
  /-- The longest line that stays whole, in bytes. -/
  maxLineSize : Option Nat
  /-- Milliseconds between two looks at the path, and to rest after an error. -/
  pollInterval : Nat
  /-- How many lines are kept for the consumer. -/
  channelCapacity : Nat
  /-- End with an error when the file is gone and not reopened. -/
  failOnDelete : Bool
  /-- Go on where reading stood when the same file is found again. -/
  resumeSameFile : Bool
  deriving DecidableEq, Repr

namespace Config

def defaultPollInterval : Nat := 250

def defaultChannelCapacity : Nat := 1024

/-- Read once, from the end. -/
def default : Config where
  follow := false
  reopen := false
  poll := false
  location := none
  mustExist := false
  completeLines := false
  maxLineSize := none
  pollInterval := defaultPollInterval
  channelCapacity := defaultChannelCapacity
  failOnDelete := false
  resumeSameFile := false

/-- Follow whatever file is at the path. -/
def followName : Config := { default with follow := true, reopen := true }

/-- What makes a configuration unusable, if anything does. -/
def fault? (c : Config) : Option ConfigFault :=
  if c.reopen ∧ ¬ c.follow then some .reopenWithoutFollow
  else if c.pollInterval = 0 then some .noPollInterval
  else if c.channelCapacity = 0 then some .noCapacity
  else if c.maxLineSize = some 0 then some .noLineSize
  else none

def waitsForFile (c : Config) : Bool := c.follow && c.reopen && !c.mustExist

end Config
end LogFollower
