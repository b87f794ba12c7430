import LogFollower.Config

/-!
# Command line arguments

The arguments are scanned from left to right. The first fault ends the scan, and so does a request
for help or for the version. A value that stands in an argument of its own is looked at when the
next argument is understood: an argument that is not understood is told of first.

What belongs together is checked after the scan: an offset excludes the start of the file, there
must be a path, and an identifier needs an offset unless the start of the file excludes one.
-/

namespace LogFollower

/-- Why arguments are not a command. -/
inductive UsageFault
  | unknownArgument
  /-- Something that is needed is missing. -/
  | missing
  /-- A value is missing or empty. -/
  | emptyValue
  /-- A value is no number. -/
  | badNumber
  /-- Something is given twice, or with what it excludes. -/
  | conflict
  /-- A flag is given a value. -/
  | unwantedValue
  /-- Help is asked for. -/
  | help
  /-- The version is asked for. -/
  | version
  deriving DecidableEq, Repr

/-- What is given without a value. -/
inductive Flag
  | follow
  | followName
  | poll
  | fromStart
  | showOffsets
  deriving DecidableEq, Repr

/-- What is given with a value. -/
inductive Setting
  | pollInterval
  | offset
  | identifier
  deriving DecidableEq, Repr

/-- A command. -/
structure Arguments where
  path : String
  flags : List Flag
  pollInterval : Option Nat
  offset : Option Nat
  identifier : Option String
  deriving DecidableEq, Repr

namespace Arguments

def has (a : Arguments) (f : Flag) : Bool := a.flags.contains f

def showOffsets (a : Arguments) : Bool := a.has .showOffsets

/-- Where to start. -/
def location (a : Arguments) : Option SeekInfo :=
  match a.offset with
  | some offset => some (.resume offset (a.identifier.map (⟨·⟩)))
  | none => if a.has .fromStart then some .start else none

/-- How the file is to be tailed. -/
def config (a : Arguments) : Config :=
  { Config.default with
    follow := a.has .follow || a.has .followName
    reopen := a.has .followName
    poll := a.has .poll
    pollInterval := a.pollInterval.getD Config.defaultPollInterval
    location := a.location }

/-! ## Scanning -/

/-- A value that was read and not looked at. -/
inductive Pending
  | none
  | path (s : String)
  /-- The value of a setting, if there was one. -/
  | value (setting : Setting) (s : Option String)
  deriving DecidableEq, Repr

/-- What was scanned. -/
structure Scanned where
  path : Option String
  flags : List Flag
  pollInterval : Option Nat
  offset : Option Nat
  identifier : Option String
  pending : Pending
  /-- Behind `--`, where everything is a path. -/
  pathsOnly : Bool
  deriving DecidableEq, Repr

namespace Scanned

def empty : Scanned := ⟨none, [], none, none, none, .none, false⟩

/-- The number that a value spells: digits, with a plus sign before them or without, below
`2 ^ 64`. -/
def number? (s : String) : Option Nat :=
  let digits :=
    match s.toList with
    | '+' :: rest => rest
    | all => all
  if digits ≠ [] ∧ digits.all Char.isDigit then
    let n := digits.foldl (fun n c => n * 10 + (c.toNat - 48)) 0
    if n < 0x10000000000000000 then some n else none
  else none

/-- Stores the value of a setting. -/
def store (a : Scanned) (setting : Setting) (s : String) : Except UsageFault Scanned :=
  match setting with
  | .identifier =>
    if a.identifier.isSome then .error .conflict else .ok { a with identifier := some s }
  | .offset =>
    if a.offset.isSome then .error .conflict
    else
      match number? s with
      | some n => .ok { a with offset := some n }
      | none => .error .badNumber
  | .pollInterval =>
    if a.pollInterval.isSome then .error .conflict
    else
      match number? s with
      | some n => .ok { a with pollInterval := some n }
      | none => .error .badNumber

/-- Looks at the value that was put off. -/
def settle (a : Scanned) : Except UsageFault Scanned :=
  let rest := { a with pending := .none }
  match a.pending with
  | .none => .ok rest
  | .path s => if s = "" then .error .emptyValue else .ok { rest with path := some s }
  | .value _ none => .error .emptyValue
  | .value setting (some s) => rest.store setting s

def flag (a : Scanned) (f : Flag) : Except UsageFault Scanned := do
  let a ← a.settle
  if a.flags.contains f then .error .conflict else .ok { a with flags := f :: a.flags }

/-- Takes a path. There is only one. -/
def positional (a : Scanned) (s : String) : Except UsageFault Scanned :=
  match a.path, a.pending with
  | none, .path _ => .error .unknownArgument
  | none, _ => do
    let a ← a.settle
    .ok { a with pending := .path s }
  | some _, _ => .error .unknownArgument

inductive Meaning
  | flag (f : Flag)
  | setting (s : Setting)
  | ends (f : UsageFault)
  deriving DecidableEq, Repr

def longName? : String → Option Meaning
  | "follow" => some (.flag .follow)
  | "follow-name" => some (.flag .followName)
  | "poll" => some (.flag .poll)
  | "poll-interval-ms" => some (.setting .pollInterval)
  | "from-start" => some (.flag .fromStart)
  | "offset" => some (.setting .offset)
  | "identifier" => some (.setting .identifier)
  | "show-offsets" => some (.flag .showOffsets)
  | "help" => some (.ends .help)
  | "version" => some (.ends .version)
  | _ => none

def shortName? : Char → Option Meaning
  | 'f' => some (.flag .follow)
  | 'F' => some (.flag .followName)
  | 'h' => some (.ends .help)
  | 'V' => some (.ends .version)
  | _ => none

/-- Takes an argument that begins with two dashes: its name, and its value if it has one. -/
def long (a : Scanned) (name : String) (value : Option String) : Except UsageFault Scanned :=
  match longName? name, value with
  | none, _ => .error .unknownArgument
  | some (.setting s), none => do
    let a ← a.settle
    .ok { a with pending := .value s none }
  | some (.setting s), some v => do
    let a ← a.settle
    a.store s v
  | some _, some _ => .error .unwantedValue
  | some (.flag f), none => a.flag f
  | some (.ends f), none => do
    let _ ← a.settle
    .error f

/-- Takes the short names of one argument. -/
def shorts (a : Scanned) : List Char → Except UsageFault Scanned
  | [] => .ok a
  | c :: rest =>
    match shortName? c with
    | some (.flag f) => do
      let a ← a.flag f
      shorts a rest
    | some (.ends f) => do
      let _ ← a.settle
      .error f
    | _ => .error .unknownArgument

/-- Takes one argument. -/
def argument (a : Scanned) (s : String) : Except UsageFault Scanned :=
  if a.pathsOnly then a.positional s
  else
    match s.toList with
    | ['-', '-'] => .ok { a with pathsOnly := true }
    | '-' :: '-' :: rest =>
      let name := rest.takeWhile (· ≠ '=')
      let value := (rest.dropWhile (· ≠ '=')).tail?
      a.long (String.ofList name) (value.map String.ofList)
    | '-' :: c :: rest => a.shorts (c :: rest)
    | _ =>
      match a.pending with
      | .value setting none => .ok { a with pending := .value setting (some s) }
      | _ => a.positional s

/-- What was scanned, if it belongs together. -/
def complete (a : Scanned) : Except UsageFault Arguments :=
  let fromStart := a.flags.contains .fromStart
  if a.offset.isSome ∧ fromStart then .error .conflict
  else
    match a.path with
    | none => .error .missing
    | some path =>
      if a.identifier.isSome ∧ a.offset = none ∧ ¬ fromStart then .error .missing
      else .ok ⟨path, a.flags, a.pollInterval, a.offset, a.identifier⟩

end Scanned

/-- The command that arguments give. -/
def parse (arguments : List String) : Except UsageFault Arguments := do
  let a ← arguments.foldlM Scanned.argument .empty
  let a ← a.settle
  a.complete

end Arguments
end LogFollower
