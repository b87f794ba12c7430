import LogFollower.Line
import LogFollower.Watcher

/-!
# The follow loop

An `Engine` follows one path. It reads what there is, waits for a change, and reacts: growth is
read, a file cut short is read again from its beginning, and a file that is gone is read to its end
and then replaced by what the path leads to next. The committed offset is all that outlives a
handle.

The loop is a machine. A `Stage` is a point at which it acts on the file system, and `work` is one
action. Between actions it hands lines to the consumer or sleeps; that is the rest of `Phase`, and
`Tailer.step` takes it from there.

Left out are the branches that no file system of `FileSystem` leads into: positioning a handle, or
asking it for its length or its identity, fails neither when a file is opened at the start nor when
it is rewound or opened again; a regular file does not fail to be read, so neither does the drain of
a file that is gone. A notification service that breaks down is left out as well, and so is what the
loop writes to a log, on which nothing it does depends.
-/

namespace LogFollower

/-- How many bytes are read at once. -/
def chunkSize : Nat := 64 * 1024

/-- An open file: the object behind the handle, its identity, and where the next read starts. -/
structure Session where
  object : Nat
  identifier : FileIdentifier
  position : Nat
  deriving DecidableEq, Repr

/-- What the engine reads from: an open file, or none since the one before was given up. -/
inductive Source
  | opened (session : Session)
  | away (previous : Option FileIdentifier)
  deriving DecidableEq, Repr

/-- Why a file is read to its end: to catch up with it, or to take what is left in one that is
gone. -/
inductive Goal
  | catchUp
  | drain
  deriving DecidableEq, Repr

/-- The points at which the loop acts. -/
inductive Stage
  /-- About to watch a path that has to be opened again. -/
  | arm
  /-- About to see whether there is something at the path. -/
  | look
  /-- About to open the path again. -/
  | reopen
  /-- About to read. -/
  | read (goal : Goal)
  /-- About to forget the events that the next look makes out of date. -/
  | clear
  /-- About to compare the path with the open file. -/
  | check
  /-- About to give out the line that has no end yet. -/
  | flush
  /-- Done with the open file. -/
  | leave
  /-- About to end. -/
  | finish
  deriving DecidableEq, Repr

/-- Where a failed read goes on: with another try, unless the file is gone anyway. -/
def Goal.afterFailure : Goal → Stage
  | .catchUp => .read .catchUp
  | .drain => .flush

/-- Whether a stop request is seen before the action. Reading and giving up a file go on until the
next line is handed over. -/
def Stage.observesStop : Stage → Bool
  | .look => true
  | .reopen => true
  | .check => true
  | _ => false

/-- What the engine is doing. -/
inductive Phase
  | ready (stage : Stage)
  /-- Handing lines to the consumer, and then resting for an interval if `rest` says so. -/
  | handing (lines : List Line) (rest : Bool) (next : Stage)
  /-- Asleep until a time, or until an event comes if `watching` says so. -/
  | asleep (due : Nat) (watching : Bool) (next : Stage)
  | ended
  deriving DecidableEq, Repr

/-- The task that follows one path. -/
structure Engine where
  path : Path
  config : Config
  source : Source
  splitter : Splitter
  watcher : Watcher
  phase : Phase
  deriving DecidableEq, Repr

namespace Engine

def identifier (e : Engine) : Option FileIdentifier :=
  match e.source with
  | .opened s => some s.identifier
  | .away _ => none

/-- An engine for a path. A missing file is waited for if the configuration says so. -/
def start (fs : FileSystem) (path : Path) (config : Config) : Except TailError Engine :=
  match config.fault? with
  | some f => .error (.config f)
  | none =>
    let watcher := Watcher.start fs path config
    match fs.openFile path with
    | .ok object =>
      let identifier := FileSystem.identify object
      let length := fs.length object
      let offset :=
        match config.location with
        | some seek => seek.resolve identifier length
        | none => .ok length
      match offset with
      | .ok offset =>
        .ok ⟨path, config, .opened ⟨object, identifier, offset⟩,
          .start offset config.maxLineSize, watcher, .ready (.read .catchUp)⟩
      | .error e => .error e
    | .error f =>
      if f.notFound then
        if config.waitsForFile then
          .ok ⟨path, config, .away none, .start 0 config.maxLineSize, watcher, .ready .arm⟩
        else .error (.gone path.display)
      else .error (.file f)

/-- The offset to read a reopened file from: where reading stood, if it is the same file and the
configuration asks for that, and otherwise its beginning. -/
def reopenOffset (config : Config) (stood : ReadPosition) (current : FileIdentifier) : Nat :=
  match stood.identifier with
  | some previous =>
    if config.resumeSameFile ∧ previous = current then stood.resolve current else 0
  | none => 0

theorem reopenOffset_of_ne (config : Config) {stood : ReadPosition} {current : FileIdentifier}
    (h : stood.identifier ≠ some current) : reopenOffset config stood current = 0 := by
  unfold reopenOffset
  split
  · next previous hp =>
    rw [hp] at h
    exact if_neg fun hc => h (congrArg some hc.2)
  · rfl

/-- Where reading stood when the last file was given up. -/
def stood (e : Engine) : ReadPosition :=
  match e.source with
  | .opened s => ⟨e.splitter.committed, some s.identifier⟩
  | .away previous => ⟨e.splitter.committed, previous⟩

def goto (e : Engine) (stage : Stage) : Engine := { e with phase := .ready stage }

/-- The report of an error, at the last offset given out. -/
def errorLine (e : Engine) (error : TailError) : Line :=
  .ofError error e.splitter.committed e.identifier

/-- Reports an error, rests, and goes on at a stage. -/
def report (e : Engine) (error : TailError) (next : Stage) : Engine :=
  { e with phase := .handing [e.errorLine error] true next }

/-- Sleeps until the watcher looks again. -/
def await (e : Engine) (now : Nat) (next : Stage) : Engine :=
  { e with phase := .asleep (now + e.watcher.interval) true next }

/-- What follows the end of the file. -/
def atEnd (e : Engine) : Goal → Engine
  | .catchUp => e.goto (if e.config.follow then .clear else .flush)
  | .drain => e.goto .flush

def look (fs : FileSystem) (now : Nat) (e : Engine) : Engine :=
  match fs.stat e.path with
  | .ok _ => { e with watcher := e.watcher.attach fs e.path, phase := .ready .reopen }
  | .error f => if f.notFound then e.await now .look else e.report (.file f) .arm

def reopen (fs : FileSystem) (e : Engine) : Engine :=
  match fs.openFile e.path with
  | .ok object =>
    let identifier := FileSystem.identify object
    let offset := reopenOffset e.config e.stood identifier
    { e with
      source := .opened ⟨object, identifier, offset⟩
      splitter := e.splitter.reset offset
      watcher := .start fs e.path e.config
      phase := .ready (.read .catchUp) }
  | .error f => if f.notFound then e.goto .arm else e.report (.file f) .arm

/-- Reads a chunk and cuts it at once. -/
def read (fs : FileSystem) (e : Engine) (goal : Goal) : Engine :=
  match e.source with
  | .away _ => e.atEnd goal
  | .opened s =>
    match fs.read s.object s.position chunkSize with
    | .error f => e.report (.file f) goal.afterFailure
    | .ok [] => e.atEnd goal
    | .ok bytes =>
      let (pieces, splitter) := e.splitter.push bytes
      { e with
        source := .opened { s with position := s.position + bytes.length }
        splitter
        phase := .handing (pieces.map (Line.ofPiece (some s.identifier))) false (.read goal) }

def rewind (e : Engine) (s : Session) : Engine :=
  { e with source := .opened { s with position := 0 }, splitter := e.splitter.reset 0 }

def check (fs : FileSystem) (now : Nat) (e : Engine) : Engine :=
  match e.source with
  | .away _ => e.goto (.read .drain)
  | .opened s =>
    match classify (fs.look e.path) s.identifier e.splitter.consumed with
    | .error error => e.report error (.read .catchUp)
    | .ok .none => e.await now .clear
    | .ok .modified => e.goto (.read .catchUp)
    | .ok .truncated => (e.rewind s).goto (.read .catchUp)
    | .ok .deleted => e.goto (.read .drain)

/-- Gives out the line that has no end yet, unless only complete lines are wanted. -/
def flush (e : Engine) : Engine :=
  if e.config.completeLines then e.goto .leave
  else
    match e.splitter.finish with
    | (none, _) => e.goto .leave
    | (some piece, splitter) =>
      { e with splitter, phase := .handing [.ofPiece e.identifier piece] false .leave }

/-- Done with the open file: ends, or waits for the next one. -/
def leave (e : Engine) : Engine :=
  if ¬ e.config.follow then e.goto .finish
  else if e.config.reopen then
    { e with source := .away e.identifier, phase := .ready .arm }
  else if e.config.failOnDelete then
    { e with phase := .handing [e.errorLine (.gone e.path.display)] false .finish }
  else e.goto .finish

def work (fs : FileSystem) (now : Nat) (e : Engine) : Stage → Engine
  | .arm => { e with watcher := .start fs e.path e.config, phase := .ready .look }
  | .look => e.look fs now
  | .reopen => e.reopen fs
  | .read goal => e.read fs goal
  | .clear => { e with watcher := e.watcher.forget, phase := .ready .check }
  | .check => e.check fs now
  | .flush => e.flush
  | .leave => e.leave
  | .finish => { e with phase := .ended }

end Engine

end LogFollower
