import LogFollower.FileSystem.Edit
import LogFollower.Proofs.Tailer.Sound

/-!
# Runs of a tailer among changing files

A `World` is a tailer, the files, the clock and the lines its consumer has taken. Its moves come in
any order: other programs change files, the engine takes a step, time passes, an event comes, lines
are taken, a stop is requested. `Reaches` allows a move by a condition on the world it is made in.

A world also keeps what an observer of the handle and of the channel would write down. A `Section`
is what was read through one handle, and given out, between two placements of it: a handle is placed
where it is opened or goes back, and has read whatever it goes forward over. `looked` says whether
the engine has looked at the path since the files changed.
-/

namespace LogFollower

/-- The lines of text among some lines. -/
def texts (lines : List Line) : List Line := lines.filter (!·.isError)

theorem texts_append (a b : List Line) : texts (a ++ b) = texts a ++ texts b :=
  List.filter_append ..

theorem texts_cons (line : Line) (lines : List Line) :
    texts (line :: lines) = texts [line] ++ texts lines :=
  texts_append [line] lines

theorem texts_map_ofPiece (identifier : Option FileIdentifier) (pieces : List Piece) :
    texts (pieces.map (Line.ofPiece identifier)) = pieces.map (Line.ofPiece identifier) := by
  refine List.filter_eq_self.2 fun l hl => ?_
  obtain ⟨p, -, rfl⟩ := List.mem_map.1 hl
  rfl

@[simp] theorem texts_nil : texts [] = [] := rfl

/-- What was read and given out between two placements of a handle. -/
structure Section where
  /-- The object behind the handle. -/
  object : Nat
  /-- Where the handle was placed. -/
  base : Nat
  /-- What was read, with the offsets it was read at, oldest first. -/
  reads : List (Nat × Bytes)
  /-- The lines of text put into the channel, oldest first. -/
  lines : List Line

namespace Section

/-- The section that a handle begins where it is placed. -/
def ofSession (s : Session) : Section := ⟨s.object, s.position, [], []⟩

def identifier (s : Section) : FileIdentifier := FileSystem.identify s.object

/-- The bytes read, from the base on. -/
def input (s : Section) : Bytes := (s.reads.map Prod.snd).flatten

theorem input_read (s : Section) (offset : Nat) (bytes : Bytes) :
    { s with reads := s.reads ++ [(offset, bytes)] }.input = s.input ++ bytes := by
  simp [input]

end Section

/-- Sections are kept newest first; this is what was given out in all of them, oldest first. -/
def told (sections : List Section) : List Line := (sections.reverse.map Section.lines).flatten

def noteRead (offset : Nat) (bytes : Bytes) : List Section → List Section
  | [] => []
  | s :: past => { s with reads := s.reads ++ [(offset, bytes)] } :: past

def noteLines (lines : List Line) : List Section → List Section
  | [] => []
  | s :: past => { s with lines := s.lines ++ texts lines } :: past

/-- Notes how the source changed. -/
def noteSource (fs : FileSystem) (sections : List Section) : Source → Source → List Section
  | .opened s, .opened s' =>
    if s'.position < s.position then .ofSession s' :: sections
    else if s.position < s'.position then
      let bytes := fs.read s.object s.position (s'.position - s.position)
      noteRead s.position (bytes.toOption.getD []) sections
    else sections
  | .away _, .opened s' => .ofSession s' :: sections
  | _, .away _ => sections

theorem noteSource_self (fs : FileSystem) (sections : List Section) (source : Source) :
    noteSource fs sections source source = sections := by
  cases source with
  | opened s => simp [noteSource]
  | away p => rfl

theorem noteSource_away (fs : FileSystem) (sections : List Section) (source : Source)
    (previous : Option FileIdentifier) :
    noteSource fs sections source (.away previous) = sections := by
  cases source <;> rfl

theorem noteLines_nil (sections : List Section) : noteLines [] sections = sections := by
  cases sections with
  | nil => rfl
  | cons s past => simp [noteLines]

theorem told_cons (s : Section) (past : List Section) : told (s :: past) = told past ++ s.lines := by
  simp [told]

theorem told_noteRead (offset : Nat) (bytes : Bytes) (sections : List Section) :
    told (noteRead offset bytes sections) = told sections := by
  cases sections with
  | nil => rfl
  | cons s past => rw [noteRead, told_cons, told_cons]

theorem told_noteSource (fs : FileSystem) (sections : List Section) (source source' : Source) :
    told (noteSource fs sections source source') = told sections := by
  have begun (hd : Session) : told (.ofSession hd :: sections) = told sections := by
    rw [told_cons]; exact List.append_nil _
  cases source' with
  | away p => rw [noteSource_away]
  | opened hd =>
    cases source with
    | away p => exact begun hd
    | opened hd' =>
      simp only [noteSource]
      split_ifs
      · exact begun hd
      · exact told_noteRead _ _ _
      · rfl

theorem told_noteLines {lines : List Line} {sections : List Section}
    (h : sections = [] → texts lines = []) :
    told (noteLines lines sections) = told sections ++ texts lines := by
  cases sections with
  | nil => rw [h rfl, List.append_nil]; rfl
  | cons s past => rw [noteLines, told_cons, told_cons, List.append_assoc]

theorem eq_nil_of_noteSource {fs : FileSystem} {sections : List Section} {source source' : Source}
    (h : noteSource fs sections source source' = []) : sections = [] := by
  cases sections with
  | nil => rfl
  | cons s past =>
    cases source' with
    | away p => rw [noteSource_away] at h; cases h
    | opened hd =>
      cases source with
      | away p => cases h
      | opened hd' => simp only [noteSource, noteRead] at h; split_ifs at h

/-- A tailer among files, and what an observer has seen of it. -/
structure World where
  fs : FileSystem
  now : Nat
  tailer : Tailer
  /-- The lines the consumer has taken, oldest first. -/
  taken : List Line
  /-- Whether the engine has looked at the path since the files changed. -/
  looked : Bool
  /-- What was read and given out, newest first. -/
  sections : List Section

/-- What can happen next. -/
inductive Move
  | edit (change : Edit)
  | work
  | wait (ms : Nat)
  | notify (event : Event)
  | receive (max : Option Nat)
  | stop
  | cleanup

namespace World

def start (fs : FileSystem) (t : Tailer) : World where
  fs
  now := 0
  tailer := t
  taken := []
  looked := false
  sections :=
    match t.engine.source with
    | .opened s => [.ofSession s]
    | .away _ => []

/-- The world with its tailer after a step, and what the step showed noted. -/
def after (w : World) (t : Tailer) : World :=
  { w with
    tailer := t
    looked := w.looked || w.tailer.engine.phase = .ready .check
      || w.tailer.engine.phase = .ready .look
    sections := noteLines (t.queue.drop w.tailer.queue.length)
      (noteSource w.fs w.sections w.tailer.engine.source t.engine.source) }

def work (w : World) : World := w.after (w.tailer.step w.fs w.now)

def move (w : World) : Move → World
  | .edit change => { w with fs := w.fs.edit change, looked := false }
  | .work => w.work
  | .wait ms => { w with now := w.now + ms }
  | .notify event => { w with tailer := { w.tailer with engine :=
      { w.tailer.engine with watcher := w.tailer.engine.watcher.deliver event } } }
  | .receive max =>
    let (lines, _, t) := w.tailer.receive max
    { w with tailer := t, taken := w.taken ++ lines }
  | .stop => { w with tailer := { w.tailer with stopRequested := true } }
  | .cleanup => { w with tailer := w.tailer.cleanup }

/-- The worlds reached by moves that are allowed where they are made. -/
inductive Reaches (allowed : World → Move → Prop) (w : World) : World → Prop
  | here : Reaches allowed w w
  | move {v : World} {m : Move} (h : Reaches allowed w v) (hm : allowed v m) :
      Reaches allowed w (v.move m)

def anyMove (_ : World) (_ : Move) : Prop := True

/-- The engine waits for a change and has looked at the path since the files changed. -/
def Quiet (w : World) : Prop :=
  w.looked = true ∧ ∃ due next, w.tailer.engine.phase = .asleep due true next

def run (w : World) (moves : List Move) : World := moves.foldl move w

def works (w : World) (count : Nat) : World := w.run (List.replicate count .work)

/-- What every allowed move keeps holds in every world reached. -/
theorem Reaches.invariant {allowed : World → Move → Prop} {motive : World → Prop} {w v : World}
    (h : Reaches allowed w v) (start : motive w)
    (step : ∀ u m, motive u → allowed u m → motive (u.move m)) : motive v := by
  induction h with
  | here => exact start
  | move _ hm ih => exact step _ _ ih hm

theorem Reaches.trans {allowed : World → Move → Prop} {u v w : World} (h : Reaches allowed u v)
    (h' : Reaches allowed v w) : Reaches allowed u w := by
  induction h' with
  | here => exact h
  | move _ hm ih => exact ih.move hm

theorem reaches_run {allowed : World → Move → Prop} {w v : World} (h : Reaches allowed w v)
    {moves : List Move} (hm : ∀ u, ∀ m ∈ moves, allowed u m) :
    Reaches allowed w (v.run moves) := by
  induction moves generalizing v with
  | nil => exact h
  | cons m moves ih =>
    obtain ⟨hm, hmoves⟩ := forall_and.1 fun u => List.forall_mem_cons.1 (hm u)
    exact ih (.move h (hm v)) hmoves

theorem reaches_works {allowed : World → Move → Prop} {w v : World} (h : Reaches allowed w v)
    (hm : ∀ u, allowed u .work) (count : Nat) : Reaches allowed w (v.works count) :=
  reaches_run h fun u m hmem => by rw [List.eq_of_mem_replicate hmem]; exact hm u

/-! ## What a step shows -/

/-- A step that reads nothing and puts nothing into the channel shows nothing. -/
theorem sections_after {w : World} {t : Tailer} (hq : t.queue = w.tailer.queue)
    (hs : t.engine.source = w.tailer.engine.source) : (w.after t).sections = w.sections := by
  show noteLines (t.queue.drop _) (noteSource w.fs w.sections _ t.engine.source) = _
  rw [hq, List.drop_length, noteLines_nil, hs, noteSource_self]

theorem sections_after_hand {w : World} {t : Tailer} {line : Line}
    (hq : t.queue = w.tailer.queue ++ [line])
    (hs : t.engine.source = w.tailer.engine.source) :
    (w.after t).sections = noteLines [line] w.sections := by
  show noteLines (t.queue.drop _) (noteSource w.fs w.sections _ t.engine.source) = _
  rw [hq, List.drop_left, hs, noteSource_self]

theorem looked_of_after {w : World} {t : Tailer} (h : (w.after t).looked = true)
    (hr : ∀ stage, w.tailer.engine.phase ≠ .ready stage) : w.looked = true := by
  simpa [after, hr] using h

theorem sections_after_read {w : World} {t : Tailer} {hd : Session} {bytes : Bytes}
    (hq : t.queue = w.tailer.queue) (hs : w.tailer.engine.source = .opened hd)
    (hs' : t.engine.source = .opened { hd with position := hd.position + bytes.length })
    (hr : w.fs.read hd.object hd.position chunkSize = .ok bytes) (hb : bytes ≠ []) :
    (w.after t).sections = noteRead hd.position bytes w.sections := by
  have hlen := List.length_pos_of_ne_nil hb
  show noteLines (t.queue.drop _) (noteSource w.fs w.sections _ t.engine.source) = _
  rw [hq, List.drop_length, noteLines_nil, hs, hs']
  simp only [noteSource]
  rw [if_neg (by omega), if_pos (by omega), Nat.add_sub_cancel_left, FileSystem.read_length hr]
  rfl

theorem sections_after_rewind {w : World} {t : Tailer} {hd hd' : Session}
    (hq : t.queue = w.tailer.queue) (hs : w.tailer.engine.source = .opened hd)
    (hs' : t.engine.source = .opened hd') (hlt : hd'.position < hd.position) :
    (w.after t).sections = .ofSession hd' :: w.sections := by
  show noteLines (t.queue.drop _) (noteSource w.fs w.sections _ t.engine.source) = _
  rw [hq, List.drop_length, noteLines_nil, hs, hs']
  simp only [noteSource, if_pos hlt]

theorem sections_after_open {w : World} {t : Tailer} {previous : Option FileIdentifier}
    {hd : Session} (hq : t.queue = w.tailer.queue) (hs : w.tailer.engine.source = .away previous)
    (hs' : t.engine.source = .opened hd) :
    (w.after t).sections = .ofSession hd :: w.sections := by
  show noteLines (t.queue.drop _) (noteSource w.fs w.sections _ t.engine.source) = _
  rw [hq, List.drop_length, noteLines_nil, hs, hs']
  rfl

theorem sections_after_leave {w : World} {t : Tailer} {previous : Option FileIdentifier}
    (hq : t.queue = w.tailer.queue) (hs' : t.engine.source = .away previous) :
    (w.after t).sections = w.sections := by
  show noteLines (t.queue.drop _) (noteSource w.fs w.sections _ t.engine.source) = _
  rw [hq, List.drop_length, noteLines_nil, hs', noteSource_away]

end World

/-! ## A small world -/

namespace Sample

def name : Path := ⟨[0x61]⟩

/-- The name that the file is moved to. -/
def other : Path := ⟨[0x62]⟩

/-- Follow whatever is at the name, from its beginning. -/
def config : Config := { Config.followName with location := some .start, poll := true }

/-- One file, with a line and the beginning of another. -/
def files : FileSystem :=
  ⟨[.directory [(name.bytes, .object 1)], .regular [0x78, carriageReturn, lineFeed, 0x79]]⟩

def tailer : Tailer :=
  ⟨⟨name, config, .opened ⟨1, FileSystem.identify 1, 0⟩, .start 0 none, .polling 250,
    .ready (.read .catchUp)⟩, [], 1024, false, false⟩

theorem start_eq : Tailer.start files name config = .ok tailer := by decide

/-- The file is moved away after its first line was given out. -/
def renamed : World := ((World.start files tailer).works 3).move (.edit (.rename name other))

def replaced : World := renamed.move (.edit (.append name [0x7A, lineFeed]))

/-- The engine reads both to their ends, and the consumer takes all lines. -/
def rotated : World := (replaced.works 18).move (.receive none)

end Sample
end LogFollower
