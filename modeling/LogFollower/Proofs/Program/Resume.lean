import LogFollower.Program.Resume
import LogFollower.Proofs.Files.Written
import LogFollower.Proofs.Program.Live
import LogFollower.Proofs.Text.Encoded

/-!
# Reading what is new, run after run

The program that reads what is new is run again and again on one log and one state file. Between two
runs anything may happen to the files, as long as the state file is left alone: the log may grow, be
cut short, or be another file (`Course`). Each run finds in the state file the position of the last
line that was printed so far, prints the complete lines from there on and saves the position of the
last of them (`resumes_across_runs`). It starts at the beginning if the position is of another file,
or behind the end of this one (`origin`).

A run that prints nothing saves nothing, so it is not the run before that a run goes on from, but
the last one that printed a line: `lastLine` is carried along the runs.
-/

namespace LogFollower.Resume

variable {arguments : List String} {last : Option Line} {fs : FileSystem} {n : Nat}
  {bytes : Bytes} {l : Line}

/-! ## Positions that were saved -/

def logPath (arguments : List String) : Path := .ofString (arguments.headD defaultLog)

def statePath (arguments : List String) : Path :=
  .ofString ((arguments.drop 1).headD defaultState)

/-- Where a run starts that follows a last line. -/
def location (last : Option Line) : SeekInfo := (last.map (·.seekInfo)).getD .start

/-- What the state file holds behind a last line: its position, or nothing before the first. -/
def position (last : Option Line) : Option Bytes := last.map fun l => Text.encode l.seekInfo.json

theorem load_position {state : Path} (h : fs.Holds state (position last)) :
    load fs state = .ok (location last) := by
  unfold load FileSystem.stat
  cases last with
  | none =>
    obtain ⟨f, hf⟩ := h
    rw [hf]
    rfl
  | some l =>
    obtain ⟨n, hn, hb⟩ := h
    have hread : fs.readAll state = .ok (Text.encode l.seekInfo.json) := by
      unfold FileSystem.readAll
      simp only [FileSystem.openFile_of_bytes? hn hb, FileSystem.read_regular hb,
        FileSystem.length_of_bytes? hb, List.drop_zero, List.take_length]
    have hparse : SeekInfo.parse l.seekInfo.json = .ok l.seekInfo :=
      SeekInfo.parse_json (SeekInfo.offset_resume l.offset l.identifier)
    simp only [hn, hread, Text.text?_encode, hparse]
    rfl

/-! ## Where a run starts -/

/-- The offset that a run starts at behind a last line: the offset of the line, if the log is still
the file that the line was in and is long enough, and otherwise its beginning. -/
def origin (last : Option Line) (n length : Nat) : Nat :=
  match last with
  | some l =>
    if l.identifier = some (FileSystem.identify n) ∧ l.offset ≤ length then l.offset else 0
  | none => 0

theorem origin_of_le {length : Nat} (hid : l.identifier = some (FileSystem.identify n))
    (h : l.offset ≤ length) : origin (some l) n length = l.offset := if_pos ⟨hid, h⟩

theorem origin_of_lt {length : Nat} (h : length < l.offset) : origin (some l) n length = 0 :=
  if_neg fun hl => Nat.not_lt.2 hl.2 h

theorem origin_of_ne (hid : l.identifier ≠ some (FileSystem.identify n)) (length : Nat) :
    origin (some l) n length = 0 := if_neg fun hl => hid hl.1

/-- A last line names its file, and ends within what a signed 64-bit number can say. -/
def Sound (last : Option Line) : Prop :=
  ∀ l, last = some l →
    (∃ n, l.identifier = some (FileSystem.identify n)) ∧ (l.offset : Int) ≤ maxOffset

theorem sound_none : Sound none := fun _ h => by cases h

def manner (last : Option Line) : Config :=
  { Config.followName with location := some (location last) }

/-- The engine starts at the origin. Where the log is too short for that, it starts behind the end
of the log, and the origin is the beginning. -/
theorem startOffset_manner (hs : Sound last) (n length : Nat) :
    ∃ o, (manner last).startOffset (FileSystem.identify n) length = .ok o ∧
      (o ≤ length ∧ origin last n length = o ∨ length < o ∧ origin last n length = 0) := by
  cases last with
  | none => exact ⟨0, rfl, .inl ⟨Nat.zero_le _, rfl⟩⟩
  | some l =>
    obtain ⟨⟨m, hm⟩, hmax⟩ := hs l rfl
    by_cases hmn : m = n
    · subst hmn
      have hsame : ∀ id, l.identifier = some id → id = FileSystem.identify m :=
        fun id h => Option.some.inj (h.symm.trans hm)
      have hresolve : l.seekInfo.resolve (FileSystem.identify m) length = .ok l.offset := by
        refine (SeekInfo.resolve_resume hsame length).trans ?_
        rw [min_eq_left hmax]
        rfl
      refine ⟨l.offset, hresolve, ?_⟩
      obtain hle | hlt := le_or_gt l.offset length
      · exact .inl ⟨hle, origin_of_le hm hle⟩
      · exact .inr ⟨hlt, origin_of_lt hlt⟩
    · have hne : FileSystem.identify m ≠ FileSystem.identify n :=
        fun h => hmn (FileSystem.identify_inj h)
      have hresolve : l.seekInfo.resolve (FileSystem.identify n) length = .ok 0 :=
        SeekInfo.resolve_of_ne hm hne length
      refine ⟨0, hresolve, .inl ⟨Nat.zero_le _, origin_of_ne (fun h => ?_) length⟩⟩
      exact hne (Option.some.inj (hm.symm.trans h))

/-- The complete lines of a log that come after a last line. -/
def fresh (last : Option Line) (n : Nat) (bytes : Bytes) : List Line :=
  linesFrom none (origin last n bytes.length) n bytes

theorem gives_fresh {path : Path} (hs : Sound last) (hn : fs.find path = .ok n)
    (hb : fs.bytes? n = some bytes) (ms : Nat) :
    ∃ t, Tailer.start fs path (manner last) = .ok t ∧
      (World.start fs t).Gives (some ms) (fresh last n bytes) := by
  have hv : (manner last).fault? = none := rfl
  obtain ⟨o, ho, horigin⟩ := startOffset_manner hs n bytes.length
  have hlines (t : Tailer) (w : World) (ht : Tailer.start fs path (manner last) = .ok t)
      (hw : (World.start fs t).Reaches Undisturbed w) (hq : w.Quiet) :
      w.taken ++ w.tailer.queue = fresh last n bytes := by
    unfold fresh
    obtain ⟨hle, horigin⟩ | ⟨hlt, horigin⟩ := horigin
    · rw [horigin]
      exact Existing.taken_of_within ht rfl hn hb ho hle hw hq
    · rw [horigin]
      exact Existing.taken_of_overrun ht rfl hn hb ho hlt hw hq
  obtain ⟨t, ht⟩ := (settles_of_quiet hv rfl hn hb ho hlines).starts
  exact ⟨t, ht, World.gives_of_quiet ht rfl hn hb ho hlines ms⟩

theorem sound_fresh (hmax : (bytes.length : Int) ≤ maxOffset)
    (h : (fresh last n bytes).getLast? = some l) :
    l.identifier = some (FileSystem.identify n) ∧ l.offset ≤ bytes.length ∧ Sound (some l) := by
  rw [List.getLast?_eq_getElem?] at h
  obtain ⟨hid, hle⟩ := mem_linesFrom (Option.some_ne_none 0).symm h
  refine ⟨hid, hle, fun l' hl' => ?_⟩
  cases hl'
  exact ⟨⟨n, hid⟩, (Int.ofNat_le.2 hle).trans hmax⟩

/-! ## One run -/

def greeting (arguments : List String) (last : Option Line) : Printed :=
  .out ("Resuming " ++ arguments.headD defaultLog ++ " at " ++ (location last).shown)

/-- What a run says once it saved the position of a last line. -/
def note (arguments : List String) (l : Line) : Printed :=
  .out ("Saved position " ++ toString l.seekInfo.offset ++ " to "
    ++ (arguments.drop 1).headD defaultState)

/-- What a run prints before it saves anything. -/
def report (arguments : List String) (last : Option Line) (lines : List Line) : List Printed :=
  greeting arguments last :: lines.map fun l => .out l.text

theorem map_format_fresh (last : Option Line) (n : Nat) (bytes : Bytes) :
    (fresh last n bytes).map format = (fresh last n bytes).map fun l => .out l.text := by
  unfold fresh linesFrom
  rw [List.map_map, List.map_map]
  rfl

theorem find?_taken {taken : List Line} (h : taken.reverse = fresh last n bytes) :
    taken.find? (!·.isError) = (fresh last n bytes).getLast? := by
  have hclean : ∀ l ∈ taken, (!l.isError) = true := by
    intro l hl
    have hmem := List.mem_reverse.2 hl
    rw [h] at hmem
    obtain ⟨p, -, rfl⟩ := List.mem_map.1 hmem
    rfl
  rw [← h, List.getLast?_reverse]
  cases taken with
  | nil => rfl
  | cons l rest => exact List.find?_cons_of_pos (hclean l List.mem_cons_self)

/-- How a run ends behind certain lines: it saves the position of the last of them. -/
def conclude (fs : FileSystem) (arguments : List String) (last : Option Line)
    (lines : List Line) : Outcome × FileSystem :=
  match lines.getLast? with
  | none => (.ofPrinted 0 (report arguments last lines), fs)
  | some l =>
    match save fs (statePath arguments) l.seekInfo with
    | .error f => (failed (report arguments last lines) f.shown, fs)
    | .ok saved => (.ofPrinted 0 (report arguments last lines ++ [note arguments l]), saved)

/-- What a run does: it prints the fresh lines, and saves the position of the last of them. -/
theorem run_eq (hstate : fs.Holds (statePath arguments) (position last)) (hs : Sound last)
    (hn : fs.find (logPath arguments) = .ok n) (hb : fs.bytes? n = some bytes) :
    run fs arguments = some (conclude fs arguments last (fresh last n bytes)) := by
  obtain ⟨t, ht, hgives⟩ := gives_fresh hs hn hb quiet
  have hlength : (fresh last n bytes).length ≤ fs.size + 1 := by
    have hfresh := length_linesFrom_le (Option.some_ne_none 0).symm (origin last n bytes.length) n
      bytes
    have hsize : bytes.length ≤ fs.size :=
      FileSystem.length_of_bytes? hb ▸ fs.length_le_size n
    exact (hfresh.trans hsize).trans (Nat.le_succ _)
  obtain ⟨live, hlive, hprinted, htaken⟩ :=
    Live.run_of_gives hgives hlength le_rfl format [greeting arguments last]
  have hload : load fs (.ofString ((arguments.drop 1).headD defaultState)) =
      .ok (location last) := load_position hstate
  have hstart : Tailer.start fs (.ofString (arguments.headD defaultLog))
      { Config.followName with location := some (location last) } = .ok t := ht
  have hrun : (Live.start fs t
      [.out ("Resuming " ++ arguments.headD defaultLog ++ " at " ++ (location last).shown)]).run
        ⟨format, none, some quiet⟩ .never = some live := hlive
  have hreport : live.printed.reverse = report arguments last (fresh last n bytes) := by
    rw [hprinted, map_format_fresh]
    rfl
  unfold run conclude
  -- what the run comes to is known, so it stands behind a name and is not evaluated
  obtain ⟨watched, hwatched⟩ : ∃ watched, Live.run = watched := ⟨_, rfl⟩
  rw [hwatched] at hrun ⊢
  simp only [hload, hstart, hrun, hreport, find?_taken htaken]
  cases (fresh last n bytes).getLast? with
  | none => rfl
  | some l =>
    unfold statePath
    dsimp only
    cases save fs (.ofString ((arguments.drop 1).headD defaultState)) l.seekInfo <;> rfl

/-! ## Runs -/

/-- A run that met no error, on a log that is a regular file. No file is longer than a signed 64-bit
number can say. -/
structure Visit (arguments : List String) where
  before : FileSystem
  after : FileSystem
  /-- The file that the log is, and what is in it. -/
  object : Nat
  bytes : Bytes
  outcome : Outcome
  found : before.find (logPath arguments) = .ok object
  holds : before.bytes? object = some bytes
  bounded : (bytes.length : Int) ≤ maxOffset
  ran : run before arguments = some (outcome, after)
  succeeded : outcome.exitCode = 0

namespace Visit

variable {v v' : Visit arguments}

def fresh (v : Visit arguments) (last : Option Line) : List Line :=
  Resume.fresh last v.object v.bytes

def lastLine (v : Visit arguments) (last : Option Line) : Option Line :=
  (v.fresh last).getLast?.or last

/-- What a run has to do behind a last line. -/
structure Resumes (v : Visit arguments) (last : Option Line) : Prop where
  /-- It finds the position of the last line. -/
  loads : v.before.Holds (statePath arguments) (position last)
  /-- It prints what came into the log, each line in its place and once. -/
  prints : v.outcome = .ofPrinted 0 (report arguments last (v.fresh last) ++
    (v.fresh last).getLast?.toList.map (note arguments))
  /-- It leaves everything as it was if there is nothing to print. -/
  leaves : v.fresh last = [] → v.after = v.before
  /-- It saves the position of the line that it printed last. -/
  saves : ∀ l, (v.fresh last).getLast? = some l →
    v.after.Holds (statePath arguments) (some (Text.encode l.seekInfo.json))

/-- Every run does what it has to do. -/
theorem resumes (h : v.before.Holds (statePath arguments) (position last)) (hs : Sound last) :
    v.Resumes last := by
  have hran : (conclude v.before arguments last (v.fresh last)) = (v.outcome, v.after) :=
    Option.some.inj ((run_eq h hs v.found v.holds).symm.trans v.ran)
  unfold conclude at hran
  cases hlast : (v.fresh last).getLast? with
  | none =>
    simp only [hlast, Prod.mk.injEq] at hran
    refine ⟨h, ?_, fun _ => hran.2.symm, fun l hl => nomatch hlast.symm.trans hl⟩
    rw [← hran.1, hlast]
    exact congrArg _ (List.append_nil _).symm
  | some l =>
    simp only [hlast] at hran
    cases hsave : save v.before (statePath arguments) l.seekInfo with
    | error f =>
      simp only [hsave, Prod.mk.injEq] at hran
      have hcode := v.succeeded
      rw [← hran.1] at hcode
      cases hcode
    | ok saved =>
      simp only [hsave, Prod.mk.injEq] at hran
      obtain ⟨houtcome, rfl⟩ := hran
      refine ⟨h, ?_, fun hnil => ?_, fun l' hl' => ?_⟩
      · rw [← houtcome, hlast]
        rfl
      · rw [hnil] at hlast
        cases hlast
      · cases hlast.symm.trans hl'
        obtain ⟨m, -, hfind, hbytes⟩ := FileSystem.written_of_write hsave
        exact ⟨m, hfind, hbytes⟩

theorem Resumes.saved (h : v.Resumes last) :
    v.after.Holds (statePath arguments) (position (v.lastLine last)) := by
  unfold lastLine
  cases hlast : (v.fresh last).getLast? with
  | none =>
    rw [h.leaves (List.getLast?_eq_none_iff.1 hlast)]
    exact h.loads
  | some l => exact h.saves l hlast

theorem sound_lastLine (hs : Sound last) : Sound (v.lastLine last) := by
  unfold lastLine
  cases hlast : (v.fresh last).getLast? with
  | none => exact hs
  | some l => exact (sound_fresh v.bounded hlast).2.2

end Visit

/-- Runs one after the other, from certain files to others. Between them anything may happen to the
files, if the state file keeps what it holds. -/
inductive Course (arguments : List String) :
    FileSystem → List (Visit arguments) → FileSystem → Prop
  | done (fs : FileSystem) : Course arguments fs [] fs
  | change {fs fs' fs'' : FileSystem} {visits : List (Visit arguments)}
      (hkept : ∀ content, fs.Holds (statePath arguments) content →
        fs'.Holds (statePath arguments) content)
      (h : Course arguments fs' visits fs'') : Course arguments fs visits fs''
  | run (v : Visit arguments) {fs : FileSystem} {visits : List (Visit arguments)}
      (h : Course arguments v.after visits fs) : Course arguments v.before (v :: visits) fs

section Runs

variable {fs' : FileSystem} {visits : List (Visit arguments)} {v : Visit arguments}

def lastLine (last : Option Line) (visits : List (Visit arguments)) : Option Line :=
  visits.foldl (fun last v => v.lastLine last) last

/-- What each of some runs prints of the log. -/
def printed : Option Line → List (Visit arguments) → List (List Line)
  | _, [] => []
  | last, v :: visits => v.fresh last :: printed (v.lastLine last) visits

/-- Each of some runs does what it has to do behind those before it. -/
def Resumed : Option Line → List (Visit arguments) → Prop
  | _, [] => True
  | last, v :: visits => v.Resumes last ∧ Resumed (v.lastLine last) visits

/-- Whatever happens between the runs, each of them resumes, and leaves the last position behind. -/
theorem Course.resumed (h : Course arguments fs visits fs')
    (hstate : fs.Holds (statePath arguments) (position last)) (hs : Sound last) :
    Resumed last visits ∧ fs'.Holds (statePath arguments) (position (lastLine last visits)) ∧
      Sound (lastLine last visits) := by
  induction h generalizing last with
  | done fs => exact ⟨trivial, hstate, hs⟩
  | change hkept _ ih => exact ih (hkept _ hstate) hs
  | run v _ ih =>
    have hv := v.resumes hstate hs
    obtain ⟨hresumed, hrest⟩ := ih hv.saved (Visit.sound_lastLine hs)
    exact ⟨⟨hv, hresumed⟩, hrest⟩

/-! ## A log that only grows -/

/-- From one run to the next the log stays the same file, and grows. -/
def Visit.Grows (v v' : Visit arguments) : Prop := v'.object = v.object ∧ v.bytes <+: v'.bytes

/-- The log was not cut short since a last line. -/
def Visit.Covers (v : Visit arguments) (last : Option Line) : Prop :=
  ∀ l, last = some l → l.identifier = some (FileSystem.identify v.object) →
    l.offset ≤ v.bytes.length

variable {v' : Visit arguments}

theorem Visit.Covers.grows (hc : v.Covers last) (hg : v.Grows v') : v'.Covers last := by
  intro l hl hid
  rw [hg.1] at hid
  exact (hc l hl hid).trans hg.2.length_le

/-- A run without a fresh line leaves the next one where it was. -/
theorem origin_of_grows (hc : v.Covers last) (hg : v.Grows v') :
    origin last v'.object v'.bytes.length = origin last v.object v.bytes.length := by
  cases last with
  | none => rfl
  | some l =>
    rw [hg.1]
    by_cases hid : l.identifier = some (FileSystem.identify v.object)
    · have hle := hc l rfl hid
      rw [origin_of_le hid hle, origin_of_le hid (hle.trans hg.2.length_le)]
    · rw [origin_of_ne hid, origin_of_ne hid]

/-- The lines of a log that grew behind a run are those of the run, and then those that come after
the last of them. -/
theorem fresh_append (h : (v.fresh last).getLast? = some l) (new : Bytes) :
    linesFrom none (origin last v.object v.bytes.length) v.object (v.bytes ++ new) =
      v.fresh last ++ linesFrom none l.offset v.object (v.bytes ++ new) := by
  have hpos : 0 < (v.fresh last).length := by
    refine List.length_pos_of_ne_nil fun hnil => ?_
    rw [hnil] at h
    cases h
  rw [List.getLast?_eq_getElem?] at h
  have hsplit := linesFrom_append (Option.some_ne_none 0).symm h new
  rw [List.take_of_length_le] at hsplit
  · exact hsplit
  · show (v.fresh last).length ≤ _
    omega

/-- What was printed of a log that grew is what one run prints of it in the end. -/
theorem flatten_printed (hg : List.IsChain Visit.Grows (v :: visits)) (hc : v.Covers last) :
    v.bytes <+: ((v :: visits).getLast (List.cons_ne_nil _ _)).bytes ∧
    (printed last (v :: visits)).flatten =
      linesFrom none (origin last v.object v.bytes.length) v.object
        ((v :: visits).getLast (List.cons_ne_nil _ _)).bytes := by
  induction visits generalizing last v with
  | nil => exact ⟨List.prefix_rfl, List.append_nil _⟩
  | cons v' visits ih =>
    obtain ⟨hvv', hrest⟩ := List.isChain_cons_cons.1 hg
    rw [List.getLast_cons (List.cons_ne_nil _ _), printed, List.flatten_cons]
    unfold Visit.lastLine
    cases hlast : (v.fresh last).getLast? with
    | none =>
      obtain ⟨hbegins, hflatten⟩ := ih hrest (hc.grows hvv')
      refine ⟨hvv'.2.trans hbegins, ?_⟩
      rw [List.getLast?_eq_none_iff.1 hlast, List.nil_append, Option.none_or, hflatten,
        origin_of_grows hc hvv', hvv'.1]
    | some l =>
      obtain ⟨hid, hle, -⟩ := sound_fresh v.bounded hlast
      have hcovers : v.Covers (some l) := fun l' hl' _ => by
        cases hl'
        exact hle
      obtain ⟨hbegins, hflatten⟩ := ih hrest (hcovers.grows hvv')
      obtain ⟨new, hnew⟩ := hvv'.2.trans hbegins
      refine ⟨⟨new, hnew⟩, ?_⟩
      rw [Option.some_or, hflatten, origin_of_grows hcovers hvv', origin_of_le hid hle, hvv'.1,
        ← hnew, fresh_append hlast]

/-! ## All runs -/

/-- A log that is a regular file can be read in a next run: it meets no error, unless it has a
position to save and cannot. -/
theorem exists_run (hstate : fs.Holds (statePath arguments) (position last)) (hs : Sound last)
    (hn : fs.find (logPath arguments) = .ok n) (hb : fs.bytes? n = some bytes) :
    ∃ outcome after, run fs arguments = some (outcome, after) ∧
      (outcome.exitCode = 0 ∨
        ∃ s fault, save fs (statePath arguments) s = .error fault) := by
  refine ⟨(conclude fs arguments last (fresh last n bytes)).1,
    (conclude fs arguments last (fresh last n bytes)).2, run_eq hstate hs hn hb, ?_⟩
  unfold conclude
  cases (fresh last n bytes).getLast? with
  | none => exact .inl rfl
  | some l =>
    cases hsave : save fs (statePath arguments) l.seekInfo with
    | ok saved =>
      simp only [hsave]
      exact .inl rfl
    | error f => exact .inr ⟨l.seekInfo, f, hsave⟩

end Runs

/-- **Reading what is new, run after run.** Of all runs on a log and a state file that is not there
at first, each prints the complete lines that come after the last line printed before it, and saves
the position of the last of them; one that has nothing to print changes nothing. If from some run
on the log stays the same file and is not cut short, what is printed from there on is what a single
run would print of it in the end. The next run does not fail, unless it cannot save its position. -/
theorem resumes_across_runs {fs fs' : FileSystem} {visits : List (Visit arguments)}
    (hstate : fs.Holds (statePath arguments) none) (h : Course arguments fs visits fs') :
    Resumed none visits ∧
    (∀ earlier v later, visits = earlier ++ v :: later →
      List.IsChain Visit.Grows (v :: later) → v.Covers (lastLine none earlier) →
      (printed (lastLine none earlier) (v :: later)).flatten =
        linesFrom none (origin (lastLine none earlier) v.object v.bytes.length) v.object
          ((v :: later).getLast (List.cons_ne_nil _ _)).bytes) ∧
    ∀ n bytes, fs'.find (logPath arguments) = .ok n → fs'.bytes? n = some bytes →
      ∃ outcome after, run fs' arguments = some (outcome, after) ∧
        (outcome.exitCode = 0 ∨
          ∃ s fault, save fs' (statePath arguments) s = .error fault) := by
  have hnone : fs.Holds (statePath arguments) (position none) := hstate
  obtain ⟨hresumed, hsaved, hs⟩ := h.resumed hnone sound_none
  exact ⟨hresumed, fun earlier v later _ hg hc => (flatten_printed hg hc).2,
    fun n bytes hn hb => exists_run hsaved hs hn hb⟩

namespace Sample

def paths : List String := ["l", "s"]

/-- A directory with the log, and with the state file once a line was printed. -/
def files (bytes : Bytes) : Option Line → FileSystem
  | none => ⟨[.directory [([0x6C], .object 1)], .regular bytes]⟩
  | some l =>
    ⟨[.directory [([0x73], .object 2), ([0x6C], .object 1)], .regular bytes,
      .regular (Text.encode l.seekInfo.json)]⟩

def begun : Bytes := [0x61, lineFeed, 0x62]

def grown : Bytes := begun ++ [0x63, lineFeed]

def firstLine : Line := .ofText "a" 2 (some (FileSystem.identify 1))

def secondLine : Line := .ofText "bc" 5 (some (FileSystem.identify 1))

theorem fresh_begun : fresh none 1 begun = [firstLine] := by
  unfold fresh
  rw [linesFrom_eq_push (by decide)]
  decide

theorem fresh_grown : fresh (some firstLine) 1 grown = [secondLine] := by
  unfold fresh
  rw [linesFrom_eq_push (by decide)]
  decide

theorem find_log (bytes : Bytes) (last : Option Line) :
    (files bytes last).find (logPath paths) = .ok 1 := by
  cases last <;> rfl

theorem holds_state (bytes : Bytes) (last : Option Line) :
    (files bytes last).Holds (statePath paths) (position last) := by
  cases last with
  | none => exact ⟨.system .noEntry, rfl⟩
  | some l => exact ⟨2, rfl, rfl⟩

theorem save_eq (bytes : Bytes) (last : Option Line) (l : Line) :
    save (files bytes last) (statePath paths) l.seekInfo = .ok (files bytes (some l)) := by
  cases last <;> rfl

def visit {bytes : Bytes} {last : Option Line} {l : Line} (hs : Sound last)
    (hmax : (bytes.length : Int) ≤ maxOffset) (h : (fresh last 1 bytes).getLast? = some l) :
    Visit paths where
  before := files bytes last
  after := files bytes (some l)
  object := 1
  bytes
  outcome := .ofPrinted 0 (report paths last (fresh last 1 bytes) ++ [note paths l])
  found := find_log bytes last
  holds := by cases last <;> rfl
  bounded := hmax
  ran := by
    rw [run_eq (holds_state bytes last) hs (find_log bytes last) (by cases last <;> rfl)]
    unfold conclude
    simp only [h, save_eq]
  succeeded := rfl

theorem sound_firstLine : Sound (some firstLine) := by
  intro l hl
  cases hl
  exact ⟨⟨1, rfl⟩, by decide⟩

def first : Visit paths :=
  visit sound_none (by decide) (by rw [fresh_begun]; rfl : (fresh none 1 begun).getLast? = _)

def second : Visit paths :=
  visit sound_firstLine (by decide)
    (by rw [fresh_grown]; rfl : (fresh (some firstLine) 1 grown).getLast? = _)

end Sample

theorem resumes_across_runs_twice :
    Resumed none [Sample.first, Sample.second] ∧
      (printed none [Sample.first, Sample.second]).flatten = linesFrom none 0 1 Sample.grown ∧
      ∃ outcome after,
        run (Sample.files Sample.grown (some Sample.secondLine)) Sample.paths =
          some (outcome, after) ∧ outcome.exitCode = 0 := by
  have hcourse : Course Sample.paths (Sample.files Sample.begun none) [Sample.first, Sample.second]
      (Sample.files Sample.grown (some Sample.secondLine)) := by
    refine .run Sample.first (.change (fun content h => ?_) (.run Sample.second (.done _)))
    obtain rfl := h.unique (Sample.holds_state Sample.begun (some Sample.firstLine))
    exact Sample.holds_state Sample.grown (some Sample.firstLine)
  obtain ⟨hresumed, hprinted, hnext⟩ :=
    resumes_across_runs (Sample.holds_state Sample.begun none) hcourse
  refine ⟨hresumed, ?_, ?_⟩
  · refine hprinted [] Sample.first [Sample.second] rfl ?_ fun _ h => nomatch h
    exact List.isChain_cons_cons.2 ⟨⟨rfl, List.prefix_append _ _⟩, List.isChain_singleton _⟩
  · obtain ⟨outcome, after, hrun, hcode | ⟨s, fault, hsave⟩⟩ :=
      hnext 1 Sample.grown (Sample.find_log _ _) rfl
    · exact ⟨outcome, after, hrun, hcode⟩
    · cases hsave

end LogFollower.Resume
