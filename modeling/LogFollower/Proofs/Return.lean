import LogFollower.Proofs.Abreast
import LogFollower.Proofs.Positions

/-!
# A file that leaves its path and comes back

A file that is found gone is read to its end and given up; when it comes back, reading goes on at
the committed offset, if the configuration asks for that. `Given` says what that offset is for: the
lines given out tile the file up to it, and if only complete lines are wanted they are the lines of
the file up to it. A section that is read from there carries this on (`Given.section`), whether its
last line was given up when the file was left or is read again when it comes back.

`lines_of_returning_file` is what follows for a run in which a file that only grows is moved away
and back: no byte is skipped and none is given out twice.
-/

namespace LogFollower

/-- A file only grows, and its path leads to it or nowhere: it may be moved away and back. -/
def ComesAndGoes (path : Path) (n : Nat) (w : World) : Move → Prop
  | .edit change => (∀ m, (w.fs.edit change).find path = .ok m → m = n) ∧
      ∃ old more, w.fs.bytes? n = some old ∧ (w.fs.edit change).bytes? n = some (old ++ more)
  | _ => True

/-! ## Lines that tile a file -/

namespace Section

/-- A file that is read from an offset on, as one section. -/
def ofFile (n start : Nat) (bytes : Bytes) : Section := ⟨n, start, [(start, bytes.drop start)], []⟩

@[simp] theorem input_ofFile (n start : Nat) (bytes : Bytes) :
    (ofFile n start bytes).input = bytes.drop start := by
  simp [input, ofFile]

variable {s : Section} {limit : Option Nat} {n o start stop : Nat} {bytes : Bytes}
  {lines more : List Line}

theorem slice_eq (hin : s.input <+: bytes.drop s.base) (hstart : s.base ≤ start)
    (hstop : stop ≤ s.base + s.input.length) (hlt : start < stop) :
    s.slice start stop = (bytes.drop start).take (stop - start) := by
  obtain ⟨rest, hrest⟩ := hin
  have hdrop : bytes.drop start = s.input.drop (start - s.base) ++ rest := by
    rw [← List.drop_append_of_le_length (by omega), hrest, List.drop_drop,
      Nat.add_sub_cancel' hstart]
  unfold slice
  rw [hdrop, List.take_append_of_le_length (by rw [List.length_drop]; omega)]

/-- Lines that tile what was read of a file tile the file. -/
theorem Covers.within (h : s.Covers start lines) (hin : s.input <+: bytes.drop s.base)
    (hobject : s.object = n) (ho : o ≤ s.base) (hbase : s.base ≤ bytes.length)
    (hstart : s.base ≤ start) : (ofFile n o bytes).Covers start lines := by
  have hlen := hin.length_le
  rw [List.length_drop] at hlen
  have hend : (ofFile n o bytes).base + (ofFile n o bytes).input.length = bytes.length := by
    rw [input_ofFile, List.length_drop]
    exact Nat.add_sub_cancel' (ho.trans hbase)
  induction lines generalizing start with
  | nil => trivial
  | cons l lines ih =>
    obtain ⟨hgives, hmore⟩ := h
    have hread := hgives.read
    have hlt := hgives.start_lt
    refine ⟨⟨hobject ▸ hgives.identity, hlt, by rw [hend]; omega, ?_⟩,
      ih hmore (hstart.trans hlt.le)⟩
    have hslice : (ofFile n o bytes).slice start l.offset = s.slice start l.offset := by
      rw [slice_eq hin hstart hread hlt]
      exact slice_eq (by rw [input_ofFile]; exact List.prefix_rfl) (ho.trans hstart)
        (by rw [hend]; omega) hlt
    rw [hslice]
    exact hgives.text

theorem Covers.append (h : s.Covers start lines) (hl : ∀ l ∈ lines, l.isError = false)
    (hmore : s.Covers (lastOffset start lines) more) : s.Covers start (lines ++ more) := by
  induction lines generalizing start with
  | nil => exact hmore
  | cons l lines ih =>
    obtain ⟨hline, hlines⟩ := List.forall_mem_cons.1 hl
    have hoffset : lastOffset start [l] = l.offset := by
      unfold lastOffset texts
      rw [List.filter_singleton, hline]
      rfl
    rw [← List.singleton_append, lastOffset_append, hoffset] at hmore
    exact ⟨h.1, ih h.2 hlines hmore⟩

theorem not_error_of_script (flushed : Bool) : ∀ l ∈ s.script limit flushed, l.isError = false :=
  List.forall_mem_map.2 fun _ _ => rfl

theorem committed_le (s : Section) (hl : limit ≠ some 0) (flushed : Bool) :
    s.base ≤ (s.splitter limit flushed).committed ∧
      (s.splitter limit flushed).committed ≤ s.base + s.input.length := by
  cases flushed with
  | true => exact ⟨Nat.le_add_right _ _, le_rfl⟩
  | false =>
    have hconsumed := Splitter.consumed_after hl s.base s.input
    refine ⟨Nat.le_add_right _ _, ?_⟩
    rw [← hconsumed]
    exact Nat.le_add_right _ _

end Section

/-- What was given out of a file up to an offset: lines that tile it, and its lines up to there if
only complete lines are wanted, however the file goes on. -/
structure Given (config : Config) (n o : Nat) (lines : List Line) (stop : Nat) (bytes : Bytes) :
    Prop where
  covers : (Section.ofFile n o bytes).Covers o lines
  texts : ∀ l ∈ lines, l.isError = false
  stop_eq : stop = lastOffset o lines
  start_le : o ≤ stop
  stop_le : stop ≤ bytes.length
  whole : config.completeLines = true → ∀ more,
    linesFrom config.maxLineSize o n (bytes ++ more) =
      lines ++ linesFrom config.maxLineSize stop n (bytes ++ more)

namespace Given

variable {config : Config} {n o stop : Nat} {lines : List Line} {bytes : Bytes} {s : Section}

theorem nothing (hle : o ≤ bytes.length) : Given config n o [] o bytes :=
  ⟨trivial, nofun, rfl, le_rfl, hle, fun _ _ => rfl⟩

theorem grow (h : Given config n o lines stop bytes) (more : Bytes) :
    Given config n o lines stop (bytes ++ more) where
  covers := by
    have hle := h.start_le.trans h.stop_le
    refine h.covers.within ?_ rfl le_rfl (hle.trans ?_) le_rfl
    · rw [Section.input_ofFile]
      show bytes.drop o <+: (bytes ++ more).drop o
      rw [List.drop_append_of_le_length hle]
      exact List.prefix_append _ _
    · rw [List.length_append]
      exact Nat.le_add_right _ _
  texts := h.texts
  stop_eq := h.stop_eq
  start_le := h.start_le
  stop_le := by
    have hle := h.stop_le
    rw [List.length_append]
    omega
  whole := fun hc rest => by
    rw [List.append_assoc]
    exact h.whole hc (more ++ rest)

/-- A section that is read from the offset on carries it on. -/
theorem «section» (h : Given config n o lines s.base bytes) (hl : config.maxLineSize ≠ some 0)
    (hobject : s.object = n) (hin : s.input <+: bytes.drop s.base) {flushed : Bool}
    (hf : flushed = true → config.completeLines = false) :
    Given config n o (lines ++ s.script config.maxLineSize flushed)
      (s.splitter config.maxLineSize flushed).committed bytes where
  covers := by
    refine h.covers.append h.texts ?_
    rw [← h.stop_eq]
    exact (s.covers_script hl flushed).within hin hobject h.start_le h.stop_le le_rfl
  texts := List.forall_mem_append.2 ⟨h.texts, Section.not_error_of_script flushed⟩
  stop_eq := by rw [lastOffset_append, ← h.stop_eq, Section.committed_splitter s hl]
  start_le := h.start_le.trans (s.committed_le hl flushed).1
  stop_le := by
    have hlen := hin.length_le
    have hle := (s.committed_le hl flushed).2
    have hbase := h.stop_le
    rw [List.length_drop] at hlen
    omega
  whole := fun hc more => by
    obtain rfl : flushed = false := Bool.eq_false_iff.2 fun hflushed =>
      absurd ((hf hflushed).symm.trans hc) nofun
    have hin' : s.input <+: (bytes ++ more).drop s.base := by
      rw [List.drop_append_of_le_length h.stop_le]
      exact hin.trans (List.prefix_append _ _)
    rw [h.whole hc more, ← hobject, Section.linesFrom_eq hl hin', List.append_assoc]

theorem mono (h : Given config n o lines stop bytes) {first : List Line} (hp : first <+: lines) :
    (Section.ofFile n o bytes).Covers o first ∧
      (config.completeLines = true → first <+: linesFrom config.maxLineSize o n bytes) := by
  refine ⟨h.covers.mono hp, fun hc => hp.trans ?_⟩
  have hwhole := h.whole hc []
  rw [List.append_nil] at hwhole
  rw [hwhole]
  exact List.prefix_append _ _

end Given

/-! ## Leaving and coming back -/

namespace Tailer

open Engine

variable {fs : FileSystem} {now : Nat} {t t' : Tailer}

theorem Turn.left (h : Turn fs now t t') (ho : t.engine.source.isAway = false)
    (ha : t'.engine.source.isAway = true) :
    t.Works .leave ∧ t'.queue = t.queue ∧ t'.engine.splitter = t.engine.splitter ∧
      t'.engine.source = .away t.engine.identifier ∧ t'.engine.phase = .ready .arm := by
  cases h with
  | leave hw => exact ⟨hw, rfl, rfl, rfl, rfl⟩
  | «open» | rewind | read => cases ha
  | _ => exact absurd (ho.symm.trans ha) nofun

theorem Turn.came (h : Turn fs now t t') (ha : t.engine.source.isAway = true)
    (ho : t'.engine.source.isAway = false) :
    ∃ n, fs.openFile t.engine.path = .ok n ∧ t'.queue = t.queue ∧
      t'.engine.source = .opened ⟨n, FileSystem.identify n,
        reopenOffset t.engine.config t.engine.stood (FileSystem.identify n)⟩ ∧
      t'.engine.phase = .ready (.read .catchUp) := by
  cases h with
  | @«open» n offset hw hopen hp => exact ⟨n, hopen, rfl, by rw [hp], rfl⟩
  | rewind _ hs | read _ hs => rw [hs] at ha; cases ha
  | leave => cases ho
  | _ => exact absurd (ha.symm.trans ho) nofun

/-- An engine that waits for a change waited before, or has just looked. -/
theorem Turn.waits (h : Turn fs now t t') {due : Nat} {next : Stage}
    (hp : t'.engine.phase = .asleep due true next) :
    t' = t ∨ ∃ stage next, t.Works stage ∧ Waits fs t.engine stage next := by
  cases h with
  | idle => exact .inl rfl
  | wait hw hwait => exact .inr ⟨_, _, hw, hwait⟩
  | _ => cases hp

end Tailer

theorem World.Accounted.told_away {w : World} {t : Tailer} (h : w.Accounted)
    (ht : Tailer.Turn w.fs w.now w.tailer t) (ha : w.tailer.engine.source.isAway = true)
    (ha' : t.engine.source.isAway = true) :
    LogFollower.told (w.after t).sections = LogFollower.told w.sections := by
  obtain ⟨new, hqueue, hnew⟩ := ht.sent
  obtain ⟨previous, hp⟩ := Ledger.away_of ha'
  have hnone : texts new = [] := by
    have hprefix := hnew.filter (!·.isError)
    exact List.prefix_nil.1 ((h.ledger.shut ha).2 ▸ hprefix)
  show LogFollower.told (noteLines (t.queue.drop w.tailer.queue.length)
    (noteSource w.fs w.sections w.tailer.engine.source t.engine.source)) = _
  rw [hqueue, List.drop_left, hp, noteSource_away, told_noteLines fun _ => hnone, hnone,
    List.append_nil]

namespace Return

open Tailer Engine

variable {path : Path} {config : Config} {n o : Nat} {w : World} {s : Section}
  {past : List Section} {bytes : Bytes} {t : Tailer}

/-- The engine reads the file, from where reading stood before. -/
structure Reads (path : Path) (config : Config) (n o : Nat) (w : World) (bytes : Bytes)
    (s : Section) (past : List Section) : Prop where
  abreast : Abreast path w s past bytes
  object : s.object = n
  given : Given config n o (told past) s.base bytes

/-- The engine has left the file. -/
structure Left (path : Path) (config : Config) (n o : Nat) (w : World) (bytes : Bytes) : Prop where
  away : w.tailer.engine.source = .away (some (FileSystem.identify n))
  file : w.fs.bytes? n = some bytes
  given : Given config n o (told w.sections) w.tailer.engine.splitter.committed bytes
  quiet : w.looked = true → ∀ due next, w.tailer.engine.phase = .asleep due true next →
    w.fs.find path ≠ .ok n

/-- A tailer on a file that comes and goes. -/
structure Follows (path : Path) (config : Config) (n o : Nat) (w : World) : Prop where
  accounted : w.Accounted
  config_eq : w.tailer.engine.config = config
  path_eq : w.tailer.engine.path = path
  resumes : config.resumeSameFile = true
  alone : ∀ m, w.fs.find path = .ok m → m = n
  stands : ∃ bytes, (∃ s past, Reads path config n o w bytes s past) ∨ Left path config n o w bytes

theorem Follows.limit_ne_zero (h : Follows path config n o w) : config.maxLineSize ≠ some 0 :=
  limit_ne_zero_of_valid (h.config_eq ▸ h.accounted.sound.valid)

/-- The lines of the section that is open, those that are still to come included, carry on what was
given out before. -/
theorem Reads.given_script (hf : Follows path config n o w)
    (h : Reads path config n o w bytes s past) :
    ∃ flushed, s.Open config.maxLineSize w.tailer.engine flushed ∧
      Given config n o (told past ++ s.script config.maxLineSize flushed)
        w.tailer.engine.splitter.committed bytes := by
  obtain ⟨flushed, hs⟩ := h.abreast.open hf.accounted
  rw [hf.config_eq] at hs
  refine ⟨flushed, hs, ?_⟩
  rw [hs.cutting]
  exact h.given.section hf.limit_ne_zero h.object h.abreast.input
    fun hflushed => hf.config_eq ▸ (hs.last hflushed).2

theorem Reads.leave (hf : Follows path config n o w) (h : Reads path config n o w bytes s past)
    (ht : Turn w.fs w.now w.tailer t) (ha : t.engine.source.isAway = true) :
    Left path config n o (w.after t) bytes := by
  obtain ⟨hw, hqueue, hsplitter, hsource, hphase⟩ := ht.left (by rw [h.abreast.handle]; rfl) ha
  obtain ⟨flushed, hs, hgiven⟩ := h.given_script hf
  have hlines := hs.rest (by rw [hw.1]; exact nofun)
  rw [hw.1, show texts (Phase.ready .leave).inHand = [] from rfl, List.append_nil] at hlines
  have hid : w.tailer.engine.identifier = some (FileSystem.identify n) := by
    unfold Engine.identifier
    rw [h.abreast.handle, ← h.object]
    rfl
  refine ⟨hsource.trans (congrArg _ hid), h.object ▸ h.abreast.file, ?_, fun _ due next hp => ?_⟩
  · show Given config n o (told (w.after t).sections) t.engine.splitter.committed bytes
    rw [World.sections_after_leave hqueue hsource, h.abreast.sections, told_cons, hsplitter, hlines]
    exact hgiven
  · cases hphase.symm.trans hp

theorem Left.stay (hf : Follows path config n o w) (h : Left path config n o w bytes)
    (ht : Turn w.fs w.now w.tailer t) (ha : t.engine.source.isAway = true) :
    Left path config n o (w.after t) bytes := by
  have haway : w.tailer.engine.source.isAway = true := by rw [h.away]; rfl
  refine ⟨?_, h.file, ?_, fun hl due next hp => ?_⟩
  · show t.engine.source = _
    cases ht with
    | leave hw =>
      have := hf.accounted.sound.fits .leave hw.stage_eq
      rw [haway] at this
      cases this
    | «open» | rewind | read => cases ha
    | _ => exact h.away
  · show Given config n o (told (w.after t).sections) t.engine.splitter.committed bytes
    rw [hf.accounted.told_away ht haway ha, ht.splitter_eq hf.accounted.sound.fits ha]
    exact h.given
  · obtain rfl | ⟨stage, next', hw, hwaits⟩ := ht.waits hp
    · have hp : w.tailer.engine.phase = .asleep due true next := hp
      exact h.quiet (World.looked_of_after hl (by rw [hp]; exact fun _ => nofun)) due next hp
    · cases hwaits with
      | missing hfind =>
        rw [hf.path_eq] at hfind
        exact fun hn => absurd (hfind.symm.trans hn) nofun
      | same hs => rw [h.away] at hs; cases hs

/-- A file that comes back is read on where it was left. -/
theorem Left.open (hf : Follows path config n o w) (h : Left path config n o w bytes)
    (ht : Turn w.fs w.now w.tailer t) (ho : t.engine.source.isAway = false) :
    ∃ s, Reads path config n o (w.after t) bytes s w.sections := by
  obtain ⟨m, hopen, hqueue, hsource, hphase⟩ := ht.came (by rw [h.away]; rfl) ho
  rw [hf.path_eq] at hopen
  obtain rfl := hf.alone m (FileSystem.find_of_openFile hopen)
  have hoffset : reopenOffset w.tailer.engine.config w.tailer.engine.stood
      (FileSystem.identify m) = w.tailer.engine.splitter.committed := by
    unfold reopenOffset Engine.stood
    rw [h.away, hf.config_eq]
    simp [hf.resumes, ReadPosition.resolve]
  rw [hoffset] at hsource
  refine ⟨_, .place (World.sections_after_open hqueue h.away hsource) hsource rfl h.file
    h.given.stop_le fun due next hp => ?_, rfl, h.given⟩
  cases hphase.symm.trans hp

theorem Follows.work (h : Follows path config n o w) : Follows path config n o (w.move .work) := by
  have ht := turn_step h.accounted.sound.fits w.fs w.now
  refine ⟨h.accounted.move _, ht.config_eq.trans h.config_eq, ht.path_eq.trans h.path_eq, h.resumes,
    h.alone, ?_⟩
  obtain ⟨bytes, ⟨s, past, hs⟩ | hleft⟩ := h.stands
  · cases hsrc : (w.tailer.step w.fs w.now).engine.source.isAway with
    | false =>
      obtain ⟨s', hs', hobject, hbase⟩ := hs.abreast.turn h.accounted h.path_eq ht hsrc
      exact ⟨bytes, .inl ⟨s', past, hs', hobject.trans hs.object, hbase ▸ hs.given⟩⟩
    | true => exact ⟨bytes, .inr (hs.leave h ht hsrc)⟩
  · cases hsrc : (w.tailer.step w.fs w.now).engine.source.isAway with
    | false =>
      obtain ⟨s, hs⟩ := hleft.open h ht hsrc
      exact ⟨bytes, .inl ⟨s, w.sections, hs⟩⟩
    | true => exact ⟨bytes, .inr (hleft.stay h ht hsrc)⟩

theorem Follows.move (h : Follows path config n o w) {m : Move} (hm : ComesAndGoes path n w m) :
    Follows path config n o (w.move m) := by
  have accounted := h.accounted.move m
  obtain ⟨bytes, hstands⟩ := h.stands
  have outer (hwork : m ≠ .work) (hedit : ∀ change, m ≠ .edit change) :
      ∃ bytes, (∃ s past, Reads path config n o (w.move m) bytes s past) ∨
        Left path config n o (w.move m) bytes := by
    refine ⟨bytes, ?_⟩
    obtain ⟨s, past, hs⟩ | hleft := hstands
    · exact .inl ⟨s, past, hs.abreast.outer hwork hedit, hs.object, hs.given⟩
    · right
      cases m with
      | work => exact absurd rfl hwork
      | edit change => exact absurd rfl (hedit change)
      | _ => exact ⟨hleft.away, hleft.file, hleft.given, hleft.quiet⟩
  cases m with
  | work => exact h.work
  | edit change =>
    obtain ⟨halone, old, more, hold, hnew⟩ := hm
    refine ⟨accounted, h.config_eq, h.path_eq, h.resumes, halone, bytes ++ more, ?_⟩
    obtain ⟨s, past, hs⟩ | hleft := hstands
    · obtain rfl := Option.some.inj (hold.symm.trans (hs.object ▸ hs.abreast.file))
      exact .inl ⟨s, past, hs.abreast.grow (hs.object ▸ hnew), hs.object, hs.given.grow more⟩
    · obtain rfl := Option.some.inj (hold.symm.trans hleft.file)
      exact .inr ⟨hleft.away, hnew, hleft.given.grow more, nofun⟩
  | _ =>
    exact { h with
      accounted
      stands := outer nofun fun _ => nofun }

/-- At every moment, what was given out tiles the file, and is the beginning of its lines if only
complete lines are wanted. -/
theorem Follows.told_begins (h : Follows path config n o w) :
    ∃ now, w.fs.bytes? n = some now ∧ (Section.ofFile n o now).Covers o (told w.sections) ∧
      (config.completeLines = true →
        told w.sections <+: linesFrom config.maxLineSize o n now) := by
  obtain ⟨bytes, ⟨s, past, hs⟩ | hleft⟩ := h.stands
  · obtain ⟨flushed, ho, hgiven⟩ := hs.given_script h
    refine ⟨bytes, hs.object ▸ hs.abreast.file, ?_⟩
    rw [hs.abreast.sections, told_cons]
    exact hgiven.mono ((List.prefix_append_right_inj _).2 ho.sent)
  · exact ⟨bytes, hleft.file, hleft.given.mono List.prefix_rfl⟩

/-- When the engine waits and the file is there, no line is left behind those given out. -/
theorem Follows.told_whole (h : Follows path config n o w) (hq : w.Quiet)
    (hn : w.fs.find path = .ok n) {now : Bytes} (hb : w.fs.bytes? n = some now) :
    linesFrom config.maxLineSize (lastOffset o (told w.sections)) n now = [] ∧
      (config.completeLines = true →
        told w.sections = linesFrom config.maxLineSize o n now) := by
  obtain ⟨bytes, ⟨s, past, hs⟩ | hleft⟩ := h.stands
  · obtain rfl := Option.some.inj (hb.symm.trans (hs.object ▸ hs.abreast.file))
    obtain ⟨-, hin, -, hlines⟩ := hs.abreast.caughtUp h.accounted hq
    rw [h.config_eq, ← Section.script_eq_linesFrom hin] at hlines
    have hgiven := hs.given.section h.limit_ne_zero hs.object hs.abreast.input
      (show false = true → _ from nofun)
    have htold : told w.sections = told past ++ s.script config.maxLineSize false := by
      rw [hs.abreast.sections, told_cons, hlines]
    have hnone : linesFrom config.maxLineSize (s.splitter config.maxLineSize false).committed n
        now = [] := by
      have hsplit := Section.linesFrom_eq h.limit_ne_zero hs.abreast.input
      rw [← Section.script_eq_linesFrom hin, hs.object] at hsplit
      exact List.self_eq_append_right.1 hsplit
    rw [htold, ← hgiven.stop_eq]
    refine ⟨hnone, fun hc => ?_⟩
    have hwhole := hgiven.whole hc []
    rw [List.append_nil, hnone, List.append_nil] at hwhole
    exact hwhole.symm
  · obtain ⟨hlooked, due, next, hp⟩ := hq
    exact absurd hn (hleft.quiet hlooked due next hp)

theorem follows_start {fs : FileSystem} (h : Tailer.start fs path config = .ok t)
    (hr : config.resumeSameFile = true) (hn : fs.find path = .ok n)
    (hb : fs.bytes? n = some bytes)
    (ho : config.startOffset (FileSystem.identify n) bytes.length = .ok o)
    (hle : o ≤ bytes.length) : Follows path config n o (World.start fs t) := by
  have accounted := World.accounted_start h
  have abreast := abreast_start h hn hb ho hle
  obtain rfl := start_opened h hn hb ho
  exact ⟨accounted, rfl, rfl, hr, fun m hm => Except.ok.inj (hm.symm.trans hn), bytes,
    .inl ⟨_, [], abreast, rfl, .nothing hle⟩⟩

end Return

/-- A file that comes back is read on where it was left. While it is moved away from its path
and back, the lines given out tile it from where the tailer started, with growing offsets. When the
engine waits and the file is at its path, no complete line is left behind them; and if only complete
lines are given out, they are the lines of the file. -/
theorem lines_of_returning_file {fs : FileSystem} {path : Path} {config : Config} {t : Tailer}
    {n o : Nat} {bytes : Bytes} (h : Tailer.start fs path config = .ok t)
    (hr : config.resumeSameFile = true) (hn : fs.find path = .ok n)
    (hb : fs.bytes? n = some bytes)
    (ho : config.startOffset (FileSystem.identify n) bytes.length = .ok o)
    (hle : o ≤ bytes.length) {w : World}
    (hw : (World.start fs t).Reaches (ComesAndGoes path n) w) :
    ∃ now lines, w.fs.bytes? n = some now ∧ lines = texts (w.taken ++ w.tailer.queue) ∧
      (Section.ofFile n o now).Covers o lines ∧ (lines.map Line.offset).Pairwise (· < ·) ∧
      (config.completeLines = true → lines <+: linesFrom config.maxLineSize o n now) ∧
      (w.Quiet → w.fs.find path = .ok n →
        linesFrom config.maxLineSize (lastOffset o lines) n now = [] ∧
          (config.completeLines = true → lines = linesFrom config.maxLineSize o n now)) := by
  have hreached : Return.Follows path config n o w :=
    hw.invariant (Return.follows_start h hr hn hb ho hle) fun u m hu hm => hu.move hm
  obtain ⟨now, hnow, hcovers, hbegins⟩ := hreached.told_begins
  rw [← hreached.accounted.told] at hcovers hbegins
  refine ⟨now, _, hnow, rfl, hcovers, hcovers.pairwise, hbegins, fun hq hfind => ?_⟩
  rw [hreached.accounted.told]
  exact hreached.told_whole hq hfind hnow

namespace Sample

/-- Go on where reading stood when the same file comes back. -/
def resumingConfig : Config := { config with resumeSameFile := true }

def resuming : Tailer := { tailer with engine := { tailer.engine with config := resumingConfig } }

theorem start_resuming : Tailer.start files name resumingConfig = .ok resuming := by decide

/-- The file is moved away with the beginning of a line in it, and the engine gives it up. -/
def left : World :=
  (((World.start files resuming).works 3).move (.edit (.rename name other))).works 10

def returned : World :=
  ((((left.move (.edit (.append other [0x7A, lineFeed]))).move (.edit (.rename other name))).move
    (.wait 250)).works 9).move (.receive none)

theorem reaches_returned :
    (World.start files resuming).Reaches (ComesAndGoes name 1) returned := by
  have hstart : (World.start files resuming).Reaches (ComesAndGoes name 1)
      (World.start files resuming) := .here
  have gone {fs : FileSystem} (h : fs.find name = .error (.system .noEntry)) :
      ∀ m, fs.find name = .ok m → m = 1 := fun m hm => by cases h.symm.trans hm
  have hmoved := (World.reaches_works hstart (fun _ => trivial) 3).move
    (m := .edit (.rename name other))
    ⟨gone (by decide), firstBytes, [], by decide, by decide⟩
  have hgrown := (World.reaches_works hmoved (fun _ => trivial) 10).move
    (m := .edit (.append other [0x7A, lineFeed]))
    ⟨gone (by decide), firstBytes, [0x7A, lineFeed], by decide, by decide⟩
  have hback := hgrown.move (m := .edit (.rename other name))
    ⟨fun m hm => Except.ok.inj (hm.symm.trans (by decide)), firstBytes ++ [0x7A, lineFeed], [],
      by decide, by decide⟩
  have hwoken := hback.move (m := .wait 250) trivial
  exact (World.reaches_works hwoken (fun _ => trivial) 9).move (m := .receive none) trivial

end Sample

theorem lines_of_returning_file_returned :
    Sample.returned.Quiet ∧ Sample.returned.taken.map Line.offset = [3, 4, 6] ∧
      ∃ now lines, Sample.returned.fs.bytes? 1 = some now ∧
        lines = texts (Sample.returned.taken ++ Sample.returned.tailer.queue) ∧
        (Section.ofFile 1 0 now).Covers 0 lines ∧ (lines.map Line.offset).Pairwise (· < ·) ∧
        linesFrom none (lastOffset 0 lines) 1 now = [] := by
  have hfind : Sample.files.find Sample.name = .ok 1 := by decide
  have hbytes : Sample.files.bytes? 1 = some Sample.firstBytes := by decide
  have hquiet : Sample.returned.Quiet := ⟨by decide, 500, .clear, by decide⟩
  obtain ⟨now, lines, hnow, hlines, hcovers, hgrow, -, hwhole⟩ :=
    lines_of_returning_file Sample.start_resuming rfl hfind hbytes (by decide) (Nat.zero_le _)
      Sample.reaches_returned
  exact ⟨hquiet, by decide, now, lines, hnow, hlines, hcovers, hgrow,
    (hwhole hquiet (by decide)).1⟩

end LogFollower
