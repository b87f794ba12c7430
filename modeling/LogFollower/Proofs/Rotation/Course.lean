import LogFollower.Proofs.Files
import LogFollower.Proofs.Ledger

/-!
# The course of a tailer over files

Files come to a path one after another, and each only grows. `Reading` and `Seeking` say where a
tailer that follows the path stands among them: the files that it is done with were given out as
`shares` says, one may be open, and one more may have come to the path since. `Reading.turn` and
`Seeking.turn` say that a step leads from there to there.

Growth that goes on while a file is read does no harm, because what was read of a file is the
beginning of what it holds (`Reading.read`). It is only behind the drain that the file must stay as
it is, and by then the path leads elsewhere (`Stands`).
-/

namespace LogFollower

/-- The lines of a file that is read from an offset on. Of a file that was left, the rest counts as
a line, unless only complete lines are wanted. -/
def share (config : Config) (start : Nat) (left : Bool) (n : Nat) (bytes : Bytes) : List Line :=
  (Greedy.pieces config.maxLineSize start (bytes.drop start) ++
    if left ∧ config.completeLines = false then
      Greedy.remainder config.maxLineSize start (bytes.drop start)
    else []).map (Line.ofPiece (some (FileSystem.identify n)))

theorem share_eq (config : Config) (start : Nat) {left : Bool}
    (h : left = false ∨ config.completeLines = true) (n : Nat) (bytes : Bytes) :
    share config start left n bytes =
      (Greedy.pieces config.maxLineSize start (bytes.drop start)).map
        (Line.ofPiece (some (FileSystem.identify n))) := by
  unfold share
  rw [if_neg, List.append_nil]
  rintro ⟨hleft, hc⟩
  rcases h with h | h
  · cases h.symm.trans hleft
  · cases h.symm.trans hc

/-- The lines of several files, the first of them read from an offset on and the others from their
beginning. -/
def shares (config : Config) (fs : FileSystem) (left : Nat → Bool) (start : Nat) :
    List Nat → List Line
  | [] => []
  | n :: more =>
    share config start (left n) n ((fs.bytes? n).getD []) ++ shares config fs left 0 more

theorem shares_concat (config : Config) (fs : FileSystem) (left : Nat → Bool) (start n : Nat)
    (done : List Nat) :
    shares config fs left start (done ++ [n]) = shares config fs left start done ++
      share config (if done = [] then start else 0) (left n) n ((fs.bytes? n).getD []) := by
  induction done generalizing start with
  | nil => simp [shares]
  | cons k done ih =>
    rw [List.cons_append, shares, ih, shares, if_neg (List.cons_ne_nil k done), ite_self,
      List.append_assoc]

theorem shares_congr {config : Config} {fs fs' : FileSystem} {left left' : Nat → Bool}
    (start : Nat) {files : List Nat}
    (h : ∀ n ∈ files, fs'.bytes? n = fs.bytes? n ∧ left' n = left n) :
    shares config fs' left' start files = shares config fs left start files := by
  induction files generalizing start with
  | nil => rfl
  | cons n files ih =>
    obtain ⟨⟨hb, hl⟩, hmore⟩ := List.forall_mem_cons.1 h
    rw [shares, shares, hb, hl, ih 0 hmore]

/-- What a tailer sets out with. -/
structure Outset where
  path : Path
  config : Config
  /-- The offset that reading starts at. -/
  offset : Nat
  /-- The length that the file had then. -/
  length : Nat

/-- Where reading of the first file starts: at its offset, or at the beginning if that was behind
the end of the file. -/
def Outset.Start (c : Outset) (start : Nat) : Prop :=
  start = c.offset ∨ start = 0 ∧ c.length < c.offset

namespace Rotation

variable {c : Outset} {w : World} {s : Section} {past : List Section} {done ahead : List Nat}
  {bytes : Bytes} {start : Nat}

/-- What the path leads to: where it led before, or nowhere, or to one file more. -/
def Leads (path : Path) (fs : FileSystem) (here : Option Nat) : List Nat → Prop
  | [] => ∀ m, fs.find path = .ok m → here = some m
  | [m] => fs.find path = .ok m
  | _ => False

/-- What holds at a stage of reading a file. From the drain on the path leads elsewhere, and behind
the drain the file was read to its end. -/
def Stands (path : Path) (fs : FileSystem) (s : Section) (bytes : Bytes) (e : Engine) :
    Stage → Prop
  | .read .catchUp => True
  | .clear => True
  | .check => True
  | .read .drain => fs.find path ≠ .ok s.object
  | .flush => fs.find path ≠ .ok s.object ∧ s.input = bytes.drop s.base
  | .leave => fs.find path ≠ .ok s.object ∧ s.input = bytes.drop s.base ∧
      (e.config.completeLines = false → e.splitter.held = [])
  | _ => False

/-- The engine reads a file. It is done with the files before, and one more may have come. -/
structure Reading (c : Outset) (w : World) (s : Section) (past : List Section)
    (done ahead : List Nat) (bytes : Bytes) (start : Nat) : Prop where
  sections : w.sections = s :: past
  handle : w.tailer.engine.source =
    .opened ⟨s.object, s.identifier, s.base + s.input.length⟩
  file : w.fs.bytes? s.object = some bytes
  input : s.input <+: bytes.drop s.base
  base : s.base = if done = [] then start else 0
  begins : c.Start start
  given : told past = shares c.config w.fs (fun _ => true) start done
  leads : Leads c.path w.fs (some s.object) ahead
  stands : ∃ stage, w.tailer.engine.phase.stage? = some stage ∧
    Stands c.path w.fs s bytes w.tailer.engine stage
  quiet : w.looked = true → ∀ due next, w.tailer.engine.phase = .asleep due true next →
    w.fs.find c.path = .ok s.object ∧ s.input = bytes.drop s.base

/-- The engine has no file open. It is done with some files, and one more may have come. -/
structure Seeking (c : Outset) (w : World) (done ahead : List Nat) (start : Nat) : Prop where
  away : ∃ previous, w.tailer.engine.source = .away previous ∧
    ∀ n, previous = some (FileSystem.identify n) → n ∈ done
  first : done = [] → start = 0
  begins : c.Start start
  given : told w.sections = shares c.config w.fs (fun _ => true) start done
  leads : Leads c.path w.fs none ahead
  quiet : w.looked = true → ∀ due next, w.tailer.engine.phase = .asleep due true next →
    ∀ m, w.fs.find c.path ≠ .ok m

/-- Where a tailer stands among the files that came to its path. -/
inductive Whereabouts (c : Outset) (files : List Nat) (w : World) : Prop
  | reading (s : Section) (past : List Section) (done ahead : List Nat) (bytes : Bytes)
      (start : Nat) (hf : files = done ++ s.object :: ahead)
      (h : Reading c w s past done ahead bytes start)
  | seeking (done ahead : List Nat) (start : Nat) (hf : files = done ++ ahead)
      (h : Seeking c w done ahead start)

/-- The tailer goes on with what it set out with. -/
structure Underway (c : Outset) (files : List Nat) (w : World) : Prop where
  accounted : w.Accounted
  config : w.tailer.engine.config = c.config
  path : w.tailer.engine.path = c.path
  on : w.tailer.stopRequested = false ∧ w.tailer.closed = false
  follow : c.config.follow = true
  nodup : files.Nodup
  regular : ∀ n ∈ files, ∃ bytes, w.fs.bytes? n = some bytes
  floor : ∀ n, files.head? = some n → c.length ≤ w.fs.length n
  empty : files = [] → c.length = 0
  /-- Without reopening, the path has to keep leading to the one file. -/
  stays : c.config.reopen = false → ∃ n, w.fs.find c.path = .ok n ∧ files = [n]

/-- The lines of a section are those of its file, once that was read to its end. -/
theorem script_eq_share {config : Config} (hin : s.input = bytes.drop s.base) (left : Bool) :
    s.script config.maxLineSize (left && !config.completeLines) =
      share config s.base left s.object bytes := by
  unfold Section.script Section.pieces share
  rw [hin]
  cases left <;> cases config.completeLines <;> rfl

theorem script_prefix_share {config : Config} (hl : config.maxLineSize ≠ some 0)
    (hin : s.input <+: bytes.drop s.base) (left : Bool) :
    s.script config.maxLineSize false <+: share config s.base left s.object bytes := by
  obtain ⟨more, hmore⟩ := hin
  unfold Section.script Section.pieces share
  rw [← hmore, Greedy.pieces_append hl, if_neg Bool.false_ne_true, List.append_nil,
    List.append_assoc, List.map_append]
  exact List.prefix_append _ _

theorem input_read_prefix {fs : FileSystem} (h : s.input <+: bytes.drop s.base)
    (hb : fs.bytes? s.object = some bytes) {count : Nat} {new : Bytes}
    (hr : fs.read s.object (s.base + s.input.length) count = .ok new) :
    s.input ++ new <+: bytes.drop s.base := by
  obtain ⟨more, hmore⟩ := h
  rw [FileSystem.read_regular hb, Except.ok.injEq, ← List.drop_drop, ← hmore, List.drop_left] at hr
  rw [← hmore, ← hr]
  exact (List.prefix_append_right_inj _).2 (List.take_prefix _ _)

theorem input_eq_of_read {fs : FileSystem} (h : s.input <+: bytes.drop s.base)
    (hb : fs.bytes? s.object = some bytes)
    (hr : fs.read s.object (s.base + s.input.length) chunkSize = .ok []) :
    s.input = bytes.drop s.base := by
  rw [FileSystem.read_regular hb, Except.ok.injEq, List.take_eq_nil_iff] at hr
  have hd := hr.resolve_left (by decide)
  rw [List.drop_eq_nil_iff] at hd
  exact h.eq_of_length (le_antisymm h.length_le (by rw [List.length_drop]; omega))

/-! ## Steps of reading -/

open Tailer Engine

variable {w' : World} {files : List Nat} {t : Tailer}

/-- A step that places no handle and reads nothing goes on reading. -/
theorem Reading.keep (h : Reading c w s past done ahead bytes start) (lines : List Line)
    (hfs : w'.fs = w.fs) (hsec : w'.sections = { s with lines } :: past)
    (hsrc : w'.tailer.engine.source = w.tailer.engine.source)
    (hst : ∃ stage, w'.tailer.engine.phase.stage? = some stage ∧
      Stands c.path w.fs s bytes w'.tailer.engine stage)
    (hq : w'.looked = true → ∀ due next, w'.tailer.engine.phase = .asleep due true next →
      w.fs.find c.path = .ok s.object ∧ s.input = bytes.drop s.base) :
    Reading c w' { s with lines } past done ahead bytes start where
  sections := hsec
  handle := hsrc.trans h.handle
  file := hfs ▸ h.file
  input := h.input
  base := h.base
  begins := h.begins
  given := hfs ▸ h.given
  leads := hfs ▸ h.leads
  stands := hfs ▸ hst
  quiet := hfs ▸ hq

theorem Reading.goes (h : Reading c w s past done ahead bytes start)
    (hf : files = done ++ s.object :: ahead) {e : Engine} {stage : Stage}
    (hsrc : e.source = w.tailer.engine.source)
    (hst : e.phase.stage? = some stage) (hs : Stands c.path w.fs s bytes e stage)
    (hq : ∀ due next, e.phase ≠ .asleep due true next) :
    Whereabouts c files (w.after { w.tailer with engine := e }) := by
  have hsec : (w.after { w.tailer with engine := e }).sections = w.sections :=
    World.sections_after rfl hsrc
  exact .reading _ past done ahead bytes start hf (h.keep s.lines rfl (hsec.trans h.sections) hsrc
    ⟨stage, hst, hs⟩ fun _ due next hp => absurd hp (hq due next))

theorem Reading.stands_of (h : Reading c w s past done ahead bytes start) (stage : Stage)
    (hp : w.tailer.engine.phase.stage? = some stage) :
    Stands c.path w.fs s bytes w.tailer.engine stage := by
  obtain ⟨stage', hst, hs⟩ := h.stands
  rwa [Option.some.inj (hst.symm.trans hp)] at hs

theorem Reading.found (h : Reading c w s past done ahead bytes start)
    (hc : classify (w.fs.look c.path) s.identifier (s.base + s.input.length) = .ok .none) :
    w.fs.find c.path = .ok s.object ∧ s.input = bytes.drop s.base := by
  obtain ⟨n, hn, hi, hl⟩ := ofLength_of_classify hc nofun
  obtain rfl := FileSystem.identify_inj hi
  have hl := Change.ofLength_eq_none hl
  rw [FileSystem.length_of_bytes? h.file] at hl
  exact ⟨hn, h.input.eq_of_length (by rw [List.length_drop]; omega)⟩

theorem find_ne_of_deleted {offset : Nat}
    (hc : classify (w.fs.look c.path) s.identifier offset = .ok .deleted) :
    w.fs.find c.path ≠ .ok s.object := by
  intro hn
  obtain ⟨n, hf, hi⟩ | ⟨f, hf, -⟩ := find_of_deleted hc
  · exact hi (by rw [Except.ok.inj (hf.symm.trans hn)]; rfl)
  · cases hf.symm.trans hn

/-- Bytes that are read go on from what was read. -/
theorem Reading.read (h : Reading c w s past done ahead bytes start)
    (hf : files = done ++ s.object :: ahead) {new : Bytes} {goal : Goal} {e : Engine}
    {lines : List Line}
    (hp : w.tailer.engine.phase = .ready (.read goal))
    (hr : w.fs.read s.object (s.base + s.input.length) chunkSize = .ok new) (hb : new ≠ [])
    (hsrc : e.source = .opened ⟨s.object, s.identifier, s.base + s.input.length + new.length⟩)
    (hph : e.phase = .handing lines false (.read goal)) :
    Whereabouts c files (w.after { w.tailer with engine := e }) := by
  have hsec : (w.after { w.tailer with engine := e }).sections =
      noteRead (s.base + s.input.length) new (s :: past) := by
    rw [← h.sections]
    exact World.sections_after_read (t := { w.tailer with engine := e }) rfl h.handle hsrc hr hb
  have hin := s.input_read (s.base + s.input.length) new
  refine .reading { s with reads := s.reads ++ [(s.base + s.input.length, new)] } past done ahead
    bytes start hf ⟨hsec, ?_, h.file, ?_, h.base, h.begins, h.given, h.leads,
    ⟨.read goal, by rw [show (w.after _).tailer.engine.phase = e.phase from rfl, hph]; rfl, ?_⟩,
    fun _ _ _ hph' => absurd (hph.symm.trans hph') nofun⟩
  · show e.source = _
    rw [hin, hsrc, List.length_append, ← Nat.add_assoc]
    rfl
  · show Section.input _ <+: bytes.drop s.base
    rw [hin]
    exact input_read_prefix h.input h.file hr
  · have := h.stands_of (.read goal) (by rw [hp]; rfl)
    cases goal <;> exact this

/-- A file cut short of where reading stands was never read: only the first file can be, when it is
shorter than where reading was to start. Reading starts at its beginning. -/
theorem Reading.rewind (hu : Underway c files w) (h : Reading c w s past done ahead bytes start)
    (hf : files = done ++ s.object :: ahead) {e : Engine}
    (hp : w.tailer.engine.phase = .ready .check)
    (hlt : bytes.length < s.base + s.input.length)
    (hsrc : e.source = .opened ⟨s.object, s.identifier, 0⟩)
    (hph : e.phase = .ready (.read .catchUp)) :
    Whereabouts c files (w.after { w.tailer with engine := e }) := by
  have hsec : (w.after { w.tailer with engine := e }).sections =
      .ofSession ⟨s.object, s.identifier, 0⟩ :: s :: past := by
    rw [← h.sections]
    refine World.sections_after_rewind (t := { w.tailer with engine := e }) rfl h.handle hsrc ?_
    show 0 < s.base + s.input.length
    omega
  have hlen := h.input.length_le
  rw [List.length_drop] at hlen
  have hin : s.input = [] := List.length_eq_zero_iff.1 (by omega)
  rw [hin, List.length_nil, Nat.add_zero] at hlt
  -- a file that is not the first is read from its beginning
  have hdone : done = [] := by
    by_contra hd
    have hbase := h.base
    rw [if_neg hd] at hbase
    omega
  subst hdone
  have hstart : start = c.offset ∧ c.length < c.offset := by
    have hbase := h.base
    rw [if_pos rfl] at hbase
    have hfloor := hu.floor s.object (by rw [hf]; rfl)
    rw [FileSystem.length_of_bytes? h.file] at hfloor
    rcases h.begins with hs | ⟨hs, -⟩
    · exact ⟨hs, by omega⟩
    · omega
  have hlines : s.lines = [] := by
    obtain ⟨s', past', flushed, hsec', -, ho⟩ := hu.accounted.ledger.open h.handle
    obtain ⟨rfl, rfl⟩ := List.cons.inj (h.sections.symm.trans hsec')
    obtain rfl := ho.not_flushed (by rw [hp]; rfl)
    have hrest := ho.rest (by rw [hp]; exact Phase.ne_ended rfl)
    rw [hp, Section.script_of_input hin] at hrest
    exact (List.append_eq_nil_iff.1 hrest).1
  refine .reading (.ofSession ⟨s.object, s.identifier, 0⟩) (s :: past) [] ahead bytes 0 hf
    ⟨hsec, hsrc, h.file, List.nil_prefix, rfl, .inr ⟨rfl, hstart.2⟩, ?_, h.leads,
      ⟨.read .catchUp, by rw [show (w.after _).tailer.engine.phase = e.phase from rfl, hph]; rfl,
        trivial⟩, fun _ _ _ hph' => absurd (hph.symm.trans hph') nofun⟩
  rw [told_cons, hlines, List.append_nil]
  exact h.given

theorem Reading.leave (hu : Underway c files w) (h : Reading c w s past done ahead bytes start)
    (hf : files = done ++ s.object :: ahead) {e : Engine}
    (hp : w.tailer.engine.phase = .ready .leave)
    (hsrc : e.source = .away (some s.identifier)) (hph : e.phase = .ready .arm) :
    Whereabouts c files (w.after { w.tailer with engine := e }) := by
  obtain ⟨hne, hin, hem⟩ := h.stands_of .leave (by rw [hp]; rfl)
  have hsec : (w.after { w.tailer with engine := e }).sections = s :: past := by
    rw [← h.sections]
    exact World.sections_after_leave (t := { w.tailer with engine := e }) rfl hsrc
  have hlines : s.lines =
      share c.config (if done = [] then start else 0) true s.object bytes := by
    obtain ⟨s', past', flushed, hsec', -, ho⟩ := hu.accounted.ledger.open h.handle
    obtain ⟨rfl, rfl⟩ := List.cons.inj (h.sections.symm.trans hsec')
    rw [ho.lines_of_emptied (by rw [hp]; exact Phase.ne_ended rfl) (by rw [hp]; rfl) hem,
      hu.accounted.sound.limit, hu.config, ← h.base]
    exact script_eq_share hin true
  refine .seeking (done ++ [s.object]) ahead start (by rw [hf, List.append_assoc]; rfl)
    ⟨⟨_, hsrc, fun n hn => ?_⟩, fun hd => absurd hd (by simp), h.begins, ?_, ?_,
      fun _ _ _ hph' => absurd (hph.symm.trans hph') nofun⟩
  · rw [FileSystem.identify_inj (Option.some.inj hn.symm)]
    exact List.mem_append_right _ (List.mem_singleton.2 rfl)
  · show told (w.after _).sections = shares c.config w.fs _ start _
    rw [hsec, told_cons, h.given, hlines, shares_concat, h.file]
    rfl
  · have hleads := h.leads
    cases ahead with
    | nil => exact fun m hm => absurd (hm.trans (by rw [Option.some.inj (hleads m hm)])) hne
    | cons m more => cases more <;> exact hleads

theorem Reading.opened_eq (h : Reading c w s past done ahead bytes start) {hd : Session}
    (hs : w.tailer.engine.source = .opened hd) :
    hd = ⟨s.object, s.identifier, s.base + s.input.length⟩ :=
  Source.opened.inj (hs.symm.trans h.handle)

theorem Reading.consumed_eq (hu : Underway c files w)
    (h : Reading c w s past done ahead bytes start) :
    w.tailer.engine.splitter.consumed = s.base + s.input.length :=
  (hu.accounted.sound.position _ h.handle).symm

/-- A file that was left leads the tailer on: without reopening, it would have to stay. -/
theorem Reading.reopens (hu : Underway c files w) (hf : files = done ++ s.object :: ahead)
    (hne : w.fs.find c.path ≠ .ok s.object) : w.tailer.engine.config.reopen = true := by
  rw [hu.config]
  by_contra hr
  obtain ⟨n, hn, hfiles⟩ := hu.stays (Bool.eq_false_iff.2 hr)
  have hmem : s.object ∈ files := hf ▸ List.mem_append_right done List.mem_cons_self
  rw [hfiles] at hmem
  exact hne (List.mem_singleton.1 hmem ▸ hn)

theorem Reading.passes (hu : Underway c files w) (h : Reading c w s past done ahead bytes start)
    (hf : files = done ++ s.object :: ahead) {stage next : Stage} {watcher : Watcher}
    (hp : Passes w.fs w.tailer.engine stage next watcher)
    (hst : Stands c.path w.fs s bytes w.tailer.engine stage) :
    Stands c.path w.fs s bytes w.tailer.engine next := by
  cases hp with
  | arm => exact hst.elim
  | found => exact hst.elim
  | vanished => exact hst.elim
  | caughtUp => trivial
  | @readOut hd goal hs hr hfo =>
    obtain rfl := h.opened_eq hs
    cases goal with
    | catchUp =>
      have := hfo rfl
      rw [hu.config, hu.follow] at this
      cases this
    | drain => exact ⟨hst, input_eq_of_read h.input h.file hr⟩
  | clear => trivial
  | grown => trivial
  | gone hs hc =>
    obtain rfl := h.opened_eq hs
    rw [hu.path] at hc
    exact find_ne_of_deleted hc
  | kept hk =>
    obtain ⟨hne, hin⟩ := hst
    exact ⟨hne, hin, fun hc => hk.resolve_left (by rw [hc]; exact Bool.false_ne_true)⟩
  | done hd =>
    have hr := (hd (by rw [hu.config, hu.follow])).1
    rw [Reading.reopens hu hf hst.1] at hr
    cases hr

theorem Reading.fails (h : Reading c w s past done ahead bytes start) {stage next : Stage}
    {error : TailError} (he : Fails w.fs w.tailer.engine stage error next)
    (hst : Stands c.path w.fs s bytes w.tailer.engine stage) :
    Stands c.path w.fs s bytes w.tailer.engine next := by
  cases he with
  | look => exact hst.elim
  | reopen => exact hst.elim
  | read hs hr =>
    obtain rfl := h.opened_eq hs
    rw [FileSystem.read_regular h.file] at hr
    cases hr
  | check => trivial

/-- A step of reading goes on reading, or leaves a file that was given out as a whole. -/
theorem Reading.turn (hu : Underway c files w) (h : Reading c w s past done ahead bytes start)
    (hf : files = done ++ s.object :: ahead) (ht : Turn w.fs w.now w.tailer t) :
    Whereabouts c files (w.after t) := by
  cases ht with
  | idle hb =>
    refine .reading _ past done ahead bytes start hf (h.keep s.lines rfl
      ((World.sections_after rfl rfl).trans h.sections) rfl h.stands fun hl due next hp => ?_)
    have hp : w.tailer.engine.phase = .asleep due true next := hp
    exact h.quiet (World.looked_of_after hl (by rw [hp]; exact fun _ => nofun)) due next hp
  | quit hq => rcases hq with hq | hq <;> simp [hu.on] at hq
  | @hand line lines rest next hp =>
    refine .reading { s with lines := s.lines ++ texts [line] } past done ahead bytes start hf
      (h.keep _ rfl ?_ rfl ⟨next, rfl, h.stands_of next (by rw [hp]; rfl)⟩ fun _ _ _ => nofun)
    refine Eq.trans (World.sections_after_hand rfl rfl) ?_
    rw [h.sections]
    rfl
  | @rest next hp => exact h.goes hf rfl rfl (h.stands_of next (by rw [hp]; rfl)) nofun
  | @resume next hp => exact h.goes hf rfl rfl (h.stands_of next (by rw [hp]; rfl)) nofun
  | @wake _ _ next _ hp => exact h.goes hf rfl rfl (h.stands_of next (by rw [hp]; rfl)) nofun
  | @pass stage next watcher hw hp =>
    exact h.goes hf rfl rfl (h.passes hu hf hp (h.stands_of stage hw.stage_eq)) nofun
  | @fail stage next error hw he =>
    exact h.goes hf rfl rfl (h.fails he (h.stands_of stage hw.stage_eq)) nofun
  | @wait stage next hw hp =>
    cases hp with
    | missing => exact (h.stands_of .look hw.stage_eq).elim
    | same hs hc =>
      obtain rfl := h.opened_eq hs
      rw [hu.path, h.consumed_eq hu] at hc
      exact .reading _ past done ahead bytes start hf (h.keep s.lines rfl
        ((World.sections_after rfl rfl).trans h.sections) rfl ⟨.clear, rfl, trivial⟩
        fun _ _ _ _ => h.found hc)
  | «open» hw => exact (h.stands_of .reopen hw.stage_eq).elim
  | @rewind hd hw hs hc =>
    obtain rfl := h.opened_eq hs
    obtain ⟨n, hn, hi, hl⟩ := ofLength_of_classify hc nofun
    obtain rfl := FileSystem.identify_inj hi
    have hlt := Change.ofLength_eq_truncated hl
    rw [FileSystem.length_of_bytes? h.file, h.consumed_eq hu] at hlt
    exact h.rewind hu hf hw.1 hlt rfl rfl
  | @read hd goal new hw hs hr hb =>
    obtain rfl := h.opened_eq hs
    exact h.read hf hw.1 hr hb rfl rfl
  | flush hw hc hh =>
    obtain ⟨hne, hin⟩ := h.stands_of .flush hw.stage_eq
    exact h.goes hf rfl rfl ⟨hne, hin, fun _ => rfl⟩ nofun
  | leave hw hfo hr =>
    refine h.leave hu hf hw.1 ?_ rfl
    show Source.away w.tailer.engine.identifier = _
    rw [Engine.identifier, h.handle]
  | last hw hfo hr =>
    rw [Reading.reopens hu hf (h.stands_of .leave hw.stage_eq).1] at hr
    cases hr
  | finish hw => exact (h.stands_of .finish hw.stage_eq).elim

/-! ## Steps of seeking -/

theorem Seeking.keep (h : Seeking c w done ahead start) (hfs : w'.fs = w.fs)
    (htold : told w'.sections = told w.sections)
    (hsrc : w'.tailer.engine.source = w.tailer.engine.source)
    (hq : w'.looked = true → ∀ due next, w'.tailer.engine.phase = .asleep due true next →
      ∀ m, w.fs.find c.path ≠ .ok m) : Seeking c w' done ahead start where
  away := hsrc ▸ h.away
  first := h.first
  begins := h.begins
  given := by rw [htold, hfs]; exact h.given
  leads := hfs ▸ h.leads
  quiet := hfs ▸ hq

theorem Seeking.goes (h : Seeking c w done ahead start) (hf : files = done ++ ahead) {e : Engine}
    (hsrc : e.source = w.tailer.engine.source)
    (hq : ∀ due next, e.phase ≠ .asleep due true next) :
    Whereabouts c files (w.after { w.tailer with engine := e }) := by
  have hsec : (w.after { w.tailer with engine := e }).sections = w.sections :=
    World.sections_after rfl hsrc
  exact .seeking done ahead start hf
    (h.keep rfl (by rw [hsec]) hsrc fun _ due next hp => absurd hp (hq due next))

theorem Seeking.not_opened (h : Seeking c w done ahead start) {hd : Session} :
    w.tailer.engine.source ≠ .opened hd := by
  obtain ⟨previous, hs, -⟩ := h.away
  rw [hs]
  exact nofun

theorem Seeking.not_works (hu : Underway c files w) (h : Seeking c w done ahead start)
    {stage : Stage} (hs : stage.seeks = false) : ¬ w.tailer.Works stage := by
  intro hw
  have hst := hw.stage_eq
  obtain ⟨hd, hd'⟩ := opened_of_fits hu.accounted.sound.fits hst hs
  exact h.not_opened hd'

/-- A file found is the one more that came, and is read from its beginning. -/
theorem Seeking.open (hu : Underway c files w) (h : Seeking c w done ahead start)
    (hf : files = done ++ ahead) {n offset : Nat} (hn : w.fs.find c.path = .ok n)
    (hp : offset = reopenOffset c.config w.tailer.engine.stood (FileSystem.identify n))
    {e : Engine} (hsrc : e.source = .opened ⟨n, FileSystem.identify n, offset⟩)
    (hph : e.phase = .ready (.read .catchUp)) :
    Whereabouts c files (w.after { w.tailer with engine := e }) := by
  obtain ⟨previous, haway, hprev⟩ := h.away
  have hahead : ahead = [n] := by
    have hleads := h.leads
    cases ahead with
    | nil => cases hleads n hn
    | cons m more =>
      cases more with
      | nil => rw [Except.ok.inj (hn.symm.trans hleads)]
      | cons => exact hleads.elim
  subst hahead
  have hnew : previous ≠ some (FileSystem.identify n) := by
    intro he
    have hnodup := hu.nodup
    rw [hf] at hnodup
    exact (List.disjoint_of_nodup_append hnodup) (hprev n he) (List.mem_singleton.2 rfl)
  have hoffset : offset = 0 := by
    rw [hp, Engine.stood, haway]
    exact reopenOffset_of_ne c.config hnew
  subst hoffset
  have hsec : (w.after { w.tailer with engine := e }).sections =
      .ofSession ⟨n, FileSystem.identify n, 0⟩ :: w.sections :=
    World.sections_after_open (t := { w.tailer with engine := e }) rfl haway hsrc
  obtain ⟨bytes, hb⟩ := hu.regular n (hf ▸ List.mem_append_right done (List.mem_singleton.2 rfl))
  refine .reading (.ofSession ⟨n, FileSystem.identify n, 0⟩) w.sections done [] bytes start hf
    ⟨hsec, hsrc, hb, List.nil_prefix, ?_, h.begins, h.given, fun m hm => ?_,
      ⟨.read .catchUp, by rw [show (w.after _).tailer.engine.phase = e.phase from rfl, hph]; rfl,
        trivial⟩, fun _ _ _ hph' => absurd (hph.symm.trans hph') nofun⟩
  · split_ifs with hd
    · rw [h.first hd]; rfl
    · rfl
  · exact congrArg some (Except.ok.inj (hn.symm.trans hm))

/-- A step of seeking goes on seeking, or opens the file that came. -/
theorem Seeking.turn (hu : Underway c files w) (h : Seeking c w done ahead start)
    (hf : files = done ++ ahead) (ht : Turn w.fs w.now w.tailer t) :
    Whereabouts c files (w.after t) := by
  cases ht with
  | idle hb =>
    refine .seeking done ahead start hf (h.keep rfl
      (congrArg told (World.sections_after rfl rfl)) rfl fun hl due next hp => ?_)
    have hp : w.tailer.engine.phase = .asleep due true next := hp
    exact h.quiet (World.looked_of_after hl (by rw [hp]; exact fun _ => nofun)) due next hp
  | quit hq => rcases hq with hq | hq <;> simp [hu.on] at hq
  | @hand line lines rest next hp =>
    have hline : texts [line] = [] := by
      obtain ⟨previous, hs, -⟩ := h.away
      exact (hu.accounted.ledger.no_text (by rw [hs]; rfl) hp).1
    refine .seeking done ahead start hf (h.keep rfl ?_ rfl fun _ _ _ => nofun)
    refine Eq.trans (congrArg told (World.sections_after_hand rfl rfl)) ?_
    rw [told_noteLines fun _ => hline, hline, List.append_nil]
  | rest => exact h.goes hf rfl nofun
  | resume => exact h.goes hf rfl nofun
  | wake => exact h.goes hf rfl nofun
  | pass => exact h.goes hf rfl nofun
  | fail => exact h.goes hf rfl nofun
  | @wait stage next hw hp =>
    cases hp with
    | same hs => exact absurd hs h.not_opened
    | missing hfind =>
      rw [hu.path] at hfind
      exact .seeking done ahead start hf (h.keep rfl
        (congrArg told (World.sections_after rfl rfl)) rfl
        fun _ _ _ _ m hm => absurd (hfind.symm.trans hm) nofun)
  | «open» hw ho hp =>
    rw [hu.path] at ho
    rw [hu.config] at hp
    exact h.open hu hf (FileSystem.find_of_openFile ho) hp rfl rfl
  | rewind hw hs => exact absurd hs h.not_opened
  | read hw hs => exact absurd hs h.not_opened
  | flush hw => exact absurd hw (h.not_works hu rfl)
  | leave hw => exact absurd hw (h.not_works hu rfl)
  | last hw => exact absurd hw (h.not_works hu rfl)
  | finish hw => exact absurd hw (h.not_works hu rfl)

end Rotation
end LogFollower
