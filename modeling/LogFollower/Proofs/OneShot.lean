import LogFollower.Proofs.Growing
import LogFollower.Proofs.Recovery.Cost

/-!
# One-shot runs

A tailer that does not follow reads the file at its path to the end and is done. Over a file that
stays as it is, nothing fails: `Delivers` says that what the consumer takes is at every moment the
beginning of certain lines, that the run ends by itself if the consumer goes on taking, and that
the lines are all there then. `delivers_share` says that they are the lines of the file from where
the tailer started.
-/

namespace LogFollower

/-- The files stay as they are, and nobody stops the tailer. -/
def Undisturbed (_ : World) (m : Move) : Prop := m.routine = true

/-- The engine takes a step, and the consumer takes the lines that there are. -/
def World.serve (w : World) : World := (w.move .work).move (.receive none)

/-- What the consumer gets from a tailer that nobody disturbs, in whatever order the engine works,
time passes and lines are taken. -/
structure Delivers (fs : FileSystem) (path : Path) (config : Config) (lines : List Line) :
    Prop where
  starts : ∃ t, Tailer.start fs path config = .ok t
  begins : ∀ t w, Tailer.start fs path config = .ok t →
    (World.start fs t).Reaches Undisturbed w → w.taken <+: lines
  /-- From wherever the run stands, it comes to its end if the consumer goes on taking. -/
  ends : ∀ t w, Tailer.start fs path config = .ok t →
    (World.start fs t).Reaches Undisturbed w →
    ∃ count, (World.serve^[count] w).tailer.ended = true ∧
      (World.serve^[count] w).tailer.queue = []
  whole : ∀ t w, Tailer.start fs path config = .ok t →
    (World.start fs t).Reaches Undisturbed w →
    w.tailer.ended = true → w.tailer.queue = [] → w.taken = lines

namespace World

theorem reaches_serve {w v : World} (h : Reaches Undisturbed w v) : Reaches Undisturbed w v.serve :=
  .move (.move h (m := .work) rfl) (m := .receive none) rfl

theorem reaches_serves {w v : World} (h : Reaches Undisturbed w v) (count : Nat) :
    Reaches Undisturbed w (serve^[count] v) := by
  induction count generalizing v with
  | zero => exact h
  | succ count ih => exact ih (reaches_serve h)

theorem queue_serve (w : World) : w.serve.tailer.queue = [] := by
  show List.drop _ _ = []
  simp

end World

theorem Delivers.unique {fs : FileSystem} {path : Path} {config : Config} {lines lines' : List Line}
    (h : Delivers fs path config lines) (h' : Delivers fs path config lines') : lines = lines' := by
  obtain ⟨t, ht⟩ := h.starts
  obtain ⟨count, hended, hqueue⟩ := h.ends t _ ht .here
  have hreached := World.reaches_serves (.here (w := World.start fs t)) count
  exact (h.whole t _ ht hreached hended hqueue).symm.trans (h'.whole t _ ht hreached hended hqueue)

namespace OneShot

open Tailer Engine

/-! ## Stages -/

/-- What holds at a stage of a one-shot run: behind the reads the file was read to its end, and
behind the flush the rest was given up if it is wanted. -/
def Stands (s : Section) (bytes : Bytes) (e : Engine) : Stage → Prop
  | .read .catchUp => True
  | .flush => s.input = bytes.drop s.base
  | .leave => s.input = bytes.drop s.base ∧
      (e.config.completeLines = false → e.splitter.held = [])
  | .finish => s.input = bytes.drop s.base ∧
      (e.config.completeLines = false → e.splitter.held = [])
  | _ => False

def left (fs : FileSystem) : Source → Nat
  | .opened hd => fs.length hd.object - hd.position
  | .away _ => 0

/-- How many steps there are from a stage to the end. -/
def toil (left : Nat) : Stage → Nat
  | .read _ => 3 * left + 6
  | .flush => 5
  | .leave => 2
  | _ => 1

/-- How many steps there are to the end, if the consumer goes on taking. -/
def cost (fs : FileSystem) (t : Tailer) : Nat :=
  match t.engine.phase with
  | .ready stage => toil (left fs t.engine.source) stage
  | .handing lines _ stage => lines.length + 1 + toil (left fs t.engine.source) stage
  | _ => 0

theorem cost_ready (fs : FileSystem) {t : Tailer} {stage : Stage}
    (h : t.engine.phase = .ready stage) : cost fs t = toil (left fs t.engine.source) stage := by
  unfold cost
  rw [h]

theorem cost_handing (fs : FileSystem) {t : Tailer} {lines : List Line} {rest : Bool}
    {stage : Stage} (h : t.engine.phase = .handing lines rest stage) :
    cost fs t = lines.length + 1 + toil (left fs t.engine.source) stage := by
  unfold cost
  rw [h]

/-- A tailer in the midst of a one-shot run over a file, or at its end. -/
structure Underway (c : Config) (n o : Nat) (bytes : Bytes) (w : World) (s : Section) : Prop where
  accounted : w.Accounted
  config : w.tailer.engine.config = c
  follow : c.follow = false
  on : w.tailer.stopRequested = false ∧ w.tailer.closed = false
  file : w.fs.bytes? s.object = some bytes
  sections : w.sections = [s]
  object : s.object = n
  base : s.base = o
  handle : w.tailer.engine.source = .opened ⟨s.object, s.identifier, s.base + s.input.length⟩
  input : s.input <+: bytes.drop s.base
  stands : (w.tailer.Fresh ∧ ∃ stage, w.tailer.engine.phase.stage? = some stage ∧
      Stands s bytes w.tailer.engine stage) ∨
    w.tailer.engine.phase = .ended ∧ s.lines = share c o true n bytes
  clean : w.tailer.Clean
  taken : ∀ l ∈ w.taken, l.isError = false

variable {c : Config} {n o : Nat} {bytes : Bytes} {w : World} {s : Section} {t : Tailer}

namespace Underway

variable (h : Underway c n o bytes w s)

include h

theorem stands_of (stage : Stage) (hp : w.tailer.engine.phase.stage? = some stage) :
    w.tailer.Fresh ∧ Stands s bytes w.tailer.engine stage := by
  rcases h.stands with ⟨hf, stage', hst, hs⟩ | ⟨he, -⟩
  · rw [Option.some.inj (hst.symm.trans hp)] at hs
    exact ⟨hf, hs⟩
  · rw [he] at hp
    cases hp

theorem opened_eq {hd : Session} (hs : w.tailer.engine.source = .opened hd) :
    hd = ⟨s.object, s.identifier, s.base + s.input.length⟩ :=
  Source.opened.inj (hs.symm.trans h.handle)

theorem not_rests {lines : List Line} {rest : Bool} {next : Stage}
    (hp : w.tailer.engine.phase = .handing lines rest next) : rest = false := by
  rcases (h.stands_of next (by rw [hp]; rfl)).1 with ⟨stage, hf⟩ | ⟨lines', stage, hf⟩
  · cases hp.symm.trans hf
  · cases hp.symm.trans hf
    rfl

theorem not_asleep {due : Nat} {watching : Bool} {next : Stage} :
    w.tailer.engine.phase ≠ .asleep due watching next := by
  intro hp
  rcases (h.stands_of next (by rw [hp]; rfl)).1 with ⟨stage, hf⟩ | ⟨lines', stage, hf⟩
  · cases hp.symm.trans hf
  · cases hp.symm.trans hf

theorem not_follow : w.tailer.engine.config.follow = false := by rw [h.config, h.follow]

/-- A step from one stage to another goes on in the run, and brings the end nearer. -/
theorem passes {stage next : Stage} {watcher : Watcher}
    (hp : Passes w.fs w.tailer.engine stage next watcher)
    (hst : Stands s bytes w.tailer.engine stage) (left : Nat) :
    Stands s bytes w.tailer.engine next ∧ toil left next < toil left stage := by
  cases hp with
  | arm => exact hst.elim
  | found => exact hst.elim
  | vanished => exact hst.elim
  | caughtUp _ _ hf => cases h.not_follow.symm.trans hf
  | @readOut hd goal hs hr =>
    obtain rfl := h.opened_eq hs
    refine ⟨Rotation.input_eq_of_read h.input h.file hr, ?_⟩
    show 5 < 3 * left + 6
    omega
  | clear => exact hst.elim
  | grown => exact hst.elim
  | gone => exact hst.elim
  | kept hk =>
    exact ⟨⟨hst, fun hc => hk.resolve_left (by rw [hc]; exact Bool.false_ne_true)⟩, by simp [toil]⟩
  | done => exact ⟨hst, by simp [toil]⟩

theorem not_fails {stage next : Stage} {error : TailError} (hw : w.tailer.Works stage) :
    ¬ Fails w.fs w.tailer.engine stage error next := by
  intro he
  obtain ⟨-, hst⟩ := h.stands_of _ hw.stage_eq
  cases he with
  | look => exact hst
  | reopen => exact hst
  | read hs hr =>
    obtain rfl := h.opened_eq hs
    rw [FileSystem.read_regular h.file] at hr
    cases hr
  | check => exact hst

theorem keep (hacc : (w.after t).Accounted) (ht : Turn w.fs w.now w.tailer t) {s' : Section}
    (hsec : (w.after t).sections = [s']) (hobject : s'.object = s.object)
    (hbase : s'.base = s.base)
    (hhandle : t.engine.source =
      .opened ⟨s'.object, s'.identifier, s'.base + s'.input.length⟩)
    (hinput : s'.input <+: bytes.drop s'.base)
    (hstands : (t.Fresh ∧ ∃ stage, t.engine.phase.stage? = some stage ∧
        Stands s' bytes t.engine stage) ∨
      t.engine.phase = .ended ∧ s'.lines = share c o true n bytes) :
    Underway c n o bytes (w.after t) s' where
  accounted := hacc
  config := ht.config_eq.trans h.config
  follow := h.follow
  on := ⟨ht.stopRequested_eq.trans h.on.1, ht.closed_eq.trans h.on.2⟩
  file := hobject ▸ h.file
  sections := hsec
  object := hobject.trans h.object
  base := hbase.trans h.base
  handle := hhandle
  input := hinput
  stands := hstands
  clean := h.clean.turn ht (fun _ _ _ hw => h.not_fails hw) fun _ => h.not_follow
  taken := h.taken

theorem goes {e : Engine} (hacc : (w.after { w.tailer with engine := e }).Accounted)
    (ht : Turn w.fs w.now w.tailer { w.tailer with engine := e })
    (hsrc : e.source = w.tailer.engine.source)
    (hstands : (Fresh { w.tailer with engine := e } ∧ ∃ stage, e.phase.stage? = some stage ∧
        Stands s bytes e stage) ∨
      e.phase = .ended ∧ s.lines = share c o true n bytes) :
    Underway c n o bytes (w.after { w.tailer with engine := e }) s :=
  have hsec := World.sections_after (t := { w.tailer with engine := e }) (w := w) rfl hsrc
  h.keep hacc ht (hsec.trans h.sections) rfl rfl (hsrc.trans h.handle) h.input hstands

theorem lines_eq (hw : w.tailer.Works .finish) : s.lines = share c o true n bytes := by
  obtain ⟨-, hin, hheld⟩ := h.stands_of _ hw.stage_eq
  obtain ⟨s', past, flushed, hsec, -, ho⟩ := h.accounted.ledger.open h.handle
  obtain ⟨rfl, -⟩ := List.cons.inj (h.sections.symm.trans hsec)
  rw [ho.lines_of_emptied (Phase.ne_ended hw.stage_eq) (by rw [hw.1]; rfl) hheld,
    h.accounted.sound.limit, h.config, ← h.base, ← h.object]
  exact Rotation.script_eq_share hin true

/-- Bytes that are read go on from what was read, and each makes at most one line. -/
theorem read {e : Engine} {goal : Goal} {new : Bytes} {lines : List Line}
    (hacc : (w.after { w.tailer with engine := e }).Accounted)
    (hw : w.tailer.Works (.read goal))
    (hr : w.fs.read s.object (s.base + s.input.length) chunkSize = .ok new) (hb : new ≠ [])
    (ht : Turn w.fs w.now w.tailer { w.tailer with engine := e })
    (hsrc : e.source = .opened ⟨s.object, s.identifier, s.base + s.input.length + new.length⟩)
    (hph : e.phase = .handing lines false (.read goal)) (hlines : lines.length ≤ new.length) :
    (∃ s', Underway c n o bytes (w.after { w.tailer with engine := e }) s') ∧
      (w.tailer.blocked w.now = true ∨
        cost w.fs { w.tailer with engine := e } < cost w.fs w.tailer) := by
  have hsec : (w.after { w.tailer with engine := e }).sections =
      [{ s with reads := s.reads ++ [(s.base + s.input.length, new)] }] := by
    rw [World.sections_after_read (t := { w.tailer with engine := e }) rfl h.handle hsrc hr hb,
      h.sections]
    rfl
  have hin := s.input_read (s.base + s.input.length) new
  have hprefix := Rotation.input_read_prefix h.input h.file hr
  have hstands : Stands { s with reads := s.reads ++ [(s.base + s.input.length, new)] } bytes e
      (.read goal) := by
    have hst := (h.stands_of _ hw.stage_eq).2
    cases goal with
    | catchUp => trivial
    | drain => exact hst
  refine ⟨⟨_, h.keep hacc ht hsec rfl rfl ?_ ?_ (.inl ⟨.inr ⟨lines, _, hph⟩, .read goal, ?_,
    hstands⟩)⟩, .inr ?_⟩
  · show e.source = _
    rw [hin, hsrc, List.length_append, ← Nat.add_assoc]
    rfl
  · rw [hin]
    exact hprefix
  · show e.phase.stage? = _
    rw [hph]
    rfl
  · have hlen := hprefix.length_le
    have hpos := List.length_pos_of_ne_nil hb
    rw [List.length_append, List.length_drop] at hlen
    have hleft : left w.fs e.source + new.length = left w.fs w.tailer.engine.source := by
      rw [hsrc, h.handle]
      simp only [left, FileSystem.length_of_bytes? h.file]
      omega
    rw [cost_ready w.fs hw.1, cost_handing w.fs hph, toil, ← hleft]
    show lines.length + 1 + (3 * left w.fs e.source + 6) <
      3 * (left w.fs e.source + new.length) + 6
    omega

/-- A step goes on in the run, and brings the end nearer unless nothing can be done. -/
theorem turn (hacc : (w.after t).Accounted) (ht : Turn w.fs w.now w.tailer t) :
    (∃ s', Underway c n o bytes (w.after t) s') ∧
      (w.tailer.blocked w.now = true ∨ cost w.fs t < cost w.fs w.tailer) := by
  cases ht with
  | idle hb =>
    exact ⟨⟨s, h.keep hacc (.idle hb) ((World.sections_after rfl rfl).trans h.sections) rfl rfl
      h.handle h.input h.stands⟩, .inl hb⟩
  | quit hq => rcases hq with hq | hq <;> simp [h.on] at hq
  | @hand line lines rest next hp on room =>
    obtain rfl := h.not_rests hp
    have hsec : (w.after { w.tailer.withPhase (.handing lines false next) with
        queue := w.tailer.queue ++ [line] }).sections =
          [{ s with lines := s.lines ++ texts [line] }] := by
      refine Eq.trans (World.sections_after_hand rfl rfl) ?_
      rw [h.sections]
      rfl
    refine ⟨⟨_, h.keep hacc (.hand hp on room) hsec rfl rfl h.handle h.input
      (.inl ⟨.inr ⟨lines, next, rfl⟩, next, rfl, (h.stands_of next (by rw [hp]; rfl)).2⟩)⟩, .inr ?_⟩
    rw [cost_handing w.fs hp]
    exact Nat.add_lt_add_right (Nat.lt_succ_self _) _
  | rest hp => cases h.not_rests hp
  | @resume next hp =>
    refine ⟨⟨s, h.goes hacc (.resume hp) rfl
      (.inl ⟨.inl ⟨next, rfl⟩, next, rfl, (h.stands_of next (by rw [hp]; rfl)).2⟩)⟩, .inr ?_⟩
    rw [cost_handing w.fs hp]
    exact Nat.lt_add_of_pos_left Nat.one_pos
  | wake hp => exact absurd hp h.not_asleep
  | @pass stage next watcher hw hp =>
    obtain ⟨hst, hlt⟩ := h.passes hp (h.stands_of _ hw.stage_eq).2 (left w.fs w.tailer.engine.source)
    refine ⟨⟨s, h.goes hacc (.pass hw hp) rfl (.inl ⟨.inl ⟨next, rfl⟩, next, rfl, hst⟩)⟩, .inr ?_⟩
    rw [cost_ready w.fs hw.1]
    exact hlt
  | fail hw he => exact absurd he (h.not_fails hw)
  | wait hw hp => cases hp <;> exact (h.stands_of _ hw.stage_eq).2.elim
  | «open» hw => exact (h.stands_of _ hw.stage_eq).2.elim
  | rewind hw => exact (h.stands_of _ hw.stage_eq).2.elim
  | @read hd goal new hw hs hr hb =>
    obtain rfl := h.opened_eq hs
    refine h.read hacc hw hr hb (.read hw hs hr hb) rfl rfl ?_
    rw [List.length_map]
    exact Splitter.length_push_le _ new
  | flush hw hc hh =>
    refine ⟨⟨s, h.goes hacc (.flush hw hc hh) rfl (.inl ⟨.inr ⟨_, .leave, rfl⟩, .leave, rfl,
      (h.stands_of _ hw.stage_eq).2, fun _ => rfl⟩)⟩, .inr ?_⟩
    rw [cost_ready w.fs hw.1]
    exact (by decide : 1 + 1 + 2 < 5)
  | leave hw hf => cases h.not_follow.symm.trans hf
  | last hw hf => cases h.not_follow.symm.trans hf
  | finish hw =>
    refine ⟨⟨s, h.goes hacc (.finish hw) rfl (.inr ⟨rfl, h.lines_eq hw⟩)⟩, .inr ?_⟩
    rw [cost_ready w.fs hw.1]
    exact Nat.one_pos

end Underway

/-! ## Runs -/

namespace Underway

theorem move (h : Underway c n o bytes w s) {m : Move} (hm : m.routine = true) :
    ∃ s', Underway c n o bytes (w.move m) s' := by
  have hacc := h.accounted.move m
  cases m with
  | work => exact (h.turn hacc (turn_step h.accounted.sound.fits w.fs w.now)).1
  | wait ms => exact ⟨s, { h with accounted := hacc }⟩
  | notify event => exact ⟨s, { h with accounted := hacc }⟩
  | receive max =>
    obtain ⟨hnew, hrest⟩ := h.clean.receive max
    exact ⟨s, { h with
      accounted := hacc, clean := hrest, taken := List.forall_mem_append.2 ⟨h.taken, hnew⟩ }⟩
  | edit => cases hm
  | stop => cases hm
  | cleanup => cases hm

/-- As long as the run has not ended, the engine can go on if the channel is empty. -/
theorem not_blocked (h : Underway c n o bytes w s) (hq : w.tailer.queue = [])
    (he : w.tailer.ended = false) : w.tailer.blocked w.now = false := by
  have hroom := h.accounted.sound.capacity
  unfold ended at he
  unfold blocked
  rcases h.stands with ⟨⟨stage, hf⟩ | ⟨lines, stage, hf⟩, -⟩ | ⟨hend, -⟩
  · rw [hf]
  · rw [hf]
    cases lines with
    | nil => rfl
    | cons line lines => simp [hq, hroom.ne']
  · simp [hend] at he

/-- The run ends if the consumer goes on taking. -/
theorem ends (h : Underway c n o bytes w s) (hq : w.tailer.queue = []) :
    ∃ count, (World.serve^[count] w).tailer.ended = true ∧
      (World.serve^[count] w).tailer.queue = [] := by
  induction hcost : cost w.fs w.tailer using Nat.strong_induction_on generalizing w s with
  | _ k ih =>
    cases he : w.tailer.ended with
    | true => exact ⟨0, he, hq⟩
    | false =>
      have hturn := h.turn (h.accounted.move .work)
        (turn_step h.accounted.sound.fits w.fs w.now)
      obtain ⟨⟨s', h'⟩, hb | hlt⟩ := hturn
      · cases (h.not_blocked hq he).symm.trans hb
      · obtain ⟨s'', h''⟩ := h'.move (m := .receive none) rfl
        obtain ⟨count, hcount⟩ := ih _ (hcost ▸ hlt) h'' (World.queue_serve w) rfl
        exact ⟨count + 1, hcount⟩

theorem taken_append (h : Underway c n o bytes w s) : w.taken ++ w.tailer.queue = s.lines := by
  have htold := h.accounted.told
  rw [texts_of_clean h.taken h.clean, h.sections, told_cons] at htold
  exact htold

theorem lines_prefix (h : Underway c n o bytes w s) : s.lines <+: share c o true n bytes := by
  rcases h.stands with ⟨-, stage, hstage, hst⟩ | ⟨-, hlines⟩
  · obtain ⟨s', past, flushed, hsec, -, ho⟩ := h.accounted.ledger.open h.handle
    obtain ⟨rfl, -⟩ := List.cons.inj (h.sections.symm.trans hsec)
    have hl := h.accounted.sound.limit_ne_zero
    have hsent := ho.sent
    rw [h.accounted.sound.limit, h.config] at hsent hl
    rw [← h.base, ← h.object]
    cases flushed with
    | false => exact hsent.trans (Rotation.script_prefix_share hl h.input true)
    | true =>
      obtain ⟨hover, hc⟩ := ho.last rfl
      have hin : s.input = bytes.drop s.base := by
        unfold Phase.over at hover
        rw [hstage] at hover
        cases stage <;> first | exact hst.1 | cases hover
      rw [h.config] at hc
      have hscript : s.script c.maxLineSize (true && !c.completeLines) = _ :=
        Rotation.script_eq_share hin true
      rw [hc] at hscript
      exact hscript ▸ hsent
  · rw [hlines]

end Underway

variable {fs : FileSystem} {path : Path} {config : Config}

theorem underway_start (hf : config.follow = false) (hn : fs.find path = .ok n)
    (hb : fs.bytes? n = some bytes)
    (ho : config.startOffset (FileSystem.identify n) bytes.length = .ok o)
    (ht : Tailer.start fs path config = .ok t) :
    ∃ s, Underway config n o bytes (World.start fs t) s := by
  have hacc := World.accounted_start ht
  obtain ⟨-, ⟨n', o', hopen, ho', rfl⟩ | ⟨f, hopen, -, -, rfl⟩⟩ := start_cases ht
  · obtain rfl := Except.ok.inj ((FileSystem.find_of_openFile hopen).symm.trans hn)
    rw [FileSystem.length_of_bytes? hb] at ho'
    obtain rfl := Except.ok.inj (ho'.symm.trans ho)
    exact ⟨.ofSession ⟨n', FileSystem.identify n', o'⟩, hacc, rfl, hf, ⟨rfl, rfl⟩, hb, rfl, rfl,
      rfl, rfl, List.nil_prefix, .inl ⟨.inl ⟨_, rfl⟩, .read .catchUp, rfl, trivial⟩,
      fun _ hl => absurd hl List.not_mem_nil, fun _ hl => absurd hl List.not_mem_nil⟩
  · cases (FileSystem.openFile_of_bytes? hn hb).symm.trans hopen

end OneShot

/-- A one-shot run gives out the lines of the file from where it starts, and ends. -/
theorem delivers_share {fs : FileSystem} {path : Path} {config : Config} {n o : Nat}
    {bytes : Bytes} (hv : config.fault? = none) (hf : config.follow = false)
    (hn : fs.find path = .ok n) (hb : fs.bytes? n = some bytes)
    (ho : config.startOffset (FileSystem.identify n) bytes.length = .ok o) :
    Delivers fs path config (share config o true n bytes) := by
  have reached (t w) (ht : Tailer.start fs path config = .ok t)
      (hw : (World.start fs t).Reaches Undisturbed w) :
      ∃ s, OneShot.Underway config n o bytes w s :=
    hw.invariant (motive := fun v => ∃ s, OneShot.Underway config n o bytes v s)
      (OneShot.underway_start hf hn hb ho ht) fun u m ⟨s, hu⟩ hm => hu.move hm
  refine ⟨?_, fun t w ht hw => ?_, fun t w ht hw => ?_, fun t w ht hw he hq => ?_⟩
  · rw [← FileSystem.length_of_bytes? hb] at ho
    exact Tailer.exists_start hv (FileSystem.openFile_of_bytes? hn hb) ho
  · obtain ⟨s, hu⟩ := reached t w ht hw
    exact (hu.taken_append ▸ List.prefix_append _ _).trans hu.lines_prefix
  · obtain ⟨s, hu⟩ := reached t w.serve ht (World.reaches_serve hw)
    obtain ⟨count, hcount⟩ := hu.ends (World.queue_serve w)
    exact ⟨count + 1, hcount⟩
  · obtain ⟨s, hu⟩ := reached t w ht hw
    have htaken := hu.taken_append
    rw [hq, List.append_nil] at htaken
    unfold Tailer.ended at he
    rcases hu.stands with ⟨-, stage, hstage, -⟩ | ⟨-, hlines⟩
    · exact absurd (of_decide_eq_true he) (Phase.ne_ended hstage)
    · exact htaken.trans hlines

end LogFollower
