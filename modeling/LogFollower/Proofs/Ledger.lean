import LogFollower.Proofs.Splitter.Greedy
import LogFollower.Proofs.World

/-!
# The ledger of a run

However the files change and the moves are ordered, the lines given out in a section are those of
the greedy split of what was read in it. A section that is over has given out all of them
(`Section.Shut`); of the section that is open, some are still in the engine's hand (`Section.Open`).
`Ledger` says this of all sections, `Ledger.turn` that every step keeps it, and `World.Accounted` is
what holds of every run because of that (`Reaches.accounted`).
-/

namespace LogFollower

/-- The lines that a phase is about to hand over. -/
def Phase.inHand : Phase → List Line
  | .handing lines _ _ => lines
  | _ => []

/-- Whether a stage comes behind the last line of a file. -/
def Stage.over : Stage → Bool
  | .leave => true
  | .finish => true
  | _ => false

/-- Whether a phase goes on behind the last line of a file, if it goes on. -/
def Phase.over (p : Phase) : Bool := p.stage?.all (·.over)

namespace Engine

variable {fs : FileSystem} {e : Engine} {stage next : Stage}

theorem Passes.over {watcher : Watcher}
    (h : Passes fs e stage next watcher) (ho : stage.over = true) : next.over = true := by
  cases h <;> first | rfl | cases ho

theorem Fails.over {error : TailError}
    (h : Fails fs e stage error next) (ho : stage.over = true) : next.over = true := by
  cases h <;> cases ho

theorem Waits.over (h : Waits fs e stage next)
    (ho : stage.over = true) : next.over = true := by
  cases h <;> cases ho

end Engine

namespace Section

open Greedy

/-- The pieces of what was read; with the rest as a last one, if it was given up too. -/
def pieces (s : Section) (limit : Option Nat) (flushed : Bool) : List Piece :=
  Greedy.pieces limit s.base s.input ++
    if flushed then remainder limit s.base s.input else []

def script (s : Section) (limit : Option Nat) (flushed : Bool) : List Line :=
  (s.pieces limit flushed).map (Line.ofPiece (some s.identifier))

def splitter (s : Section) (limit : Option Nat) (flushed : Bool) : Splitter :=
  if flushed then .start (s.base + s.input.length) limit else .after limit s.base s.input

/-- All lines of the section were given out. -/
def Shut (s : Section) (limit : Option Nat) : Prop := ∃ flushed, s.lines = s.script limit flushed

/-- The engine is in the section: its handle stands behind what was read, and what was not given
out is in its hand. -/
structure Open (s : Section) (limit : Option Nat) (e : Engine) (flushed : Bool) : Prop where
  handle : e.source = .opened ⟨s.object, s.identifier, s.base + s.input.length⟩
  cutting : e.splitter = s.splitter limit flushed
  sent : s.lines <+: s.script limit flushed
  rest : e.phase ≠ .ended → s.lines ++ texts e.phase.inHand = s.script limit flushed
  last : flushed = true → e.phase.over = true ∧ e.config.completeLines = false

theorem Open.shut {s : Section} {limit : Option Nat} {e : Engine} {flushed : Bool}
    (h : s.Open limit e flushed) (hon : e.phase ≠ .ended) (hl : texts e.phase.inHand = []) :
    s.Shut limit :=
  ⟨flushed, by rw [← h.rest hon, hl, List.append_nil]⟩

/-- With nothing in hand behind the last line of a file, the rest was given out too if it is
wanted. -/
theorem Open.lines_of_emptied {s : Section} {limit : Option Nat} {e : Engine} {flushed : Bool}
    (h : s.Open limit e flushed) (hon : e.phase ≠ .ended) (hl : texts e.phase.inHand = [])
    (he : e.config.completeLines = false → e.splitter.held = []) :
    s.lines = s.script limit !e.config.completeLines := by
  have hlines := h.rest hon
  rw [hl, List.append_nil] at hlines
  rw [hlines]
  cases hc : e.config.completeLines with
  | true =>
    cases flushed with
    | false => rfl
    | true => exact absurd ((h.last rfl).2.symm.trans hc) nofun
  | false =>
    cases flushed with
    | true => rfl
    | false =>
      have hrest : Greedy.rest limit s.input = [] := by
        have := he hc
        rw [h.cutting] at this
        exact List.reverse_eq_nil_iff.1 this
      simp [script, pieces, remainder, hrest]

theorem Open.not_flushed {s : Section} {limit : Option Nat} {e : Engine} {flushed : Bool}
    (h : s.Open limit e flushed) (ho : e.phase.over = false) : flushed = false :=
  Bool.eq_false_iff.2 fun hf => absurd ((h.last hf).1.symm.trans ho) nofun

theorem script_of_input {s : Section} (h : s.input = []) (limit : Option Nat) :
    s.script limit false = [] := by
  simp [script, pieces, Greedy.pieces, h, Greedy.split_of_cut_none, Greedy.cut_nil, Greedy.place]

/-- Reads follow one another from an offset on. -/
def Contiguous (offset : Nat) : List (Nat × Bytes) → Prop
  | [] => True
  | (at', bytes) :: more => at' = offset ∧ Contiguous (offset + bytes.length) more

theorem contiguous_append {offset at' : Nat} {bytes : Bytes} {reads : List (Nat × Bytes)}
    (h : Contiguous offset reads) (hat : at' = offset + (reads.map Prod.snd).flatten.length) :
    Contiguous offset (reads ++ [(at', bytes)]) := by
  induction reads generalizing offset with
  | nil => exact ⟨by simpa using hat, trivial⟩
  | cons r reads ih =>
    refine ⟨h.1, ih h.2 ?_⟩
    rw [hat, List.map_cons, List.flatten_cons, List.length_append, Nat.add_assoc]

end Section

/-- What the sections say of a tailer, newest first. -/
def Ledger (t : Tailer) : List Section → Prop
  | [] => t.engine.source.isAway = true ∧ texts t.engine.phase.inHand = []
  | s :: past =>
    (∀ p ∈ past, p.Shut t.engine.splitter.limit) ∧
    if t.engine.source.isAway then
      s.Shut t.engine.splitter.limit ∧ texts t.engine.phase.inHand = []
    else ∃ flushed, s.Open t.engine.splitter.limit t.engine flushed

namespace Ledger

open Tailer Engine Section Greedy

variable {fs : FileSystem} {now : Nat} {t t' : Tailer} {sections : List Section}

theorem away_of {e : Engine} (h : e.source.isAway = true) : ∃ p, e.source = .away p := by
  cases hs : e.source with
  | opened s => rw [hs] at h; cases h
  | away p => exact ⟨p, rfl⟩

theorem shut (h : Ledger t sections) (ha : t.engine.source.isAway = true) :
    (∀ s ∈ sections, s.Shut t.engine.splitter.limit) ∧ texts t.engine.phase.inHand = [] := by
  cases sections with
  | nil => exact ⟨nofun, h.2⟩
  | cons s past =>
    obtain ⟨hp, hs⟩ := h
    rw [if_pos ha] at hs
    exact ⟨List.forall_mem_cons.2 ⟨hs.1, hp⟩, hs.2⟩

/-- With a file open, the newest section is that of its handle. -/
theorem «open» (h : Ledger t sections) {hd : Session} (ho : t.engine.source = .opened hd) :
    ∃ s past flushed, sections = s :: past ∧ (∀ p ∈ past, p.Shut t.engine.splitter.limit) ∧
      s.Open t.engine.splitter.limit t.engine flushed := by
  cases sections with
  | nil => have := h.1; rw [ho] at this; cases this
  | cons s past =>
    obtain ⟨hp, hs⟩ := h
    rw [if_neg (by rw [ho]; exact Bool.false_ne_true)] at hs
    obtain ⟨flushed, hs⟩ := hs
    exact ⟨s, past, flushed, rfl, hp, hs⟩

theorem of_shut (ha : t.engine.source.isAway = true) (hl : texts t.engine.phase.inHand = [])
    (hs : ∀ s ∈ sections, s.Shut t.engine.splitter.limit) : Ledger t sections := by
  cases sections with
  | nil => exact ⟨ha, hl⟩
  | cons s past =>
    obtain ⟨hs, hp⟩ := List.forall_mem_cons.1 hs
    refine ⟨hp, ?_⟩
    rw [if_pos ha]
    exact ⟨hs, hl⟩

theorem of_open {s : Section} {past : List Section} (flushed : Bool)
    (hp : ∀ p ∈ past, p.Shut t.engine.splitter.limit)
    (hs : s.Open t.engine.splitter.limit t.engine flushed) : Ledger t (s :: past) := by
  refine ⟨hp, ?_⟩
  rw [if_neg (by rw [hs.handle]; exact Bool.false_ne_true)]
  exact ⟨flushed, hs⟩

theorem lines_begin (h : Ledger t sections) :
    ∀ s ∈ sections, ∃ flushed, s.lines <+: s.script t.engine.splitter.limit flushed := by
  have shut {s : Section} : s.Shut t.engine.splitter.limit →
      ∃ flushed, s.lines <+: s.script t.engine.splitter.limit flushed :=
    fun ⟨flushed, hs⟩ => ⟨flushed, hs ▸ List.prefix_rfl⟩
  cases ho : t.engine.source with
  | away p => exact fun s hs => shut ((h.shut (by rw [ho]; rfl)).1 s hs)
  | opened hd =>
    obtain ⟨s, past, flushed, rfl, hp, hs⟩ := h.open ho
    exact List.forall_mem_cons.2 ⟨⟨flushed, hs.sent⟩, fun p hp' => shut (hp p hp')⟩

/-- A step that neither reads nor gives out keeps the ledger. -/
theorem frame (h : Ledger t sections) (hsrc : t'.engine.source = t.engine.source)
    (hspl : t'.engine.splitter = t.engine.splitter)
    (hconf : t'.engine.config = t.engine.config)
    (hand : t'.engine.phase ≠ .ended →
      t.engine.phase ≠ .ended ∧ texts t'.engine.phase.inHand = texts t.engine.phase.inHand)
    (hlast : t.engine.phase.over = true → t'.engine.phase.over = true) : Ledger t' sections := by
  cases ha : t.engine.source.isAway with
  | true =>
    obtain ⟨hs, hl⟩ := h.shut ha
    refine of_shut (by rw [hsrc, ha]) ?_ (by rw [hspl]; exact hs)
    by_cases he : t'.engine.phase = .ended
    · rw [he]; rfl
    · rw [(hand he).2, hl]
  | false =>
    cases ho : t.engine.source with
    | away p => rw [ho] at ha; cases ha
    | opened hd =>
      obtain ⟨s, past, flushed, rfl, hp, hs⟩ := h.open ho
      refine of_open flushed (by rw [hspl]; exact hp) ?_
      rw [hspl]
      exact ⟨hsrc.trans hs.handle, hspl.trans hs.cutting, hs.sent,
        fun he => by rw [(hand he).2]; exact hs.rest (hand he).1,
        fun hf => ⟨hlast (hs.last hf).1, hconf ▸ (hs.last hf).2⟩⟩

/-! ## One step -/

theorem no_text (h : Ledger t sections) (ha : t.engine.source.isAway = true) {line : Line}
    {lines : List Line} {rest : Bool} {next : Stage}
    (hp : t.engine.phase = .handing (line :: lines) rest next) :
    texts [line] = [] ∧ texts lines = [] := by
  have hl := (h.shut ha).2
  rw [hp] at hl
  exact List.append_eq_nil_iff.1 ((texts_cons line lines).symm.trans hl)

theorem hand (h : Ledger t sections) {line : Line} {lines : List Line} {rest : Bool}
    {next : Stage} (hp : t.engine.phase = .handing (line :: lines) rest next)
    (queue : List Line) :
    Ledger { t.withPhase (.handing lines rest next) with queue } (noteLines [line] sections) := by
  have hand : texts t.engine.phase.inHand = texts [line] ++ texts lines := by
    rw [hp]; exact texts_cons line lines
  cases ha : t.engine.source.isAway with
  | true =>
    have hl := h.no_text ha hp
    refine of_shut ha hl.2 ?_
    cases sections with
    | nil => exact fun s hs => by cases hs
    | cons s past => simp only [noteLines, hl.1, List.append_nil]; exact (h.shut ha).1
  | false =>
    cases ho : t.engine.source with
    | away p => rw [ho] at ha; cases ha
    | opened hd =>
      obtain ⟨s, past, flushed, rfl, hpast, hs⟩ := h.open ho
      have hrest := hs.rest (by rw [hp]; exact Phase.ne_ended rfl)
      rw [hand, ← List.append_assoc] at hrest
      refine of_open flushed hpast ⟨hs.handle, hs.cutting, ⟨_, hrest⟩,
        fun _ => hrest, fun hf => ⟨?_, (hs.last hf).2⟩⟩
      have := (hs.last hf).1
      rw [hp] at this
      exact this

theorem all_shut (h : Ledger t sections) (hon : t.engine.phase ≠ .ended)
    (hl : texts t.engine.phase.inHand = []) :
    ∀ s ∈ sections, s.Shut t.engine.splitter.limit := by
  cases ho : t.engine.source with
  | away p => exact (h.shut (by rw [ho]; rfl)).1
  | opened hd =>
    obtain ⟨s, past, flushed, rfl, hp, hs⟩ := h.open ho
    exact List.forall_mem_cons.2 ⟨hs.shut hon hl, hp⟩

/-- A handle that is placed begins a section. -/
theorem place (h : ∀ s ∈ sections, s.Shut t.engine.splitter.limit) {e : Engine} {hd : Session}
    (hi : hd.identifier = FileSystem.identify hd.object) (hsrc : e.source = .opened hd)
    (hspl : e.splitter = t.engine.splitter.reset hd.position)
    (hph : e.phase = .ready (.read .catchUp)) :
    Ledger { t with engine := e } (.ofSession hd :: sections) := by
  have hlim : e.splitter.limit = t.engine.splitter.limit := by rw [hspl]; rfl
  refine of_open false (by rw [hlim]; exact h) ⟨?_, ?_, List.nil_prefix, ?_, nofun⟩
  · rw [hsrc]
    show _ = Source.opened ⟨hd.object, FileSystem.identify hd.object, hd.position⟩
    rw [← hi]
  · show e.splitter = .after e.splitter.limit hd.position []
    rw [Splitter.after_nil, hlim, hspl]; rfl
  · intro
    rw [hph, script_of_input rfl]; rfl

theorem script_noteRead (s : Section) {limit : Option Nat} (hl : limit ≠ some 0) (offset : Nat)
    (bytes : Bytes) :
    { s with reads := s.reads ++ [(offset, bytes)] }.script limit false =
      s.script limit false ++
        ((s.splitter limit false).push bytes).1.map (Line.ofPiece (some s.identifier)) := by
  have hin := s.input_read offset bytes
  show ((Greedy.pieces limit s.base _ ++ []).map _) = _
  rw [hin, Greedy.pieces_append hl, List.append_nil, List.map_append]
  show _ = (Greedy.pieces limit s.base s.input ++ []).map _ ++
    ((Splitter.after limit s.base s.input).push bytes).1.map _
  rw [Splitter.push_after hl, List.append_nil]
  rfl

/-- Bytes that are read bring the lines they complete into the hand. -/
theorem read (h : Ledger t sections) (hl : t.engine.splitter.limit ≠ some 0) {goal : Goal}
    (hw : t.engine.phase = .ready (.read goal)) {hd : Session}
    (hd' : t.engine.source = .opened hd) {bytes : Bytes} {e : Engine}
    (hsrc : e.source = .opened { hd with position := hd.position + bytes.length })
    (hspl : e.splitter = (t.engine.splitter.push bytes).2)
    (hph : e.phase = .handing ((t.engine.splitter.push bytes).1.map
      (Line.ofPiece (some hd.identifier))) false (.read goal)) :
    Ledger { t with engine := e } (noteRead hd.position bytes sections) := by
  obtain ⟨s, past, flushed, rfl, hp, hs⟩ := h.open hd'
  obtain rfl := hs.not_flushed (by rw [hw]; rfl)
  have hd_eq : hd = ⟨s.object, s.identifier, s.base + s.input.length⟩ :=
    Source.opened.inj (hd'.symm.trans hs.handle)
  have hlim : e.splitter.limit = t.engine.splitter.limit := by rw [hspl, Splitter.limit_push]
  have hin := s.input_read hd.position bytes
  have hscript := script_noteRead s hl hd.position bytes
  rw [← hs.cutting] at hscript
  have hrest := hs.rest (by rw [hw]; exact Phase.ne_ended rfl)
  rw [hw, show texts (Phase.ready (.read goal)).inHand = [] from rfl, List.append_nil] at hrest
  refine of_open false (by rw [hlim]; exact hp) ⟨?_, ?_, ?_, ?_, nofun⟩
  · rw [hsrc, hin, hd_eq, List.length_append, ← Nat.add_assoc]
    rfl
  · rw [hlim, hspl, hs.cutting]
    show _ = Splitter.after _ s.base _
    rw [hin]
    exact congrArg Prod.snd (Splitter.push_after hl s.base s.input bytes)
  · rw [hlim, hscript, ← hrest]
    exact List.prefix_append _ _
  · intro
    rw [hlim, hscript, hph, ← hrest]
    show s.lines ++ texts (List.map _ _) = _
    rw [texts_map_ofPiece, hd_eq]

theorem flush (h : Ledger t sections) (hl : t.engine.splitter.limit ≠ some 0)
    (hw : t.engine.phase = .ready .flush) {hd : Session} (hd' : t.engine.source = .opened hd)
    (hh : t.engine.splitter.held ≠ []) {e : Engine} (hc : e.config.completeLines = false)
    (hsrc : e.source = t.engine.source)
    (hspl : e.splitter = t.engine.splitter.reset t.engine.splitter.consumed)
    (hph : e.phase = .handing [Line.ofPiece t.engine.identifier
      ⟨t.engine.splitter.pending, t.engine.splitter.consumed⟩] false .leave) :
    Ledger { t with engine := e } sections := by
  obtain ⟨s, past, flushed, rfl, hp, hs⟩ := h.open hd'
  obtain rfl := hs.not_flushed (by rw [hw]; rfl)
  have hlim : e.splitter.limit = t.engine.splitter.limit := by rw [hspl]; rfl
  have hcut : t.engine.splitter = .after t.engine.splitter.limit s.base s.input := hs.cutting
  have hid : t.engine.identifier = some s.identifier := by
    unfold Engine.identifier
    rw [hs.handle]
  have hrem : [⟨t.engine.splitter.pending, t.engine.splitter.consumed⟩] =
      remainder t.engine.splitter.limit s.base s.input := by
    rw [← Splitter.finish_after hl, ← hcut, Splitter.finish, if_neg hh]
    rfl
  have hscript : s.script t.engine.splitter.limit true = s.script t.engine.splitter.limit false ++
      (remainder t.engine.splitter.limit s.base s.input).map (Line.ofPiece (some s.identifier)) := by
    simp [script, Section.pieces]
  have hrest := hs.rest (by rw [hw]; exact Phase.ne_ended rfl)
  rw [hw, show texts (Phase.ready .flush).inHand = [] from rfl, List.append_nil] at hrest
  refine of_open true (by rw [hlim]; exact hp)
    ⟨hsrc.trans hs.handle, ?_, ?_, ?_, fun _ => ⟨by rw [hph]; rfl, hc⟩⟩
  · rw [hspl, hcut, Splitter.consumed_after hl]
    rfl
  · rw [hlim, hscript, ← hrest]
    exact List.prefix_append _ _
  · intro
    rw [hlim, hscript, hph, ← hrest, hid, ← hrem]
    rfl

/-- Most steps read nothing and give nothing out. -/
theorem quiet_turn (h : Ledger t sections) (hq : t'.queue = t.queue)
    (hsrc : t'.engine.source = t.engine.source) (hspl : t'.engine.splitter = t.engine.splitter)
    (hconf : t'.engine.config = t.engine.config)
    (hand : t'.engine.phase ≠ .ended →
      t.engine.phase ≠ .ended ∧ texts t'.engine.phase.inHand = texts t.engine.phase.inHand)
    (hlast : t.engine.phase.over = true → t'.engine.phase.over = true) :
    Ledger t' (noteLines (t'.queue.drop t.queue.length)
      (noteSource fs sections t.engine.source t'.engine.source)) := by
  rw [hq, List.drop_length, noteLines_nil, hsrc, noteSource_self]
  exact h.frame hsrc hspl hconf hand hlast

/-- A step keeps the ledger. -/
theorem turn (h : Ledger t sections) (hs : t.Sound) (ht : Turn fs now t t') :
    Ledger t' (noteLines (t'.queue.drop t.queue.length)
      (noteSource fs sections t.engine.source t'.engine.source)) := by
  have hl := hs.limit_ne_zero
  cases ht with
  | idle => exact h.quiet_turn rfl rfl rfl rfl (fun he => ⟨he, rfl⟩) id
  | quit => exact h.quiet_turn rfl rfl rfl rfl (fun he => absurd rfl he) (fun _ => rfl)
  | hand hp =>
    show Ledger _ (noteLines (List.drop _ (_ ++ [_]))
      (noteSource fs sections t.engine.source t.engine.source))
    rw [List.drop_left, noteSource_self]
    exact h.hand hp _
  | rest hp | resume hp | wake hp =>
    exact h.quiet_turn rfl rfl rfl rfl (fun _ => by rw [hp]; exact ⟨Phase.ne_ended rfl, rfl⟩)
      (by rw [hp]; exact id)
  | pass hw hp | fail hw hp | wait hw hp =>
    exact h.quiet_turn rfl rfl rfl rfl (fun _ => by rw [hw.1]; exact ⟨Phase.ne_ended rfl, rfl⟩)
      (by rw [hw.1]; exact hp.over)
  | last hw =>
    exact h.quiet_turn rfl rfl rfl rfl (fun _ => by rw [hw.1]; exact ⟨Phase.ne_ended rfl, rfl⟩)
      (fun _ => rfl)
  | finish hw => exact h.quiet_turn rfl rfl rfl rfl (fun he => absurd rfl he) (fun _ => rfl)
  | @«open» n offset hw =>
    have ha : t.engine.source.isAway = true := (hs.fits .reopen hw.stage_eq).symm
    obtain ⟨p, hp⟩ := away_of ha
    rw [List.drop_length, noteLines_nil, hp]
    exact place (h.shut ha).1 rfl rfl rfl rfl
  | @rewind s hw hsrc hc =>
    rw [List.drop_length, noteLines_nil, hsrc]
    simp only [noteSource, if_pos (hs.position_pos hsrc hc)]
    exact place (h.all_shut (Phase.ne_ended hw.stage_eq) (by rw [hw.1]; rfl))
      (hs.identity s hsrc) rfl rfl rfl
  | leave hw =>
    rw [List.drop_length, noteLines_nil]
    show Ledger _ (noteSource fs sections t.engine.source (.away _))
    rw [noteSource_away]
    exact of_shut rfl rfl (h.all_shut (Phase.ne_ended hw.stage_eq) (by rw [hw.1]; rfl))
  | @read s goal bytes hw hsrc hr hb =>
    have hlen : s.position < s.position + bytes.length := by
      have := List.length_pos_of_ne_nil hb; omega
    rw [List.drop_length, noteLines_nil, hsrc]
    simp only [noteSource, if_neg (Nat.not_lt.2 hlen.le), if_pos hlen, Nat.add_sub_cancel_left,
      FileSystem.read_length hr]
    exact h.read hl hw.1 hsrc rfl rfl rfl
  | flush hw hc hh =>
    rw [List.drop_length, noteLines_nil]
    show Ledger _ (noteSource fs sections t.engine.source t.engine.source)
    rw [noteSource_self]
    obtain ⟨s, hsrc⟩ := opened_of_fits hs.fits hw.stage_eq rfl
    exact h.flush hl hw.1 hsrc hh hc rfl rfl rfl

end Ledger

/-! ## Lines sent -/

namespace Tailer

open Engine

variable {fs : FileSystem} {now : Nat} {t t' : Tailer}

theorem Turn.sent (h : Turn fs now t t') :
    ∃ new, t'.queue = t.queue ++ new ∧ new <+: t.engine.phase.inHand := by
  have none {queue : List Line} (hq : queue = t.queue) :
      ∃ new, queue = t.queue ++ new ∧ new <+: t.engine.phase.inHand :=
    ⟨[], by rw [hq, List.append_nil], List.nil_prefix⟩
  cases h with
  | @hand line lines _ _ hp => exact ⟨[line], rfl, by rw [hp]; exact ⟨lines, rfl⟩⟩
  | _ => exact none rfl

/-- What holds of the lines in the channel and in the hand holds of them after a step, if it holds
of lines of text and of the errors that the step can meet. -/
theorem Turn.lines {P : Line → Prop} (h : Turn fs now t t')
    (hl : ∀ l ∈ t.queue ++ t.engine.phase.inHand, P l)
    (text : ∀ identifier p, P (Line.ofPiece identifier p))
    (error : ∀ stage error next, t.Works stage → Fails fs t.engine stage error next →
      P (t.engine.errorLine error))
    (gone : t.Works .leave → t.engine.config.follow = true →
      P (t.engine.errorLine (.gone t.engine.path.display))) :
    ∀ l ∈ t'.queue ++ t'.engine.phase.inHand, P l := by
  have of_hand {t' : Tailer} (hq : t'.queue = t.queue)
      (hh : ∀ l ∈ t'.engine.phase.inHand, P l) : ∀ l ∈ t'.queue ++ t'.engine.phase.inHand, P l := by
    rw [hq]
    exact List.forall_mem_append.2 ⟨fun l hm => hl l (List.mem_append_left _ hm), hh⟩
  have of_nil {t' : Tailer} (hq : t'.queue = t.queue) (hh : t'.engine.phase.inHand = []) :
      ∀ l ∈ t'.queue ++ t'.engine.phase.inHand, P l := of_hand hq (by rw [hh]; exact nofun)
  cases h with
  | idle => exact hl
  | @hand line lines _ _ hp =>
    rw [hp] at hl
    show ∀ l ∈ t.queue ++ [line] ++ lines, P l
    rw [List.append_assoc]
    exact hl
  | fail hw he => exact of_hand rfl (List.forall_mem_singleton.2 (error _ _ _ hw he))
  | last hw hf => exact of_hand rfl (List.forall_mem_singleton.2 (gone hw hf))
  | read => exact of_hand rfl (List.forall_mem_map.2 fun p _ => text _ p)
  | flush => exact of_hand rfl (List.forall_mem_singleton.2 (text _ _))
  | _ => exact of_nil rfl rfl

end Tailer

/-! ## Runs -/

/-- What holds in every world that a tailer can reach: it is sound, its sections are in order, and
the lines given out are those the sections tell. -/
structure World.Accounted (w : World) : Prop where
  sound : w.tailer.Sound
  ledger : Ledger w.tailer w.sections
  told : texts (w.taken ++ w.tailer.queue) = told w.sections
  reads : ∀ s ∈ w.sections, Section.Contiguous s.base s.reads

namespace World

open Tailer

variable {w : World}

theorem reads_noteLines (lines : List Line) {sections : List Section}
    (h : ∀ s ∈ sections, Section.Contiguous s.base s.reads) :
    ∀ s ∈ noteLines lines sections, Section.Contiguous s.base s.reads := by
  cases sections with
  | nil => exact h
  | cons s past =>
    obtain ⟨hs, hp⟩ := List.forall_mem_cons.1 h
    exact List.forall_mem_cons.2 ⟨hs, hp⟩

theorem reads_noteSource {fs : FileSystem} {t : Tailer} {sections : List Section} {source : Source}
    (hl : Ledger t sections) (h : ∀ s ∈ sections, Section.Contiguous s.base s.reads) :
    ∀ s ∈ noteSource fs sections t.engine.source source, Section.Contiguous s.base s.reads := by
  have begun (hd : Session) :
      ∀ s ∈ Section.ofSession hd :: sections, Section.Contiguous s.base s.reads :=
    List.forall_mem_cons.2 ⟨trivial, h⟩
  cases source with
  | away p => rw [noteSource_away]; exact h
  | opened hd' =>
    cases ho : t.engine.source with
    | away p => exact begun hd'
    | opened hd =>
      simp only [noteSource]
      split_ifs
      · exact begun hd'
      · obtain ⟨s, past, flushed, rfl, -, hs⟩ := hl.open ho
        obtain ⟨hc, hp⟩ := List.forall_mem_cons.1 h
        have hpos : hd.position = s.base + s.input.length :=
          congrArg Session.position (Source.opened.inj (ho.symm.trans hs.handle))
        exact List.forall_mem_cons.2 ⟨Section.contiguous_append hc hpos, hp⟩
      · exact h

theorem Accounted.work (h : w.Accounted) : w.work.Accounted := by
  have ht := turn_step h.sound.fits w.fs w.now
  obtain ⟨new, hq, hnew⟩ := ht.sent
  have hdrop : (w.tailer.step w.fs w.now).queue.drop w.tailer.queue.length = new := by
    rw [hq, List.drop_left]
  refine ⟨h.sound.turn ht, h.ledger.turn h.sound ht, ?_,
    reads_noteLines _ (reads_noteSource h.ledger h.reads)⟩
  show texts (w.taken ++ (w.tailer.step w.fs w.now).queue) = LogFollower.told (noteLines _ _)
  rw [hdrop, hq, ← List.append_assoc, texts_append, h.told, told_noteLines, told_noteSource]
  intro hnil
  have hl := h.ledger
  rw [eq_nil_of_noteSource hnil] at hl
  exact List.prefix_nil.1 (hl.2 ▸ hnew.filter _)

theorem Accounted.move (h : w.Accounted) (m : Move) : (w.move m).Accounted := by
  have hs := h.sound
  -- moves other than the engine's change neither its source nor its phase nor its splitter
  have ledger (t : Tailer) (hsrc : t.engine.source = w.tailer.engine.source)
      (hspl : t.engine.splitter = w.tailer.engine.splitter)
      (hconf : t.engine.config = w.tailer.engine.config)
      (hph : t.engine.phase = w.tailer.engine.phase) : Ledger t w.sections :=
    h.ledger.frame hsrc hspl hconf (by rw [hph]; exact fun he => ⟨he, rfl⟩) (by rw [hph]; exact id)
  cases m with
  | edit change => exact ⟨hs, h.ledger, h.told, h.reads⟩
  | work => exact h.work
  | wait ms => exact ⟨hs, h.ledger, h.told, h.reads⟩
  | notify event =>
    exact ⟨⟨hs.valid, hs.fits, hs.limit, hs.identity, hs.position, hs.capacity⟩,
      ledger _ rfl rfl rfl rfl, h.told, h.reads⟩
  | receive max =>
    refine ⟨⟨hs.valid, hs.fits, hs.limit, hs.identity, hs.position, hs.capacity⟩,
      ledger _ rfl rfl rfl rfl, ?_, h.reads⟩
    show texts (w.taken ++ (w.tailer.receive max).1 ++ (w.tailer.receive max).2.2.queue) = _
    rw [List.append_assoc, w.tailer.queue_receive max]
    exact h.told
  | stop =>
    exact ⟨⟨hs.valid, hs.fits, hs.limit, hs.identity, hs.position, hs.capacity⟩,
      ledger _ rfl rfl rfl rfl, h.told, h.reads⟩
  | cleanup =>
    exact ⟨⟨hs.valid, hs.fits, hs.limit, hs.identity, hs.position, hs.capacity⟩,
      ledger _ rfl rfl rfl rfl, h.told, h.reads⟩

theorem accounted_start {fs : FileSystem} {path : Path} {config : Config} {t : Tailer}
    (h : Tailer.start fs path config = .ok t) : (World.start fs t).Accounted := by
  have hs := sound_start h
  obtain ⟨-, ⟨n, offset, -, -, rfl⟩ | ⟨f, -, -, -, rfl⟩⟩ := start_cases h
  · refine ⟨hs, ?_, rfl, List.forall_mem_singleton.2 trivial⟩
    refine Ledger.place (t := ⟨⟨path, config, .away none, .start 0 config.maxLineSize,
      .start fs path config, .ready .arm⟩, [], max 1 config.channelCapacity, false, false⟩)
      (fun _ hm => absurd hm List.not_mem_nil) rfl rfl rfl rfl
  · exact ⟨hs, ⟨rfl, rfl⟩, rfl, fun _ => nofun⟩

/-- Whatever happens, every line given out is accounted for. -/
theorem Reaches.accounted {allowed : World → Move → Prop} {v : World} (h : Reaches allowed w v)
    (hw : w.Accounted) : v.Accounted :=
  h.invariant hw fun _ m hu _ => hu.move m

end World
end LogFollower
