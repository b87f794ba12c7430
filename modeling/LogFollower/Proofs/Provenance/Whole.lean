import LogFollower.Proofs.Provenance
import LogFollower.Proofs.Reports

/-!
# Whole lines

If only complete lines are wanted, the bytes of every line end with a line feed, or they are as many
as a line may have and the line goes on behind them (`Section.Whole`). What was read behind the last
line of a section is never given out: not at the end of the file, and not as the beginning of
another line once the file was left or found cut short, because the lines after that are those of
other sections (`whole_lines`).

The length of a file is all that tells that it was cut short. If it has grown again to what was read
of it before the engine looks, what is there now goes on with what was read before
(`rest_joined_overgrown`).
-/

namespace LogFollower

namespace Greedy

/-- Bytes that make a line with `more` behind them: a line feed ends them, or they are as many as
the limit and the line goes on. -/
inductive Complete (limit : Option Nat) (more : Bytes) : Bytes → Prop
  | ended {line : Bytes} (hf : lineFeed ∉ line) : Complete limit more (line ++ [lineFeed])
  | cut {bytes : Bytes} {b : UInt8} (hl : limit = some bytes.length) (hf : lineFeed ∉ bytes)
      (hb : more.head? = some b) (hne : b ≠ lineFeed) : Complete limit more bytes

theorem complete_take {limit : Option Nat} {m : Nat} {bytes : Bytes} (hl : limit = some m)
    (hm : m < bytes.length) (hf : lineFeed ∉ bytes.take (m + 1)) :
    Complete limit (bytes.drop m) (bytes.take m) := by
  rw [List.take_succ_eq_append_getElem hm, List.mem_append, List.mem_singleton, not_or] at hf
  refine .cut ?_ hf.1 ?_ (Ne.symm hf.2)
  · rw [List.length_take_of_le hm.le, hl]
  · rw [List.drop_eq_getElem_cons hm]
    rfl

end Greedy

namespace Section

open Greedy

variable {s : Section} {limit : Option Nat}

/-- The line that begins at an offset is whole: its bytes end with a line feed, or they were cut
from a longer line. -/
def Whole (s : Section) (limit : Option Nat) (start : Nat) (l : Line) : Prop :=
  Complete limit (s.input.drop (l.offset - s.base)) (s.slice start l.offset)

/-- Whole lines, the first from an offset on, and each of the others from where the one before it
ended. -/
def AllWhole (s : Section) (limit : Option Nat) : Nat → List Line → Prop
  | _, [] => True
  | start, l :: more => s.Whole limit start l ∧ s.AllWhole limit l.offset more

theorem AllWhole.mono {start : Nat} {lines more : List Line} (h : s.AllWhole limit start more)
    (hp : lines <+: more) : s.AllWhole limit start lines := by
  induction lines generalizing start more with
  | nil => trivial
  | cons l lines ih =>
    obtain ⟨rest, rfl⟩ := hp
    exact ⟨h.1, ih h.2 (List.prefix_append _ _)⟩

/-- The pieces of what was read from some bytes on give whole lines. -/
theorem allWhole_place {done bytes rest : Bytes} {ps : List Bytes}
    (h : Divides limit bytes ps rest) (hin : s.input = done ++ bytes) :
    s.AllWhole limit (s.base + done.length)
      ((place (s.base + done.length) ps).map (Line.ofPiece (some s.identifier))) := by
  -- a piece that is complete, and those of what comes behind it
  have step {done p more : Bytes} {ps : List Bytes} (hin : s.input = done ++ p ++ more)
      (hc : Complete limit more p)
      (hmore : s.AllWhole limit (s.base + (done ++ p).length)
        ((place (s.base + (done ++ p).length) ps).map (Line.ofPiece (some s.identifier)))) :
      s.AllWhole limit (s.base + done.length)
        ((place (s.base + done.length) (p :: ps)).map (Line.ofPiece (some s.identifier))) := by
    rw [List.length_append, ← Nat.add_assoc] at hmore
    refine ⟨?_, hmore⟩
    show Complete limit (s.input.drop (s.base + done.length + p.length - s.base))
      (s.slice (s.base + done.length) (s.base + done.length + p.length))
    rw [slice_append hin, Nat.add_assoc, Nat.add_sub_cancel_left, ← List.length_append, hin,
      List.drop_left]
    exact hc
  induction h generalizing done with
  | @line line more ps rest hf _ _ ih =>
    have hin' : s.input = done ++ (line ++ [lineFeed]) ++ more := by rw [hin]; simp
    exact step hin' (.ended hf) (ih hin')
  | @cut m bytes ps rest hl hm hf _ ih =>
    have hin' : s.input = done ++ bytes.take m ++ bytes.drop m := by
      rw [List.append_assoc, List.take_append_drop, hin]
    exact step hin' (complete_take hl hm hf) (ih hin')
  | rest => trivial

theorem allWhole_script (s : Section) (hl : limit ≠ some 0) :
    s.AllWhole limit s.base (s.script limit false) := by
  unfold script pieces
  rw [if_neg Bool.false_ne_true, List.append_nil]
  have hdivides : Divides limit s.input _ (Greedy.rest limit s.input) := (divides_iff hl).2 rfl
  exact @allWhole_place s limit [] _ _ _ hdivides rfl

end Section

namespace World

open Tailer

variable {u v w : World} {old : List Section}

/-! ## How the sections go on -/

def Away (w : World) : Prop := w.tailer.engine.source.isAway = true

/-- What a move does to the sections: they stay as they are, with no file open if none was; or one
is begun; or the newest goes on, in the file that is open. -/
inductive Proceeds (w v : World) : Prop
  | stays (hs : v.sections = w.sections) (ha : w.Away → v.Away)
  | begins {s : Section} (hs : v.sections = s :: w.sections) (ho : ¬ v.Away)
  | goesOn {s s' : Section} {past : List Section} (hs : w.sections = s :: past)
      (hs' : v.sections = s' :: past) (hw : ¬ w.Away) (ho : ¬ v.Away)

theorem not_away {hd : Session} (h : w.tailer.engine.source = .opened hd) :
    ¬ w.Away := by
  unfold Away
  rw [h]
  exact nofun

theorem proceeds_after (ha : w.Accounted) {t : Tailer} (h : Turn w.fs w.now w.tailer t) :
    w.Proceeds (w.after t) := by
  have stays {t : Tailer} (hq : t.queue = w.tailer.queue)
      (hsrc : t.engine.source = w.tailer.engine.source) : w.Proceeds (w.after t) :=
    .stays (sections_after hq hsrc) fun hw => (congrArg Source.isAway hsrc).trans hw
  cases h with
  | @hand line lines rest next hp =>
    have hsec := sections_after_hand (w := w)
      (t := { w.tailer.withPhase (.handing lines rest next) with
        queue := w.tailer.queue ++ [line] }) rfl rfl
    cases ho : w.tailer.engine.source with
    | away p =>
      have hnone := ha.ledger.no_text (by rw [ho]; rfl) hp
      exact .stays (hsec.trans (noteLines_of_texts hnone.1 _)) id
    | opened hd =>
      obtain ⟨s, past, flushed, hs, -, -⟩ := ha.ledger.open ho
      rw [hs] at hsec
      exact .goesOn hs hsec (not_away ho) (not_away (w := w.after _) ho)
  | «open» hw =>
    obtain ⟨p, hp⟩ := Ledger.away_of (ha.sound.fits .reopen hw.stage_eq).symm
    exact .begins (sections_after_open rfl hp rfl) (not_away (w := w.after _) rfl)
  | @rewind s hw hs hc =>
    have hpos := ha.sound.position_pos hs hc
    exact .begins (sections_after_rewind rfl hs rfl hpos) (not_away (w := w.after _) rfl)
  | @read hd goal bytes hw hs hr hb =>
    obtain ⟨s, past, flushed, hsec, -, -⟩ := ha.ledger.open hs
    have hread : noteRead hd.position bytes w.sections = _ :: past :=
      congrArg (noteRead hd.position bytes) hsec
    refine .goesOn hsec (Eq.trans ?_ hread) (not_away hs) (not_away (w := w.after _) rfl)
    exact sections_after_read rfl hs rfl hr hb
  | leave => exact .stays (sections_after_leave rfl rfl) fun _ => rfl
  | _ => exact stays rfl rfl

theorem proceeds_move (ha : w.Accounted) (m : Move) : w.Proceeds (w.move m) := by
  cases m with
  | work => exact proceeds_after ha (turn_step ha.sound.fits w.fs w.now)
  | _ => exact .stays rfl id

/-- The sections up to now are kept, and only begun ones go on: if there is none yet, no file is
open. -/
def Beyond (old : List Section) (v : World) : Prop :=
  ∃ new, v.sections = new ++ old ∧ (new = [] → v.Away)

theorem Beyond.move (h : Beyond old u) (ha : u.Accounted) (m : Move) : Beyond old (u.move m) := by
  obtain ⟨new, hu, hnil⟩ := h
  cases proceeds_move ha m with
  | stays hs haway => exact ⟨new, hs.trans hu, fun hn => haway (hnil hn)⟩
  | @begins s hs ho => exact ⟨s :: new, hs.trans (congrArg (s :: ·) hu), nofun⟩
  | @goesOn s s' past hs hs' hw ho =>
    cases new with
    | nil => exact absurd (hnil rfl) hw
    | cons s₀ new =>
      obtain ⟨-, rfl⟩ := List.cons_eq_cons.1 (hs.symm.trans hu)
      exact ⟨s' :: new, hs', nofun⟩

/-! ## What is kept back -/

/-- The rest of no section was given up. -/
def KeepsRests (w : World) : Prop :=
  ∀ s ∈ w.sections, s.lines <+: s.script w.tailer.engine.config.maxLineSize false

theorem Accounted.keeps_rest (ha : w.Accounted) (ho : ¬ w.Away)
    (hc : w.tailer.engine.config.completeLines = true) {s : Section} {past : List Section}
    (hs : w.sections = s :: past) :
    s.lines <+: s.script w.tailer.engine.config.maxLineSize false := by
  have hledger := ha.ledger
  rw [hs] at hledger
  obtain ⟨-, hopen⟩ := hledger
  obtain ⟨flushed, hopen⟩ := (if_neg ho).mp hopen
  have hflushed : flushed = false :=
    Bool.eq_false_iff.2 fun hf => absurd (hc.symm.trans (hopen.last hf).2) nofun
  rw [← ha.sound.limit, ← hflushed]
  exact hopen.sent

theorem KeepsRests.move (h : w.KeepsRests) (ha : w.Accounted)
    (hc : w.tailer.engine.config.completeLines = true) (m : Move) : (w.move m).KeepsRests := by
  have hconfig := (ha.setup_move m).1
  have hnewest := (ha.move m).keeps_rest
  unfold KeepsRests
  rw [hconfig] at hnewest ⊢
  cases proceeds_move ha m with
  | stays hs =>
    rw [hs]
    exact h
  | begins hs ho =>
    rw [hs]
    exact List.forall_mem_cons.2 ⟨hnewest ho hc hs, h⟩
  | goesOn hs hs' _ ho =>
    unfold KeepsRests at h
    rw [hs] at h
    rw [hs']
    exact List.forall_mem_cons.2 ⟨hnewest ho hc hs', (List.forall_mem_cons.1 h).2⟩

/-! ## Leaving a file and starting over -/

/-- The engine is about to be done with what it read: it leaves the file, or it looks and finds it
shorter than what was read of it. -/
inductive Breaks (w : World) : Prop
  | leaves (h : w.tailer.Works .leave) (hf : w.tailer.engine.config.follow = true)
      (hr : w.tailer.engine.config.reopen = true)
  | shorter {hd : Session} (h : w.tailer.Works .check) (hs : w.tailer.engine.source = .opened hd)
      (hn : w.fs.find w.tailer.engine.path = .ok hd.object)
      (hlt : w.fs.length hd.object < hd.position)

theorem Breaks.beyond (h : w.Breaks) (ha : w.Accounted) : Beyond w.sections w.work := by
  cases h with
  | leaves h hf hr =>
    have hstep : w.tailer.step w.fs w.now = { w.tailer with engine := { w.tailer.engine with
        source := .away w.tailer.engine.identifier, phase := .ready .arm } } := by
      rw [step_works h]
      simp [Engine.work, Engine.leave, hf, hr]
    refine ⟨[], ?_, fun _ => ?_⟩
    · unfold work
      rw [hstep]
      exact sections_after_leave rfl rfl
    · unfold work
      rw [hstep]
      exact rfl
  | @shorter hd h hs hn hlt =>
    have hc : classify (w.fs.look w.tailer.engine.path) hd.identifier
        w.tailer.engine.splitter.consumed = .ok .truncated := by
      rw [classify_look, hn, ha.sound.identity hd hs, ← ha.sound.position hd hs]
      simp [Change.ofLength, hlt, hlt.le]
    have hstep : w.tailer.step w.fs w.now =
        { w.tailer with engine := (w.tailer.engine.rewind hd).goto (.read .catchUp) } := by
      rw [step_works h]
      simp [Engine.work, Engine.check, hs, hc]
    refine ⟨[.ofSession { hd with position := 0 }], ?_, fun h => absurd h (List.cons_ne_nil _ _)⟩
    unfold work
    rw [hstep]
    exact sections_after_rewind rfl hs rfl (Nat.zero_lt_of_lt hlt)

end World

theorem told_append (new old : List Section) : told (new ++ old) = told old ++ told new := by
  simp [told]

/-- Only whole lines are given out, if only complete ones are wanted, in every run. The lines of
text are those of the sections; those of a section tile what was read in it, and the bytes of each
end with a line feed or were cut from a longer line. When the engine leaves a file, or finds it
shorter than what was read of it, the sections up to then have given out all they ever will: the
lines after that are those of others. -/
theorem whole_lines {fs : FileSystem} {path : Path} {config : Config} {t : Tailer}
    (h : Tailer.start fs path config = .ok t) (hc : config.completeLines = true) {w : World}
    (hw : (World.start fs t).Reaches World.anyMove w) :
    texts w.given = told w.sections ∧
    (∀ s ∈ w.sections, Section.Contiguous s.base s.reads ∧ s.Covers s.base s.lines ∧
      s.AllWhole config.maxLineSize s.base s.lines) ∧
    (w.Breaks → ∀ v, w.work.Reaches World.anyMove v →
      ∃ new, v.sections = new ++ w.sections ∧ texts v.given = texts w.given ++ told new) := by
  have hstart := World.accounted_start h
  have ha := hw.accounted hstart
  have hconfig : (World.start fs t).tailer.engine.config = config := Tailer.engine_config_start h
  have hkeeps : w.KeepsRests ∧ w.Accounted ∧ w.tailer.engine.config = config := by
    refine hw.invariant (motive := fun u => u.KeepsRests ∧ u.Accounted ∧
      u.tailer.engine.config = config) ⟨?_, hstart, hconfig⟩ ?_
    · obtain ⟨-, ⟨n, offset, -, -, rfl⟩ | ⟨f, -, -, -, rfl⟩⟩ := Tailer.start_cases h
      · exact List.forall_mem_singleton.2 List.nil_prefix
      · exact List.forall_mem_nil _
    · rintro u m ⟨hu, hau, hcu⟩ -
      exact ⟨hu.move hau (hcu ▸ hc) m, hau.move m, (hau.setup_move m).1.trans hcu⟩
  refine ⟨ha.told, fun s hs => ?_, fun hb v hv => ?_⟩
  · have hp := hkeeps.1 s hs
    have hl := ha.sound.limit_ne_zero
    rw [ha.sound.limit, hkeeps.2.2] at hl
    rw [hkeeps.2.2] at hp
    exact ⟨ha.reads s hs, (s.covers_script hl false).mono hp, (s.allWhole_script hl).mono hp⟩
  · have hbeyond : World.Beyond w.sections v ∧ v.Accounted :=
      hv.invariant (motive := fun u => World.Beyond w.sections u ∧ u.Accounted)
        ⟨hb.beyond ha, ha.work⟩ fun u m hu _ => ⟨hu.1.move hu.2 m, hu.2.move m⟩
    obtain ⟨⟨new, hnew, -⟩, hav⟩ := hbeyond
    refine ⟨new, hnew, ?_⟩
    show texts (v.taken ++ v.tailer.queue) = texts (w.taken ++ w.tailer.queue) ++ told new
    rw [hav.told, ha.told, hnew, told_append]

namespace Sample

def cautious : Config := { config with completeLines := true }

def holder : Tailer := { tailer with engine := { tailer.engine with config := cautious } }

theorem start_holder : Tailer.start files name cautious = .ok holder := by decide

/-- The file was read into its second line, and is emptied. -/
def emptied : World := ((World.start files holder).works 8).move (.edit (.truncate name 0))

theorem reaches_emptied : (World.start files holder).Reaches World.anyMove emptied :=
  (World.reaches_works .here (fun _ => trivial) 8).move (m := .edit (.truncate name 0)) trivial

/-- The engine is about to look. -/
def alerted : World := (emptied.move (.wait 250)).works 2

def refilled : World := (alerted.work.move (.edit (.append name [0x7A, lineFeed]))).works 12

/-- More than what was read comes before the engine looks. -/
def overgrown : World :=
  ((emptied.move (.edit (.append name [0x61, 0x62, 0x63, 0x64, 0x7A, lineFeed]))).move
    (.wait 250)).works 12

end Sample

theorem whole_lines_refilled :
    Sample.alerted.tailer.engine.splitter.pending = [0x79] ∧
      (texts Sample.refilled.given).map (fun l => (l.text, l.offset)) = [("x", 3), ("z", 2)] ∧
      (∃ new, Sample.refilled.sections = new ++ Sample.alerted.sections ∧
        texts Sample.refilled.given = texts Sample.alerted.given ++ told new) ∧
      ∀ s ∈ Sample.refilled.sections, Section.Contiguous s.base s.reads ∧ s.Covers s.base s.lines ∧
        s.AllWhole none s.base s.lines := by
  have halerted : (World.start Sample.files Sample.holder).Reaches World.anyMove Sample.alerted :=
    World.reaches_works (Sample.reaches_emptied.move (m := .wait 250) trivial) (fun _ => trivial) 2
  have hrefilled : Sample.alerted.work.Reaches World.anyMove Sample.refilled :=
    World.reaches_works (.move (m := .edit (.append Sample.name [0x7A, lineFeed])) .here trivial)
      (fun _ => trivial) 12
  have hwork : (World.start Sample.files Sample.holder).Reaches World.anyMove
      Sample.alerted.work := halerted.move (m := .work) trivial
  have hsource : Sample.alerted.tailer.engine.source = .opened ⟨1, FileSystem.identify 1, 4⟩ := by
    decide
  have hbreaks : Sample.alerted.Breaks :=
    .shorter ⟨by decide, by decide⟩ hsource (by decide) (by decide)
  obtain ⟨-, -, hnew⟩ := whole_lines Sample.start_holder rfl halerted
  obtain ⟨-, hwhole, -⟩ := whole_lines Sample.start_holder rfl (hwork.trans hrefilled)
  exact ⟨by decide, by decide, hnew hbreaks _ hrefilled, hwhole⟩

/-- The engine does not notice that the file was emptied if it finds it longer than before: the
beginning of a line that is gone is given out with bytes of what came after it. -/
theorem rest_joined_overgrown :
    Tailer.start Sample.files Sample.name Sample.cautious = .ok Sample.holder ∧
      Sample.cautious.completeLines = true ∧
      (World.start Sample.files Sample.holder).Reaches World.anyMove Sample.emptied ∧
      Sample.emptied.Reaches World.anyMove Sample.overgrown ∧
      Sample.emptied.fs.length 1 = 0 ∧
      Sample.emptied.tailer.engine.splitter.pending = [0x79] ∧
      Sample.overgrown.sections.map Section.reads =
        [[(0, [0x78, carriageReturn, lineFeed, 0x79]), (4, [0x7A, lineFeed])]] ∧
      (texts Sample.overgrown.given).map (fun l => (l.text, l.offset)) = [("x", 3), ("yz", 6)] ∧
      ¬ ∃ new, Sample.overgrown.sections = new ++ Sample.emptied.sections ∧
        texts Sample.overgrown.given = texts Sample.emptied.given ++ told new := by
  have hgrown : Sample.emptied.Reaches World.anyMove Sample.overgrown :=
    World.reaches_works (.move (m := .wait 250)
      (.move (m := .edit (.append Sample.name [0x61, 0x62, 0x63, 0x64, 0x7A, lineFeed])) .here
        trivial) trivial) (fun _ => trivial) 12
  refine ⟨Sample.start_holder, rfl, Sample.reaches_emptied, hgrown, by decide, by decide, by decide,
    by decide, ?_⟩
  rintro ⟨new, hsections, hgiven⟩
  have hlength := congrArg List.length hsections
  rw [List.length_append, show Sample.overgrown.sections.length = 1 by decide,
    show Sample.emptied.sections.length = 1 by decide] at hlength
  obtain rfl : new = [] := List.eq_nil_of_length_eq_zero (by omega)
  have hlines := congrArg List.length hgiven
  revert hlines
  decide

end LogFollower
