import LogFollower.Proofs.Abreast

/-!
# A file that is cut short in place

The length of a file is all that tells the engine that it was cut short. A look that finds the file
shorter than what was read of it makes the engine go back to the beginning; so a file that is cut
short and grows again is read as it should be if the engine looks at it in between. `Paced` are the
runs in which it does.

`lines_across_resizes` says what each change of the length brings in such a run: if the file became
shorter than what was read, all lines that it has now, and else the lines that were completed. In
between the tailer has `Overrun` the file: there is nothing to read where its handle stands, and it
stays there until it looks at the path (`Overrun.turn`).
-/

namespace LogFollower

/-- The path goes on leading to a file that a change makes longer or shorter. -/
def Resizes (path : Path) (n : Nat) (w : World) (change : Edit) : Prop :=
  (w.fs.edit change).find path = .ok n ∧
    ∃ old new, w.fs.bytes? n = some old ∧ (w.fs.edit change).bytes? n = some new ∧
      (old <+: new ∨ new <+: old)

section Resizes

variable {path : Path} {n : Nat} {w : World} {old : Bytes}

theorem resizes_append (hn : w.fs.find path = .ok n) (hb : w.fs.bytes? n = some old)
    (new : Bytes) : Resizes path n w (.append path new) := by
  obtain ⟨hfind, hbytes | hsame⟩ := FileSystem.edit_append hn hb new
  · exact ⟨hfind, old, old ++ new, hb, hbytes, .inl (List.prefix_append _ _)⟩
  · exact ⟨hfind, old, old, hb, by rw [hsame, hb], .inl List.prefix_rfl⟩

theorem resizes_truncate (hn : w.fs.find path = .ok n) (hb : w.fs.bytes? n = some old)
    (length : Nat) : Resizes path n w (.truncate path length) := by
  have hedit : w.fs.edit (.truncate path length) =
      w.fs.setBody n (.regular (FileSystem.resize length old)) := by
    have happly := FileSystem.modify_eq hn hb (FileSystem.resize length)
    unfold FileSystem.edit
    rw [show w.fs.apply (.truncate path length) = _ from happly]
  unfold Resizes
  rw [hedit]
  refine ⟨by rw [FileSystem.find_congr (FileSystem.sameTree_setBody hb _), hn], old, _, hb,
    FileSystem.bytes?_setBody_self hb _, ?_⟩
  unfold FileSystem.resize
  by_cases hle : length ≤ old.length
  · right
    rw [Nat.sub_eq_zero_of_le hle, List.replicate_zero, List.append_nil]
    exact List.take_prefix _ _
  · left
    rw [List.take_of_length_le (by omega)]
    exact List.prefix_append _ _

end Resizes

/-- A run in which a file is made longer or shorter, each time after the engine has looked at it and
waits for a change. -/
inductive Paced (path : Path) (n : Nat) (w₀ : World) : World → Prop
  | first {u : World} (h : w₀.Reaches Undisturbed u) : Paced path n w₀ u
  | next {u v w : World} {change : Edit} (hu : Paced path n w₀ u) (hc : Resizes path n u change)
      (hv : (u.move (.edit change)).Reaches Undisturbed v) (hq : v.Quiet)
      (hw : v.Reaches Undisturbed w) : Paced path n w₀ w

/-- A file was read to its end, from an offset on or, after going back, from its beginning: the
handle and the splitter stand at the end, and the committed offset is where the last line ended
since. -/
structure World.AtEnd (w : World) (n offset : Nat) (now : Bytes) : Prop where
  file : w.fs.bytes? n = some now
  handle : w.tailer.engine.source = .opened ⟨n, FileSystem.identify n, now.length⟩
  consumed : w.tailer.engine.splitter.consumed = now.length
  held : w.tailer.engine.splitter.pending = now.drop w.tailer.engine.splitter.committed
  committed : ∃ s past, w.sections = s :: past ∧
    w.taken ++ w.tailer.queue = told past ++ s.lines ∧
    w.tailer.engine.splitter.committed = lastOffset (if past = [] then offset else 0) s.lines

/-! ## Without errors -/

namespace Truncation

open Tailer Engine

/-- A tailer on a file that stays at its path. Nothing has failed. -/
structure Untroubled (path : Path) (config : Config) (n : Nat) (w : World) : Prop where
  attentive : Attentive path config n w
  find : w.fs.find path = .ok n
  clean : ∀ l ∈ w.stream, l.isError = false

variable {path : Path} {config : Config} {n o : Nat} {u v w : World} {s : Section}
  {past : List Section} {bytes old now : Bytes} {change : Edit} {t : Tailer}

theorem Untroubled.not_fails (h : Untroubled path config n w) {stage next : Stage}
    {error : TailError} (hw : w.tailer.Works stage) :
    ¬ Fails w.fs w.tailer.engine stage error next := fun he =>
  (h.attentive.fails he (h.attentive.attends_of hw.stage_eq)).2 h.find

theorem Untroubled.texts_stream (h : Untroubled path config n w) : texts w.stream = w.stream :=
  List.filter_eq_self.2 fun l hl => by rw [h.clean l hl]; rfl

theorem Untroubled.edit (h : Untroubled path config n w)
    (hfind : (w.fs.edit change).find path = .ok n) :
    Untroubled path config n (w.move (.edit change)) where
  attentive := h.attentive.edit (.inl hfind)
  find := hfind
  clean := h.clean

theorem Untroubled.routine (h : Untroubled path config n w) {m : Move} (hm : Undisturbed w m) :
    Untroubled path config n (w.move m) := by
  have attentive := h.attentive.routine hm
  cases m with
  | work =>
    refine ⟨attentive, h.find, ?_⟩
    show ∀ l ∈ (w.after (w.tailer.step w.fs w.now)).stream, l.isError = false
    obtain ⟨more, hstream, hmore⟩ | ⟨stage, error, next, hw, he, -⟩ :=
      h.attentive.adds (turn_step h.attentive.accounted.sound.fits w.fs w.now)
    · rw [hstream]
      exact List.forall_mem_append.2 ⟨h.clean, hmore⟩
    · exact absurd he (h.not_fails hw)
  | wait | notify => exact ⟨attentive, h.find, h.clean⟩
  | receive max => exact ⟨attentive, h.find, w.stream_receive max ▸ h.clean⟩
  | edit | stop | cleanup => cases hm

/-! ## Behind the end of the file -/

/-- The file became shorter than what was read of it, and the engine has not looked since. -/
structure Overrun (w : World) (s : Section) (past : List Section) (bytes : Bytes) : Prop
    extends Holding w s past bytes where
  short : bytes.length < s.base + s.input.length
  unseen : w.looked = false

/-- An engine that has overrun its file stays where it is, or has given out all lines of what was
read and gone back to the beginning. -/
def Returns (path : Path) (config : Config) (w : World) (s : Section) (past : List Section)
    (bytes : Bytes) : Prop :=
  ∃ lines, Overrun w { s with lines } past bytes ∨
    lines = s.script config.maxLineSize false ∧
      ∃ s', Abreast path w s' ({ s with lines } :: past) bytes ∧ s'.object = s.object ∧ s'.base = 0

theorem Overrun.keep (h : Overrun w s past bytes) (lines : List Line)
    (hsec : (w.after t).sections = { s with lines } :: past)
    (hsrc : t.engine.source = w.tailer.engine.source)
    (hl : w.tailer.engine.phase ≠ .ready .check ∧ w.tailer.engine.phase ≠ .ready .look) :
    Returns path config (w.after t) s past bytes := by
  refine ⟨lines, .inl ⟨⟨hsec, hsrc.trans h.handle, h.file⟩, h.short, ?_⟩⟩
  show (w.looked || _ || _) = false
  rw [h.unseen, decide_eq_false hl.1, decide_eq_false hl.2]
  rfl

theorem Overrun.looks (hu : Untroubled path config n w) (h : Overrun w s past bytes) {hd : Session}
    {change : Change} (hs : w.tailer.engine.source = .opened hd)
    (hc : classify (w.fs.look w.tailer.engine.path) hd.identifier
      w.tailer.engine.splitter.consumed = .ok change) : change = .truncated := by
  obtain rfl := h.opened_eq hs
  have hshort := h.short
  obtain ⟨-, hid⟩ := hu.attentive.opened_eq hs
  obtain rfl : s.object = n := FileSystem.identify_inj hid
  rw [hu.attentive.path_eq, classify_look, hu.find, h.consumed_eq hu.attentive.accounted] at hc
  simp only [Section.identifier, if_true, Except.ok.injEq, FileSystem.length_of_bytes? h.file]
    at hc
  rw [← hc, Change.ofLength, if_neg (by omega), if_pos hshort]

/-- Going back begins a section at offset 0. The section before has given out all its lines. -/
theorem Overrun.rewind (hu : Untroubled path config n w) (h : Overrun w s past bytes)
    (hw : w.tailer.Works .check) (hqueue : t.queue = w.tailer.queue)
    (hsrc : t.engine.source = .opened ⟨s.object, s.identifier, 0⟩)
    (hp : t.engine.phase = .ready (.read .catchUp)) :
    Returns path config (w.after t) s past bytes := by
  have hsec : (w.after t).sections = .ofSession ⟨s.object, s.identifier, 0⟩ :: s :: past := by
    rw [World.sections_after_rewind hqueue h.handle hsrc (Nat.zero_lt_of_lt h.short), h.sections]
  have hwhole : s.lines = s.script config.maxLineSize false := by
    have htexts := (hu.attentive.reading h.toHolding).2
    have hnone : w.stream = w.taken ++ w.tailer.queue := by
      rw [World.stream, hw.1]
      exact congrArg (w.taken ++ ·) (List.append_nil _)
    rw [hnone, hu.attentive.accounted.told, h.sections, told_cons] at htexts
    exact List.append_cancel_left htexts
  refine ⟨s.lines, .inr ⟨hwhole, _, .place hsec hsrc rfl h.file (Nat.zero_le _) ?_, rfl, rfl⟩⟩
  intro due next hasleep
  cases hp.symm.trans hasleep

/-- A step behind the end of the file reads nothing. A look makes the engine go back. -/
theorem Overrun.turn (hu : Untroubled path config n w) (h : Overrun w s past bytes)
    (ht : Turn w.fs w.now w.tailer t) : Returns path config (w.after t) s past bytes := by
  have ha := hu.attentive
  have goes {t : Tailer} (hqueue : t.queue = w.tailer.queue)
      (hsrc : t.engine.source = w.tailer.engine.source)
      (hl : w.tailer.engine.phase ≠ .ready .check ∧ w.tailer.engine.phase ≠ .ready .look) :
      Returns path config (w.after t) s past bytes :=
    h.keep s.lines ((World.sections_after hqueue hsrc).trans h.sections) hsrc hl
  cases ht with
  | idle hb =>
    refine goes rfl rfl ?_
    unfold blocked at hb
    constructor <;> intro hp <;> rw [hp] at hb <;> cases hb
  | quit hq => rcases hq with hq | hq <;> simp [ha.on] at hq
  | @hand line lines rest next hp =>
    refine h.keep (s.lines ++ texts [line]) ?_ rfl (by rw [hp]; exact ⟨nofun, nofun⟩)
    refine Eq.trans (World.sections_after_hand rfl rfl) ?_
    rw [h.sections]
    rfl
  | rest hp | resume hp | wake hp => exact goes rfl rfl (by rw [hp]; exact ⟨nofun, nofun⟩)
  | pass hw hp =>
    cases hp with
    | grown hs hc | gone hs hc => cases h.looks hu hs hc
    | found => exact absurd hw (ha.not_works rfl)
    | _ => exact goes rfl rfl (by rw [hw.1]; exact ⟨nofun, nofun⟩)
  | fail hw he => exact absurd he (hu.not_fails hw)
  | wait hw hp =>
    cases hp with
    | missing => exact absurd hw (ha.not_works rfl)
    | same hs hc => cases h.looks hu hs hc
  | rewind hw hs =>
    obtain rfl := h.opened_eq hs
    exact h.rewind hu hw rfl rfl rfl
  | read hw hs hr hb =>
    obtain rfl := h.opened_eq hs
    have hnothing : bytes.drop (s.base + s.input.length) = [] :=
      List.drop_of_length_le h.short.le
    rw [FileSystem.read_regular h.file] at hr
    simp only [hnothing, List.take_nil, Except.ok.injEq] at hr
    exact absurd hr.symm hb
  | «open» hw | flush hw | leave hw | last hw | finish hw => exact absurd hw (ha.not_works rfl)

theorem Returns.routine (hu : Untroubled path config n w) (h : Returns path config w s past bytes)
    {m : Move} (hm : Undisturbed w m) : Returns path config (w.move m) s past bytes := by
  obtain ⟨lines, hover | ⟨hlines, s', hs, hobject, hbase⟩⟩ := h
  · cases m with
    | work =>
      -- which lines the section has given out so far does not matter to what it comes to
      have hturn := hover.turn hu (turn_step hu.attentive.accounted.sound.fits w.fs w.now)
      exact hturn
    | wait | notify | receive =>
      exact ⟨lines, .inl ⟨⟨hover.sections, hover.handle, hover.file⟩, hover.short, hover.unseen⟩⟩
    | edit | stop | cleanup => cases hm
  · obtain ⟨s'', hs', hobject', hbase'⟩ := hu.attentive.reads_on hs hm
    exact ⟨lines, .inr ⟨hlines, s'', hs', hobject'.trans hobject, hbase'.trans hbase⟩⟩

/-! ## Changes of the length -/

/-- Where a tailer stands in a file that is made longer and shorter: it reads the file from where it
started, or, after going back, from the beginning. -/
structure Within (path : Path) (config : Config) (n o : Nat) (w : World) (s : Section)
    (past : List Section) (bytes : Bytes) : Prop where
  untroubled : Untroubled path config n w
  abreast : Abreast path w s past bytes
  object : s.object = n
  base : s.base = if past = [] then o else 0

theorem Within.run (h : Within path config n o u s past bytes) (hr : u.Reaches Undisturbed v) :
    ∃ s', Within path config n o v s' past bytes := by
  refine hr.invariant (motive := fun w => ∃ s', Within path config n o w s' past bytes) ⟨s, h⟩
    fun w m hw hm => ?_
  obtain ⟨s', hs⟩ := hw
  obtain ⟨s'', hs', hobject, hbase⟩ := hs.untroubled.attentive.reads_on hs.abreast hm
  exact ⟨s'', hs.untroubled.routine hm, hs', hobject.trans hs.object, hbase.trans hs.base⟩

theorem Within.stream_eq (h : Within path config n o u s past bytes) :
    told past ++ s.script config.maxLineSize false = u.stream := by
  rw [← (h.untroubled.attentive.reading h.abreast.toHolding).2, h.untroubled.texts_stream]

/-- A file that has what was read of it, whether it became longer or shorter, is read on: the lines
that come are those behind the committed offset. -/
theorem Within.longer (h : Within path config n o u s past old)
    (hfind : (u.fs.edit change).find path = .ok n)
    (hb : (u.fs.edit change).bytes? n = some now) (hpre : old <+: now ∨ now <+: old)
    (hle : u.tailer.engine.splitter.consumed ≤ now.length) :
    Within path config n o (u.move (.edit change)) s past now ∧
      told past ++ linesFrom config.maxLineSize s.base n now =
        u.stream ++ linesFrom config.maxLineSize u.tailer.engine.splitter.committed n now := by
  have ha := h.untroubled.attentive
  rw [h.abreast.consumed_eq ha.accounted] at hle
  have hin : s.input <+: now.drop s.base := by
    rcases hpre with ⟨more, rfl⟩ | ⟨more, rfl⟩
    · rw [List.drop_append_of_le_length h.abreast.base]
      exact h.abreast.input.trans (List.prefix_append _ _)
    · have hin := h.abreast.input
      rw [List.drop_append_of_le_length (by omega)] at hin
      exact List.prefix_of_prefix_length_le hin (List.prefix_append _ _)
        (by rw [List.length_drop]; omega)
  have hl := ha.limit_ne_zero
  obtain ⟨hcut, -⟩ := ha.reading h.abreast.toHolding
  refine ⟨⟨h.untroubled.edit hfind, h.abreast.edit (by rw [h.object, hb]) (by omega) hin, h.object,
    h.base⟩, ?_⟩
  rw [← h.object, Section.linesFrom_eq hl hin, ← List.append_assoc, h.stream_eq, ← hcut]

theorem Within.shorter (h : Within path config n o u s past old)
    (hb : (u.fs.edit change).bytes? n = some now)
    (hlt : now.length < u.tailer.engine.splitter.consumed) :
    Overrun (u.move (.edit change)) s past now := by
  rw [h.abreast.consumed_eq h.untroubled.attentive.accounted] at hlt
  exact ⟨⟨h.abreast.sections, h.abreast.handle, by rw [h.object]; exact hb⟩, hlt, rfl⟩

/-- When the engine waits, it is at the end of the file, and the lines of its section were all given
out. -/
theorem Within.atEnd (h : Within path config n o w s past now) (hq : w.Quiet) :
    w.AtEnd n o now ∧
      w.taken ++ w.tailer.queue = told past ++ linesFrom config.maxLineSize s.base n now := by
  have ha := h.untroubled.attentive
  have hl := ha.limit_ne_zero
  obtain ⟨-, hin, hcut, hlines⟩ := h.abreast.caughtUp ha.accounted hq
  have htold := ha.accounted.told
  rw [← hq.stream_eq, h.untroubled.texts_stream, hq.stream_eq, h.abreast.sections,
    told_cons] at htold
  have hend : s.base + s.input.length = now.length := by
    have hbase := h.abreast.base
    rw [hin, List.length_drop]
    omega
  have hhandle := h.abreast.handle
  rw [hend, h.object, show s.identifier = FileSystem.identify n from h.object ▸ rfl] at hhandle
  rw [ha.config_eq] at hcut hlines
  refine ⟨⟨h.object ▸ h.abreast.file, hhandle, (h.abreast.consumed_eq ha.accounted).trans hend, ?_,
    s, past, h.abreast.sections, htold, ?_⟩, by rw [htold, hlines, h.object]⟩
  · rw [hcut, Section.drop_committed hl (by rw [hin, List.append_nil]), List.append_nil]
    exact List.reverse_reverse _
  · rw [hcut, Section.committed_splitter s hl, Section.script_eq_linesFrom hin, ← hlines, h.base]

theorem Within.resized (h : Within path config n o u s past old) (hc : Resizes path n u change)
    (hr : (u.move (.edit change)).Reaches Undisturbed v) :
    Untroubled path config n v ∧
      (v.Quiet → ∃ s' past' now, Within path config n o v s' past' now ∧
        if now.length < u.tailer.engine.splitter.consumed then
          past'.length = past.length + 1 ∧
            told past' ++ linesFrom config.maxLineSize s'.base n now =
              u.stream ++ linesFrom config.maxLineSize 0 n now
        else past' = past ∧
            told past' ++ linesFrom config.maxLineSize s'.base n now =
              u.stream ++
                linesFrom config.maxLineSize u.tailer.engine.splitter.committed n now) := by
  obtain ⟨hfind, old', now, hold, hnow, hpre⟩ := hc
  obtain rfl := Option.some.inj (hold.symm.trans (h.object ▸ h.abreast.file))
  by_cases hlt : now.length < u.tailer.engine.splitter.consumed
  · have hreturns : Untroubled path config n v ∧ Returns path config v s past now :=
      hr.invariant
        (motive := fun w => Untroubled path config n w ∧ Returns path config w s past now)
        ⟨h.untroubled.edit hfind, s.lines, .inl (h.shorter hnow hlt)⟩
        fun w m hw hm => ⟨hw.1.routine hm, hw.2.routine hw.1 hm⟩
    refine ⟨hreturns.1, fun hq => ?_⟩
    obtain ⟨hu, lines, hover | ⟨rfl, s', hs, hobject, hbase⟩⟩ := hreturns
    · exact absurd (hover.unseen.symm.trans hq.1) nofun
    · refine ⟨s', _, now, ⟨hu, hs, hobject.trans h.object, by rw [if_neg (by simp), hbase]⟩, ?_⟩
      rw [if_pos hlt]
      refine ⟨rfl, ?_⟩
      rw [told_cons, h.stream_eq, hbase]
  · obtain ⟨hwithin, htold⟩ := h.longer hfind hnow hpre (Nat.not_lt.1 hlt)
    obtain ⟨s', hs⟩ := hwithin.run hr
    refine ⟨hs.untroubled, fun _ => ⟨s', past, now, hs, ?_⟩⟩
    rw [if_neg hlt]
    refine ⟨rfl, ?_⟩
    rw [← htold, hs.base, hwithin.base]

theorem within_start {fs : FileSystem} (h : Tailer.start fs path config = .ok t)
    (hf : config.follow = true) (hn : fs.find path = .ok n) (hb : fs.bytes? n = some bytes)
    (ho : config.startOffset (FileSystem.identify n) bytes.length = .ok o)
    (hle : o ≤ bytes.length) :
    ∃ s past, Within path config n o (World.start fs t) s past bytes := by
  refine ⟨_, _, ⟨attentive_start h hf hn hb ho, hn, ?_⟩, abreast_start h hn hb ho hle, rfl, rfl⟩
  rw [stream_start h]
  exact fun l hl => absurd hl List.not_mem_nil

theorem within_of_paced {w₀ : World} {s₀ : Section} {past₀ : List Section}
    (h₀ : Within path config n o w₀ s₀ past₀ bytes) (h : Paced path n w₀ w) :
    ∃ s past now, Within path config n o w s past now := by
  induction h with
  | first hr =>
    obtain ⟨s, hs⟩ := h₀.run hr
    exact ⟨s, past₀, bytes, hs⟩
  | next _ hc hv hq hw ih =>
    obtain ⟨s, past, old, hs⟩ := ih
    obtain ⟨s', past', now, hs', -⟩ := (hs.resized hc hv).2 hq
    obtain ⟨s'', hs''⟩ := hs'.run hw
    exact ⟨s'', past', now, hs''⟩

end Truncation

open Truncation in
/-- A file that is cut short in place is read again from its beginning, and one that grows is
read on. After a change, when the engine has looked at the file and waits, it is at its end, on the
handle that it had. If the file was shorter than what had been read, all lines that it has were
given out behind those before; else those behind the offset that was committed. -/
theorem lines_across_resizes {fs : FileSystem} {path : Path} {config : Config} {t : Tailer}
    {n o : Nat} {bytes : Bytes} (h : Tailer.start fs path config = .ok t)
    (hf : config.follow = true) (hn : fs.find path = .ok n) (hb : fs.bytes? n = some bytes)
    (ho : config.startOffset (FileSystem.identify n) bytes.length = .ok o)
    (hle : o ≤ bytes.length) {u w : World} {change : Edit}
    (hu : Paced path n (World.start fs t) u) (hc : Resizes path n u change)
    (hw : (u.move (.edit change)).Reaches Undisturbed w) :
    (∃ position, w.tailer.engine.source = .opened ⟨n, FileSystem.identify n, position⟩) ∧
      (∀ l ∈ w.stream, l.isError = false) ∧
      (w.Quiet → ∃ now, w.AtEnd n o now ∧
        if now.length < u.tailer.engine.splitter.consumed then
          w.sections.length = u.sections.length + 1 ∧
            w.taken ++ w.tailer.queue = u.stream ++ linesFrom config.maxLineSize 0 n now
        else w.sections.length = u.sections.length ∧
            w.taken ++ w.tailer.queue = u.stream ++
              linesFrom config.maxLineSize u.tailer.engine.splitter.committed n now) := by
  obtain ⟨s₀, past₀, h₀⟩ := within_start h hf hn hb ho hle
  obtain ⟨s, past, old, hs⟩ := within_of_paced h₀ hu
  obtain ⟨huntroubled, hquiet⟩ := hs.resized hc hw
  refine ⟨huntroubled.attentive.opened, huntroubled.clean, fun hq => ?_⟩
  obtain ⟨s', past', now, hs', hlines⟩ := hquiet hq
  obtain ⟨hend, htaken⟩ := hs'.atEnd hq
  refine ⟨now, hend, ?_⟩
  rw [htaken, hs'.abreast.sections, hs.abreast.sections, List.length_cons, List.length_cons]
  split_ifs at hlines ⊢ with hlt
  · exact ⟨congrArg (· + 1) hlines.1, hlines.2⟩
  · exact ⟨by rw [hlines.1], hlines.2⟩

namespace Sample

def followed : World := grown.works 8

/-- The file is cut short within its second line, and read again. -/
def shortened : World :=
  (((followed.move (.edit (.truncate name 4))).move (.wait 250)).works 9).move (.receive none)

theorem paced_followed : Paced name 1 (World.start files tailer) followed := by
  have hstart : (World.start files tailer).Reaches Undisturbed (World.start files tailer) := .here
  have hfirst := World.reaches_works hstart (fun _ => rfl) 3
  have hfind : ((World.start files tailer).works 3).fs.find name = .ok 1 := by decide
  have hbytes : ((World.start files tailer).works 3).fs.bytes? 1 = some firstBytes := by decide
  have hresizes := resizes_append hfind hbytes [0x7A, lineFeed]
  have hgrown : grown.Reaches Undisturbed grown := .here
  have hmore := World.reaches_works hgrown (fun _ => rfl) 8
  exact .next (.first hfirst) hresizes hmore ⟨by decide, 250, .clear, by decide⟩ .here

end Sample

theorem lines_across_resizes_shortened :
    Sample.shortened.Quiet ∧ Sample.shortened.taken.map Line.offset = [3, 6, 3] ∧
      ∃ now, Sample.shortened.AtEnd 1 0 now ∧
        if now.length < Sample.followed.tailer.engine.splitter.consumed then
          Sample.shortened.sections.length = Sample.followed.sections.length + 1 ∧
            Sample.shortened.taken ++ Sample.shortened.tailer.queue =
              Sample.followed.stream ++ linesFrom none 0 1 now
        else Sample.shortened.sections.length = Sample.followed.sections.length ∧
            Sample.shortened.taken ++ Sample.shortened.tailer.queue = Sample.followed.stream ++
              linesFrom none Sample.followed.tailer.engine.splitter.committed 1 now := by
  have hfind : Sample.files.find Sample.name = .ok 1 := by decide
  have hbytes : Sample.files.bytes? 1 = some Sample.firstBytes := by decide
  have hgrown : Sample.followed.fs.bytes? 1 = some (Sample.firstBytes ++ [0x7A, lineFeed]) := by
    decide
  have hresizes : Resizes Sample.name 1 Sample.followed (.truncate Sample.name 4) :=
    resizes_truncate (by decide) hgrown 4
  have hwoken : (Sample.followed.move (.edit (.truncate Sample.name 4))).Reaches Undisturbed
      ((Sample.followed.move (.edit (.truncate Sample.name 4))).move (.wait 250)) := .move .here rfl
  have hreached := (World.reaches_works hwoken (fun _ => rfl) 9).move (m := .receive none) rfl
  have hquiet : Sample.shortened.Quiet := ⟨by decide, 500, .clear, by decide⟩
  obtain ⟨-, -, hlines⟩ := lines_across_resizes Sample.start_eq rfl hfind hbytes (by decide)
    (Nat.zero_le _) Sample.paced_followed hresizes hreached
  exact ⟨hquiet, by decide, hlines hquiet⟩

end LogFollower
