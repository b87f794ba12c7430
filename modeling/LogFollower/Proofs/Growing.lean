import LogFollower.Proofs.Rotation

/-!
# Following a file that only grows

A file that stays at its path and only grows is the course over one file. Nothing can fail then, so
what was taken is at every moment the beginning of the greedy split of the file from where the
tailer started, and the whole of it once the engine waits: `lines_of_growing_file`. How the growth
was cut into appends and reads, and how often the consumer let the channel fill up, does not show.
-/

namespace LogFollower

/-- The path goes on leading to a file that a change leaves alone or adds to; nobody stops the
tailer. -/
def OnlyGrows (path : Path) (n : Nat) (w : World) : Move → Prop
  | .edit change => (w.fs.edit change).find path = .ok n ∧
      ∃ old more, w.fs.bytes? n = some old ∧ (w.fs.edit change).bytes? n = some (old ++ more)
  | .stop => False
  | .cleanup => False
  | _ => True

theorem onlyGrows_append {path : Path} {n : Nat} {w : World} {old : Bytes}
    (hn : w.fs.find path = .ok n) (hb : w.fs.bytes? n = some old) (new : Bytes) :
    OnlyGrows path n w (.edit (.append path new)) := by
  obtain ⟨hfind, hbytes | hsame⟩ := FileSystem.edit_append hn hb new
  · exact ⟨hfind, old, new, hb, hbytes⟩
  · exact ⟨hfind, old, [], hb, by rw [hsame, hb, List.append_nil]⟩

namespace Tailer

open Engine

variable {fs : FileSystem} {now : Nat} {t t' : Tailer}

/-- No error is in the channel or about to be put there. -/
def Clean (t : Tailer) : Prop := ∀ l ∈ t.queue ++ t.engine.phase.inHand, l.isError = false

/-- Where nothing fails and no file that is followed is left, no error comes up. -/
theorem Clean.turn (h : t.Clean) (ht : Turn fs now t t')
    (hf : ∀ stage error next, t.Works stage → ¬ Fails fs t.engine stage error next)
    (hl : t.Works .leave → t.engine.config.follow = false) : t'.Clean :=
  ht.lines h (fun _ _ => rfl) (fun _ _ _ hw he => absurd he (hf _ _ _ hw))
    fun hw hfollow => absurd ((hl hw).symm.trans hfollow) nofun

theorem Clean.receive (h : t.Clean) (max : Option Nat) :
    (∀ l ∈ (t.receive max).1, l.isError = false) ∧ (t.receive max).2.2.Clean := by
  unfold Clean at h
  rw [← t.queue_receive max, List.append_assoc] at h
  exact List.forall_mem_append.1 h

theorem Turn.opened (ht : Turn fs now t t') (h : t.engine.source.isAway = false)
    (hl : ¬ t.Works .leave) : t'.engine.source.isAway = false := by
  cases ht with
  | leave hw => exact absurd hw hl
  | «open» => rfl
  | rewind => rfl
  | read => rfl
  | _ => exact h

end Tailer

namespace Rotation

open Tailer Engine

variable {c : Outset} {w : World} {n : Nat}

/-- A tailer on a file that stays at its path. -/
structure Steady (c : Outset) (n : Nat) (w : World) : Prop where
  underway : Underway c [n] w
  whereabouts : Whereabouts c [n] w
  find : w.fs.find c.path = .ok n
  opened : w.tailer.engine.source.isAway = false
  clean : w.tailer.Clean
  taken : ∀ l ∈ w.taken, l.isError = false

theorem Steady.reading (h : Steady c n w) :
    ∃ s past bytes start, s.object = n ∧ Reading c w s past [] [] bytes start := by
  have hopened := h.opened
  cases h.whereabouts with
  | reading s past done ahead bytes start hf hr =>
    cases done with
    | cons k done => exact absurd (congrArg List.length hf) (by simp)
    | nil =>
      obtain ⟨hs, ha⟩ := List.cons.inj hf
      exact ⟨s, past, bytes, start, hs.symm, ha ▸ hr⟩
  | seeking done ahead start hf hs =>
    obtain ⟨previous, haway, -⟩ := hs.away
    rw [haway] at hopened
    cases hopened

theorem Steady.not_leave (h : Steady c n w) : ¬ w.tailer.Works .leave := by
  intro hw
  obtain ⟨s, past, bytes, start, rfl, hr⟩ := h.reading
  exact (hr.stands_of .leave hw.stage_eq).1 h.find

theorem Steady.not_fails (h : Steady c n w) {stage next : Stage} {error : TailError}
    (hw : w.tailer.Works stage) : ¬ Fails w.fs w.tailer.engine stage error next := by
  intro he
  obtain ⟨s, past, bytes, start, rfl, hr⟩ := h.reading
  have hst := hr.stands_of stage hw.stage_eq
  cases he with
  | look => exact hst
  | reopen => exact hst
  | read hs hread =>
    obtain rfl := hr.opened_eq hs
    rw [FileSystem.read_regular hr.file] at hread
    cases hread
  | check hs hc =>
    rw [h.underway.path, classify_look, h.find] at hc
    simp only at hc
    split_ifs at hc

theorem Steady.move (h : Steady c n w) {m : Move} (hm : OnlyGrows c.path n w m) :
    Steady c n (w.move m) := by
  have hu := h.underway
  cases m with
  | edit change =>
    obtain ⟨hfind, old, more, hold, hnew⟩ := hm
    have hs : FileStep c.path w (w.fs.edit change) [n] [n] := by
      refine ⟨fun k hk => ?_, fun k hk hne => ?_, .inl ⟨rfl, fun k hk => ?_⟩⟩
      · rw [List.mem_singleton.1 hk]
        exact ⟨old, more, hold, hnew, .inr (.inl h.find)⟩
      · rw [← Except.ok.inj (h.find.symm.trans hk)] at hne
        exact absurd hfind hne
      · rw [← Except.ok.inj (hfind.symm.trans hk)]
        exact h.find
    exact ⟨hu.edit hs fun _ => ⟨n, hfind, rfl⟩, h.whereabouts.edit hu hs, hfind, h.opened, h.clean,
      h.taken⟩
  | work =>
    have ht := turn_step hu.accounted.sound.fits w.fs w.now
    exact ⟨hu.routine rfl, h.whereabouts.routine hu rfl, h.find, ht.opened h.opened h.not_leave,
      h.clean.turn ht (fun _ _ _ hw => h.not_fails hw) fun hw => absurd hw h.not_leave, h.taken⟩
  | wait ms =>
    exact ⟨hu.routine rfl, h.whereabouts.routine hu rfl, h.find, h.opened, h.clean, h.taken⟩
  | notify event =>
    exact ⟨hu.routine rfl, h.whereabouts.routine hu rfl, h.find, h.opened, h.clean, h.taken⟩
  | receive max =>
    obtain ⟨hnew, hrest⟩ := h.clean.receive max
    exact ⟨hu.routine rfl, h.whereabouts.routine hu rfl, h.find, h.opened, hrest,
      List.forall_mem_append.2 ⟨h.taken, hnew⟩⟩
  | stop => exact hm.elim
  | cleanup => exact hm.elim

/-- What was given out is the beginning of the lines of the file. -/
theorem Steady.told_begins (h : Steady c n w) {now : Bytes} (hb : w.fs.bytes? n = some now)
    (hle : c.offset ≤ c.length) :
    told w.sections <+: share c.config c.offset false n now := by
  obtain ⟨s, past, bytes, start, rfl, hr⟩ := h.reading
  obtain rfl := Option.some.inj (hb.symm.trans hr.file)
  have hl := h.underway.accounted.sound.limit_ne_zero
  obtain ⟨s', past', flushed, hsec, -, ho⟩ := h.underway.accounted.ledger.open hr.handle
  obtain ⟨rfl, rfl⟩ := List.cons.inj (hr.sections.symm.trans hsec)
  have hbase : s.base = c.offset := by
    rw [hr.base, if_pos rfl]
    exact hr.begins.resolve_right fun hs => by omega
  obtain ⟨stage, hstage, hst⟩ := hr.stands
  have hover : w.tailer.engine.phase.over = false := by
    unfold Phase.over
    rw [hstage]
    cases stage <;> first | rfl | exact absurd h.find hst.1 | exact hst.elim
  obtain rfl := ho.not_flushed hover
  have hsent := ho.sent
  rw [h.underway.accounted.sound.limit, h.underway.config] at hsent hl
  rw [hr.sections, told_cons, hr.given, ← hbase]
  exact hsent.trans (script_prefix_share hl hr.input false)

end Rotation

theorem texts_of_clean {t : Tailer} {taken : List Line} (h : ∀ l ∈ taken, l.isError = false)
    (ht : t.Clean) : texts (taken ++ t.queue) = taken ++ t.queue := by
  refine List.filter_eq_self.2 fun l hl => ?_
  rcases List.mem_append.1 hl with hl | hl
  · rw [h l hl]; rfl
  · rw [ht l (List.mem_append_left _ hl)]; rfl

/-- **A file that only grows is given out line by line**: at every moment what was taken is the
beginning of its lines, without an error, and when the engine waits it is all of them. -/
theorem lines_of_growing_file {fs : FileSystem} {path : Path} {config : Config} {t : Tailer}
    {n o : Nat} {bytes : Bytes} (h : Tailer.start fs path config = .ok t)
    (hf : config.follow = true) (hn : fs.find path = .ok n) (hb : fs.bytes? n = some bytes)
    (ho : config.startOffset (FileSystem.identify n) bytes.length = .ok o)
    (hle : o ≤ bytes.length) {w : World}
    (hw : (World.start fs t).Reaches (OnlyGrows path n) w) :
    ∃ now lines, w.fs.bytes? n = some now ∧
      lines = (Greedy.pieces config.maxLineSize o (now.drop o)).map
        (Line.ofPiece (some (FileSystem.identify n))) ∧
      (∀ l ∈ w.taken, l.isError = false) ∧ w.taken <+: lines ∧
      (w.Quiet → w.tailer.queue = [] → w.taken = lines) := by
  obtain ⟨hu, hwh⟩ := Rotation.underway_start h hf (.inl ⟨n, bytes, hn, hb, rfl⟩)
  have hstart : Rotation.outset fs t = ⟨path, config, o, bytes.length⟩ ∧
      t.engine.source.isAway = false ∧ t.Clean := by
    obtain ⟨-, ⟨n', o', hopen, ho', rfl⟩ | ⟨f, hopen, -, -, rfl⟩⟩ := Tailer.start_cases h
    · obtain rfl := Except.ok.inj ((FileSystem.find_of_openFile hopen).symm.trans hn)
      have hlen := FileSystem.length_of_bytes? hb
      rw [hlen] at ho'
      obtain rfl := Except.ok.inj (ho'.symm.trans ho)
      refine ⟨?_, rfl, fun _ hl => absurd hl List.not_mem_nil⟩
      simp only [Rotation.outset, hlen]
      rfl
    · cases (FileSystem.openFile_of_bytes? hn hb).symm.trans hopen
  obtain ⟨hc, hopened, hclean⟩ := hstart
  rw [hc] at hu hwh
  have hsteady : Rotation.Steady ⟨path, config, o, bytes.length⟩ n w :=
    hw.invariant ⟨hu, hwh, hn, hopened, hclean, fun _ hl => absurd hl List.not_mem_nil⟩
      fun u m hu hm => hu.move hm
  obtain ⟨now, hnow⟩ := hsteady.underway.regular n (List.mem_singleton.2 rfl)
  have htold := hsteady.underway.accounted.told
  have hbegins := hsteady.told_begins hnow hle
  have hshare := share_eq config o (.inl rfl) n now
  rw [← htold, hshare, texts_of_clean hsteady.taken hsteady.clean] at hbegins
  refine ⟨now, _, hnow, rfl, hsteady.taken, (List.prefix_append _ _).trans hbegins, fun hq hd => ?_⟩
  obtain ⟨start, hs, htexts⟩ :=
    Rotation.texts_of_quiet hsteady.underway hsteady.whereabouts hq hd
  obtain rfl : start = o := hs.resolve_right fun hs => Nat.not_lt.2 hle hs.2
  have hleft : decide (w.fs.find path ≠ .ok n) = false :=
    decide_eq_false (not_not.2 hsteady.find)
  have hall := texts_of_clean hsteady.taken hsteady.clean
  rw [hd, List.append_nil] at hall
  rw [← hall, htexts, ← hshare, shares, shares, hleft, hnow, List.append_nil]
  rfl

namespace Sample

/-- The file grows after its first line was given out. -/
def grown : World :=
  ((World.start files tailer).works 3).move (.edit (.append name [0x7A, lineFeed]))

def caughtUp : World := (grown.works 8).move (.receive none)

theorem reaches_caughtUp : (World.start files tailer).Reaches (OnlyGrows name 1) caughtUp := by
  have hstart : (World.start files tailer).Reaches (OnlyGrows name 1)
      (World.start files tailer) := .here
  have hfirst := World.reaches_works hstart (fun _ => trivial) 3
  have hbytes : ((World.start files tailer).works 3).fs.bytes? 1 = some firstBytes := by decide
  have hgrown := hfirst.move (onlyGrows_append (by decide) hbytes [0x7A, lineFeed])
  exact (World.reaches_works hgrown (fun _ => trivial) 8).move (m := .receive none) trivial

end Sample

theorem lines_of_growing_file_caughtUp :
    Sample.caughtUp.Quiet ∧ Sample.caughtUp.tailer.queue = [] ∧
      ∃ now lines, Sample.caughtUp.fs.bytes? 1 = some now ∧
        lines = (Greedy.pieces none 0 (now.drop 0)).map
          (Line.ofPiece (some (FileSystem.identify 1))) ∧
        (∀ l ∈ Sample.caughtUp.taken, l.isError = false) ∧ Sample.caughtUp.taken <+: lines ∧
        (Sample.caughtUp.Quiet → Sample.caughtUp.tailer.queue = [] →
          Sample.caughtUp.taken = lines) := by
  have hfind : Sample.files.find Sample.name = .ok 1 := by decide
  have hbytes : Sample.files.bytes? 1 = some Sample.firstBytes := by decide
  exact ⟨⟨by decide, 250, .clear, by decide⟩, by decide,
    lines_of_growing_file Sample.start_eq rfl hfind hbytes (by decide) (Nat.zero_le _)
      Sample.reaches_caughtUp⟩

end LogFollower
