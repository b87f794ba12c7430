import LogFollower.Proofs.Tailer.Effort
import LogFollower.Proofs.Truncation

/-!
# What is in a file already

A file that stays as it is can be read once, or be followed until the engine waits for a change.
Both give out the complete lines from where the tailer starts (`existing_lines`), except behind the
end of the file. There a run that reads once finds nothing. One that follows compares the length of
the file with where it stands: it takes the file for one that was cut short, and reads it from its
beginning.

That a tailer which follows comes to wait is shown by the potential of `Engine.effort`.
-/

namespace LogFollower

/-- What the consumer gets from a tailer that follows files that stay as they are, and that nobody
disturbs: certain lines, before the engine waits for a change. -/
structure Settles (fs : FileSystem) (path : Path) (config : Config) (lines : List Line) :
    Prop where
  starts : ∃ t, Tailer.start fs path config = .ok t
  /-- From wherever the run stands, the engine comes to wait if the consumer goes on taking. -/
  rests : ∀ t w, Tailer.start fs path config = .ok t →
    (World.start fs t).Reaches Undisturbed w →
    ∃ count, (World.serve^[count] w).Quiet ∧ (World.serve^[count] w).tailer.queue = []
  whole : ∀ t w, Tailer.start fs path config = .ok t →
    (World.start fs t).Reaches Undisturbed w →
    w.Quiet → w.tailer.queue = [] → w.taken = lines

namespace Tailer

theorem Fresh.not_blocked {t : Tailer} {now : Nat} (h : t.Fresh)
    (hroom : t.queue.length < t.capacity) : t.blocked now = false := by
  unfold blocked
  obtain ⟨stage, hp⟩ | ⟨lines, stage, hp⟩ := h
  · rw [hp]
  · rw [hp]
    cases lines with
    | nil => rfl
    | cons line lines => simp [hroom]

theorem Fresh.awake {t : Tailer} (h : t.Fresh) (due : Nat) (watching : Bool) (next : Stage) :
    t.engine.phase ≠ .asleep due watching next := by
  intro hp
  obtain ⟨stage, hp'⟩ | ⟨lines, stage, hp'⟩ := h <;> cases hp.symm.trans hp'

end Tailer

namespace Existing

open Tailer Truncation

variable {path : Path} {config : Config} {n o : Nat} {w : World} {t : Tailer} {bytes : Bytes}

/-- A tailer on a file that stays at its path: it is up, or waits for a change. -/
structure Heeds (path : Path) (config : Config) (n : Nat) (w : World) : Prop where
  untroubled : Untroubled path config n w
  persists : w.tailer.engine.Persists
  up : w.tailer.Fresh ∨ w.Quiet

theorem up_of_turn (h : Heeds path config n w) (ht : Turn w.fs w.now w.tailer t) :
    t.Fresh ∨ (w.after t).Quiet := by
  have ha := h.untroubled.attentive
  have not_rests {lines : List Line} {next : Stage}
      (hp : w.tailer.engine.phase = .handing lines true next) : False := by
    obtain (⟨stage, hp'⟩ | ⟨lines', stage, hp'⟩) | ⟨-, due, next, hp'⟩ := h.up <;>
      cases hp.symm.trans hp'
  cases ht with
  | idle hb =>
    refine h.up.imp_right fun hq => ⟨?_, hq.2⟩
    show (w.looked || _ || _) = true
    rw [hq.1]
    rfl
  | quit hq => rcases hq with hq | hq <;> simp [ha.on] at hq
  | @hand line lines rest next hp =>
    cases rest with
    | false => exact .inl (.inr ⟨lines, next, rfl⟩)
    | true => exact (not_rests hp).elim
  | rest hp => exact (not_rests hp).elim
  | resume | wake | pass => exact .inl (.inl ⟨_, rfl⟩)
  | fail hw he => exact absurd he (h.untroubled.not_fails hw)
  | wait hw hp =>
    right
    cases hp with
    | missing => exact absurd hw (ha.not_works rfl)
    | same =>
      refine ⟨?_, _, _, rfl⟩
      show (w.looked || decide (w.tailer.engine.phase = .ready .check) || _) = true
      rw [hw.1]
      simp
  | rewind => exact .inl (.inl ⟨_, rfl⟩)
  | read => exact .inl (.inr ⟨_, _, rfl⟩)
  | «open» hw | flush hw | leave hw | last hw | finish hw => exact absurd hw (ha.not_works rfl)

namespace Heeds

theorem move (h : Heeds path config n w) {m : Move} (hm : Undisturbed w m) :
    Heeds path config n (w.move m) := by
  have untroubled := h.untroubled.routine hm
  cases m with
  | work =>
    have ht := turn_step h.untroubled.attentive.accounted.sound.fits w.fs w.now
    exact ⟨untroubled, ht.persists h.persists, up_of_turn h ht⟩
  | wait | notify | receive => exact ⟨untroubled, h.persists, h.up⟩
  | edit | stop | cleanup => cases hm

/-- The engine comes to wait if the consumer goes on taking. -/
theorem quiet (h : Heeds path config n w) (hqueue : w.tailer.queue = []) :
    ∃ count, (World.serve^[count] w).Quiet ∧ (World.serve^[count] w).tailer.queue = [] := by
  induction heffort : w.tailer.engine.effort w.fs using Nat.strong_induction_on generalizing w with
  | _ k ih =>
    obtain hfresh | hq := h.up
    · have hsound := h.untroubled.attentive.accounted.sound
      have hroom : w.tailer.queue.length < w.tailer.capacity := by
        rw [hqueue]
        exact hsound.capacity
      have hturn := turn_step hsound.fits w.fs w.now
      obtain hb | hlt := hturn.effort hsound h.persists hfresh.awake
      · exact absurd (hfresh.not_blocked hroom) (by rw [hb]; exact nofun)
      · have hserved := (h.move (m := .work) rfl).move (m := .receive none) rfl
        obtain ⟨count, hcount⟩ := ih _ (heffort ▸ hlt) hserved (World.queue_serve w) rfl
        exact ⟨count + 1, hcount⟩
    · exact ⟨0, hq, hqueue⟩

end Heeds

/-! ## Starting -/

section Start

variable {fs : FileSystem}

theorem heeds_start (h : start fs path config = .ok t) (hf : config.follow = true)
    (hn : fs.find path = .ok n) (hb : fs.bytes? n = some bytes)
    (ho : config.startOffset (FileSystem.identify n) bytes.length = .ok o) :
    Heeds path config n (World.start fs t) := by
  refine ⟨⟨attentive_start h hf hn hb ho, hn, ?_⟩, persists_start h, ?_⟩
  · rw [stream_start h]
    exact fun l hl => absurd hl List.not_mem_nil
  · obtain rfl := start_opened h hn hb ho
    exact .inl (.inl ⟨_, rfl⟩)

theorem taken_of_within (h : start fs path config = .ok t) (hf : config.follow = true)
    (hn : fs.find path = .ok n) (hb : fs.bytes? n = some bytes)
    (ho : config.startOffset (FileSystem.identify n) bytes.length = .ok o)
    (hle : o ≤ bytes.length) (hw : (World.start fs t).Reaches Undisturbed w) (hq : w.Quiet) :
    w.taken ++ w.tailer.queue = linesFrom config.maxLineSize o n bytes := by
  obtain ⟨s, past, hstart⟩ := within_start h hf hn hb ho hle
  obtain rfl : past = [] := by
    have hsec := hstart.abreast.sections
    obtain rfl := start_opened h hn hb ho
    exact (List.cons.inj hsec).2.symm
  obtain ⟨s', hs'⟩ := hstart.run hw
  rw [(hs'.atEnd hq).2, hs'.base, if_pos rfl]
  rfl

/-- A tailer that starts behind the end of the file goes back to its beginning. -/
theorem taken_of_overrun (h : start fs path config = .ok t) (hf : config.follow = true)
    (hn : fs.find path = .ok n) (hb : fs.bytes? n = some bytes)
    (ho : config.startOffset (FileSystem.identify n) bytes.length = .ok o)
    (hlt : bytes.length < o) (hw : (World.start fs t).Reaches Undisturbed w) (hq : w.Quiet) :
    w.taken ++ w.tailer.queue = linesFrom config.maxLineSize 0 n bytes := by
  have hheeds := heeds_start h hf hn hb ho
  have hover : Returns path config (World.start fs t)
      (.ofSession ⟨n, FileSystem.identify n, o⟩) [] bytes := by
    obtain rfl := start_opened h hn hb ho
    exact ⟨[], .inl ⟨⟨rfl, rfl, hb⟩, hlt, rfl⟩⟩
  have hreturns : Untroubled path config n w ∧ Returns path config w _ [] bytes :=
    hw.invariant
      (motive := fun v => Untroubled path config n v ∧ Returns path config v _ [] bytes)
      ⟨hheeds.untroubled, hover⟩ fun u m hu hm => ⟨hu.1.routine hm, hu.2.routine hu.1 hm⟩
  obtain ⟨hu, lines, hover' | ⟨rfl, s', hs, hobject, hbase⟩⟩ := hreturns
  · exact absurd (hover'.unseen.symm.trans hq.1) nofun
  · have hwithin : Within path config n 0 w s' _ bytes :=
      ⟨hu, hs, hobject, by rw [if_neg (List.cons_ne_nil _ _), hbase]⟩
    rw [(hwithin.atEnd hq).2, told_cons, hbase, Section.script_of_input rfl]
    rfl

end Start

end Existing

/-- A tailer that follows settles with the lines that are there whenever it waits. -/
theorem settles_of_quiet {fs : FileSystem} {path : Path} {config : Config} {n o : Nat}
    {bytes : Bytes} {lines : List Line} (hv : config.fault? = none) (hf : config.follow = true)
    (hn : fs.find path = .ok n) (hb : fs.bytes? n = some bytes)
    (ho : config.startOffset (FileSystem.identify n) bytes.length = .ok o)
    (hlines : ∀ t w, Tailer.start fs path config = .ok t →
      (World.start fs t).Reaches Undisturbed w → w.Quiet → w.taken ++ w.tailer.queue = lines) :
    Settles fs path config lines where
  starts := by
    rw [← FileSystem.length_of_bytes? hb] at ho
    exact Tailer.exists_start hv (FileSystem.openFile_of_bytes? hn hb) ho
  rests := fun t w ht hw => by
    have hheeds := hw.invariant (Existing.heeds_start ht hf hn hb ho) fun u m hu hm => hu.move hm
    have hserved := (hheeds.move (m := .work) rfl).move (m := .receive none) rfl
    obtain ⟨count, hcount⟩ := hserved.quiet (World.queue_serve w)
    exact ⟨count + 1, hcount⟩
  whole := fun t w ht hw hq hqueue => by
    have htaken := hlines t w ht hw hq
    rwa [hqueue, List.append_nil] at htaken

theorem linesFrom_behind {o n : Nat} {bytes : Bytes} (h : bytes.length ≤ o) (limit : Option Nat) :
    linesFrom limit o n bytes = [] := by
  unfold linesFrom
  rw [List.drop_of_length_le h, Greedy.pieces, Greedy.split_of_cut_none (Greedy.cut_nil _)]
  rfl

theorem delivers_linesFrom {fs : FileSystem} {path : Path} {config : Config} {n o : Nat}
    {bytes : Bytes} (hv : config.fault? = none) (hf : config.follow = false)
    (hc : config.completeLines = true) (hn : fs.find path = .ok n) (hb : fs.bytes? n = some bytes)
    (ho : config.startOffset (FileSystem.identify n) bytes.length = .ok o) :
    Delivers fs path config (linesFrom config.maxLineSize o n bytes) := by
  have h := delivers_share hv hf hn hb ho
  rwa [share_eq config o (.inr hc)] at h

/-- To follow and to read once come to the same lines, if both start at a place that is not
behind the end of the file. Behind it, a run that reads once gives out nothing, and one that follows
all complete lines of the file. -/
theorem existing_lines {fs : FileSystem} {path : Path} {followed once : Config} {n o : Nat}
    {bytes : Bytes} (hv : followed.fault? = none) (hf : followed.follow = true)
    (hv' : once.fault? = none) (hf' : once.follow = false) (hc : once.completeLines = true)
    (hlocation : once.location = followed.location)
    (hlimit : once.maxLineSize = followed.maxLineSize)
    (hn : fs.find path = .ok n) (hb : fs.bytes? n = some bytes)
    (ho : followed.startOffset (FileSystem.identify n) bytes.length = .ok o) :
    (o ≤ bytes.length →
      Settles fs path followed (linesFrom followed.maxLineSize o n bytes) ∧
        Delivers fs path once (linesFrom followed.maxLineSize o n bytes)) ∧
    (bytes.length < o →
      Settles fs path followed (linesFrom followed.maxLineSize 0 n bytes) ∧
        Delivers fs path once []) := by
  have ho' : once.startOffset (FileSystem.identify n) bytes.length = .ok o := by
    unfold Config.startOffset at ho ⊢
    rw [hlocation]
    exact ho
  have honce := delivers_linesFrom hv' hf' hc hn hb ho'
  rw [hlimit] at honce
  constructor
  · intro hle
    exact ⟨settles_of_quiet hv hf hn hb ho fun t w ht hw hq =>
      Existing.taken_of_within ht hf hn hb ho hle hw hq, honce⟩
  · intro hlt
    refine ⟨settles_of_quiet hv hf hn hb ho fun t w ht hw hq =>
      Existing.taken_of_overrun ht hf hn hb ho hlt hw hq, ?_⟩
    rwa [linesFrom_behind hlt.le] at honce

namespace Sample

def beyond : SeekInfo := ⟨10, .start, none⟩

/-- Follow whatever is at the name, from behind its end on. -/
def followBeyond : Config := { config with location := some beyond }

def readOnce (seek : SeekInfo) : Config :=
  { Config.default with location := some seek, completeLines := true }

def firstLine : Line := .ofText "x" 3 (some (FileSystem.identify 1))

theorem linesFrom_first : linesFrom none 0 1 firstBytes = [firstLine] := by
  rw [linesFrom_eq_push (by decide)]
  decide

theorem startOffset_beyond :
    followBeyond.startOffset (FileSystem.identify 1) firstBytes.length = .ok 10 := by decide

end Sample

theorem existing_lines_first :
    Settles Sample.files Sample.name Sample.config [Sample.firstLine] ∧
      Delivers Sample.files Sample.name (Sample.readOnce .start) [Sample.firstLine] := by
  have hfind : Sample.files.find Sample.name = .ok 1 := by decide
  have hbytes : Sample.files.bytes? 1 = some Sample.firstBytes := rfl
  have hv : Sample.config.fault? = none := rfl
  have hv' : (Sample.readOnce .start).fault? = none := rfl
  have ho : Sample.config.startOffset (FileSystem.identify 1) Sample.firstBytes.length = .ok 0 := by
    decide
  rw [← Sample.linesFrom_first]
  exact (existing_lines hv rfl hv' rfl rfl rfl rfl hfind hbytes ho).1 (Nat.zero_le _)

/-- From behind the end of a file, one that follows gives out what one that reads once does not. -/
theorem existing_lines_differ :
    Sample.followBeyond.location = (Sample.readOnce Sample.beyond).location ∧
      Sample.followBeyond.maxLineSize = (Sample.readOnce Sample.beyond).maxLineSize ∧
      Settles Sample.files Sample.name Sample.followBeyond [Sample.firstLine] ∧
      Delivers Sample.files Sample.name (Sample.readOnce Sample.beyond) [] := by
  have hfind : Sample.files.find Sample.name = .ok 1 := by decide
  have hbytes : Sample.files.bytes? 1 = some Sample.firstBytes := rfl
  have hv : Sample.followBeyond.fault? = none := rfl
  have hv' : (Sample.readOnce Sample.beyond).fault? = none := rfl
  have honce := delivers_linesFrom hv' rfl rfl hfind hbytes Sample.startOffset_beyond
  rw [linesFrom_behind (by decide)] at honce
  refine ⟨rfl, rfl, ?_, honce⟩
  rw [← Sample.linesFrom_first]
  exact settles_of_quiet hv rfl hfind hbytes Sample.startOffset_beyond fun t w ht hw hq =>
    Existing.taken_of_overrun ht rfl hfind hbytes Sample.startOffset_beyond (by decide) hw hq

end LogFollower
