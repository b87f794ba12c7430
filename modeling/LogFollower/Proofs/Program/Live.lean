import LogFollower.Program.Console
import LogFollower.Proofs.Existing
import LogFollower.Proofs.Stopping
import LogFollower.Proofs.Tailer.Labour

/-!
# Running a program to its end

Nobody disturbs the program, and the files stay as they are. Then each of its rounds is a piece of a
run of its tailer: the engine works until it is held up, and all lines are taken
(`In.attend`). A tailer `Gives` certain lines if it has given out all of them whenever it is held up
before an empty channel, and then has ended, or sleeps while the program has patience to wait.

A round brings lines, and there are not more of them than lines to come; or all lines came, and time
passes until the patience is over. So there are rounds enough for every such run, and it prints
the lines (`run_of_gives`).
-/

namespace LogFollower

/-- The engine works, time passes and lines are taken. -/
def Passive (_ : World) : Move → Prop
  | .work => True
  | .wait _ => True
  | .receive _ => True
  | _ => False

theorem Passive.undisturbed {w : World} {m : Move} (h : Passive w m) : Undisturbed w m := by
  cases m with
  | work | wait | receive => rfl
  | _ => exact h.elim

/-- What a program gets from a tailer that nobody disturbs, if it waits so long for each line: all
lines there are. -/
structure World.Gives (o : World) (patience : Option Nat) (lines : List Line) : Prop where
  still : ∀ w, o.Reaches Passive w → w.tailer.Still
  begins : ∀ w, o.Reaches Passive w → w.taken <+: lines
  whole : ∀ w, o.Reaches Passive w → w.tailer.blocked w.now = true → w.tailer.queue = [] →
    w.taken = lines ∧ (w.tailer.ended = true ∨
      ∃ ms due, patience = some ms ∧ w.tailer.wakeTime = some due)

namespace Live

variable {format : Line → Printed} {before : List Printed} {l : Live} {o w : World}

/-! ## Rounds -/

/-- What the engine does before it is held up. -/
def settled (l : Live) : Tailer := l.tailer.settle l.fs l.now

/-- The program after the engine was held up and all lines were taken and printed. -/
def attend (format : Line → Printed) (l : Live) : Live :=
  l.settled.queue.foldl (take format) { l with tailer := { l.settled with queue := [] } }

theorem foldl_take (format : Line → Printed) (lines : List Line) (l : Live) :
    (lines.foldl (take format) l).fs = l.fs ∧ (lines.foldl (take format) l).now = l.now ∧
      (lines.foldl (take format) l).tailer = l.tailer ∧
      (lines.foldl (take format) l).taken.reverse = l.taken.reverse ++ lines ∧
      (lines.foldl (take format) l).printed.reverse = l.printed.reverse ++ lines.map format := by
  induction lines generalizing l with
  | nil => simp
  | cons line lines ih =>
    have hone : (take format l line).fs = l.fs ∧ (take format l line).now = l.now ∧
        (take format l line).tailer = l.tailer ∧ (take format l line).taken = line :: l.taken ∧
        (take format l line).printed = format line :: l.printed := by
      unfold take print
      cases format line <;> exact ⟨rfl, rfl, rfl, rfl, rfl⟩
    obtain ⟨hfs, hnow, htailer, htaken, hprinted⟩ := hone
    obtain ⟨hfs', hnow', htailer', htaken', hprinted'⟩ := ih (take format l line)
    rw [List.foldl_cons, hfs', hnow', htailer', htaken', hprinted', htaken, hprinted]
    simp [hfs, hnow, htailer]

theorem receive_none (t : Tailer) :
    t.receive none = (t.queue, t.ended || t.closed, { t with queue := [] }) := by
  simp [Tailer.receive]

theorem watch_succ (patience : Option Nat) (rounds : Nat) (cue : Option Cue) (since : Nat)
    (l : Live) :
    l.watch ⟨format, none, patience⟩ (rounds + 1) cue since =
      if (l.settled.ended || l.settled.closed) = true then some (l.attend format)
      else if l.settled.queue ≠ [] then
        (l.attend format).watch ⟨format, none, patience⟩ rounds cue (l.attend format).now
      else
        match cue.filter (l.attend format).reached with
        | some c =>
          if c.interrupt then
            some { l.attend format with
              fs := c.edits.foldl FileSystem.edit (l.attend format).fs
              tailer := (l.attend format).tailer.cleanup }
          else
            { l.attend format with
              fs := c.edits.foldl FileSystem.edit (l.attend format).fs }.watch
                ⟨format, none, patience⟩ rounds none since
        | none =>
          match { l.settled with queue := [] }.wakeTime with
          | none => none
          | some due =>
            match patience with
            | some ms =>
              if due < since + ms then
                { l.attend format with now := due }.watch ⟨format, none, patience⟩ rounds cue since
              else some { l.attend format with now := since + ms }
            | none =>
              { l.attend format with now := due }.watch ⟨format, none, patience⟩ rounds cue
                since := by
  simp only [watch, Option.map_none, receive_none]
  exact if_neg Bool.false_ne_true

section Rounds

variable {patience : Option Nat} {rounds since : Nat} {cue : Option Cue}

theorem watch_of_ended (h : l.settled.ended = true) :
    l.watch ⟨format, none, patience⟩ (rounds + 1) cue since = some (l.attend format) := by
  rw [watch_succ, h, Bool.true_or, if_pos rfl]

theorem watch_of_lines (h : l.settled.ended = false) (hc : l.settled.closed = false)
    (hq : l.settled.queue ≠ []) :
    l.watch ⟨format, none, patience⟩ (rounds + 1) cue since =
      (l.attend format).watch ⟨format, none, patience⟩ rounds cue (l.attend format).now := by
  rw [watch_succ, h, hc, Bool.or_self, if_neg Bool.false_ne_true, if_pos hq]

/-- A round in which nothing is to be done but to see that nothing happens. -/
theorem watch_of_cue (h : l.settled.ended = false) (hc : l.settled.closed = false)
    (hq : l.settled.queue = []) :
    l.watch ⟨format, none, patience⟩ (rounds + 1) (some .never) since =
      (l.attend format).watch ⟨format, none, patience⟩ rounds none since := by
  rw [watch_succ, h, hc, Bool.or_self, if_neg Bool.false_ne_true, if_neg (not_not_intro hq)]
  rfl

theorem watch_of_due {ms due : Nat} (h : l.settled.ended = false) (hc : l.settled.closed = false)
    (hq : l.settled.queue = []) (hw : l.settled.wakeTime = some due) :
    l.watch ⟨format, none, some ms⟩ (rounds + 1) none since =
      if due < since + ms then
        { l.attend format with now := due }.watch ⟨format, none, some ms⟩ rounds none since
      else some { l.attend format with now := since + ms } := by
  have hw' : { l.settled with queue := [] }.wakeTime = some due := hw
  rw [watch_succ, h, hc, Bool.or_self, if_neg Bool.false_ne_true, if_neg (not_not_intro hq),
    hw']
  rfl

end Rounds

/-! ## The world of a program -/

/-- A program in a world: behind certain lines it has printed those that were taken there. -/
structure In (format : Line → Printed) (before : List Printed) (l : Live) (w : World) : Prop where
  fs : l.fs = w.fs
  now : l.now = w.now
  tailer : l.tailer = w.tailer
  taken : l.taken.reverse = w.taken
  printed : l.printed.reverse = before ++ w.taken.map format

theorem In.settled_eq (h : In format before l w) : l.settled = w.tailer.settle w.fs w.now := by
  unfold settled
  rw [h.fs, h.now, h.tailer]

/-- A round is a piece of a run. -/
theorem In.attend (h : In format before l w) :
    ∃ v, w.Reaches Passive v ∧ In format before (l.attend format) v ∧ v.now = w.now ∧
      v.taken = w.taken ++ l.settled.queue ∧ v.tailer = { l.settled with queue := [] } := by
  obtain ⟨count, hcount⟩ := w.exists_works (w.tailer.patience w.fs)
  have hsettled : (w.works count).tailer = l.settled := hcount.trans h.settled_eq.symm
  obtain ⟨hfs, hnow, htaken⟩ := World.frame_works w count
  have hreached : w.Reaches Passive ((w.works count).move (.receive none)) :=
    (World.reaches_works .here (fun _ => trivial) count).move (m := .receive none) trivial
  have hreceive : (w.works count).move (.receive none) = { w.works count with
      tailer := { l.settled with queue := [] }
      taken := (w.works count).taken ++ l.settled.queue } := by
    rw [← hsettled]
    simp only [World.move, receive_none]
  rw [hreceive] at hreached
  obtain ⟨hfs', hnow', htailer', htaken', hprinted'⟩ := foldl_take format
    l.settled.queue { l with tailer := { l.settled with queue := [] } }
  refine ⟨_, hreached, ⟨?_, ?_, htailer', ?_, ?_⟩, hnow, ?_, rfl⟩
  · exact hfs'.trans (h.fs.trans hfs.symm)
  · exact hnow'.trans (h.now.trans hnow.symm)
  · refine htaken'.trans ?_
    rw [h.taken, htaken]
  · refine hprinted'.trans ?_
    rw [h.printed, htaken, List.map_append, List.append_assoc]
  · rw [htaken]

theorem In.wait (h : In format before l w) {now : Nat} (hle : w.now ≤ now) :
    ∃ v, w.Reaches Passive v ∧ In format before { l with now } v ∧ v.now = now ∧
      v.taken = w.taken ∧ v.tailer = w.tailer := by
  have hnow : w.now + (now - w.now) = now := by omega
  exact ⟨w.move (.wait (now - w.now)), .move .here trivial,
    ⟨h.fs, hnow.symm, h.tailer, h.taken, h.printed⟩, hnow, rfl, rfl⟩

/-! ## Rounds enough -/

section Gives

variable {patience : Option Nat} {lines : List Line} {since : Nat}

def Done (format : Line → Printed) (before : List Printed) (lines : List Line)
    (l : Live) : Prop :=
  l.printed.reverse = before ++ lines.map format ∧ l.taken.reverse = lines

theorem In.done (h : In format before l w) (ht : w.taken = lines) : Done format before lines l :=
  ⟨by rw [h.printed, ht], h.taken.trans ht⟩

/-- What a round leaves behind. If it brings nothing, or meets the end, all lines were taken. -/
theorem attend_gives (hg : o.Gives patience lines) (hw : o.Reaches Passive w)
    (h : In format before l w) :
    ∃ v, o.Reaches Passive v ∧ In format before (l.attend format) v ∧ v.now = w.now ∧
      v.taken = w.taken ++ l.settled.queue ∧
      (l.settled.ended = true ∨ l.settled.queue = [] → v.taken = lines ∧
        (l.settled.ended = true ∨ ∃ ms due,
          patience = some ms ∧ l.settled.wakeTime = some due ∧ w.now < due)) := by
  obtain ⟨v, hwv, hin, hnow, htaken, htailer⟩ := h.attend
  have hv := hw.trans hwv
  have hstill := (hg.still w hw).settle w.fs w.now
  have hblocked := (hg.still w hw).blocked_settle w.fs w.now
  rw [← h.settled_eq] at hstill hblocked
  refine ⟨v, hv, hin, hnow, htaken, fun hor => ?_⟩
  have hv_blocked : v.tailer.blocked v.now = true := by
    rw [htailer, hnow]
    obtain hend | hq := hor
    · have hphase : l.settled.engine.phase = .ended := of_decide_eq_true hend
      unfold Tailer.blocked
      rw [hphase]
    · rw [← hq]
      exact hblocked
  obtain ⟨hall, hwhy⟩ := hg.whole v hv hv_blocked (by rw [htailer])
  refine ⟨hall, ?_⟩
  rw [htailer] at hwhy
  refine hwhy.imp_right fun ⟨ms, due, hms, hdue⟩ => ⟨ms, due, hms, hdue, ?_⟩
  exact hstill.lt_of_wakeTime hblocked hdue

theorem closed_settled (hg : o.Gives patience lines) (hw : o.Reaches Passive w)
    (h : In format before l w) : l.settled.closed = false := by
  rw [h.settled_eq]
  exact ((hg.still w hw).settle w.fs w.now).on.2

theorem queue_eq_nil (hg : o.Gives patience lines) {v : World} (hv : o.Reaches Passive v)
    (ht : w.taken = lines) {queue : List Line} (htaken : v.taken = w.taken ++ queue) :
    queue = [] := by
  have hle := (hg.begins v hv).length_le
  rw [htaken, ht, List.length_append] at hle
  exact List.length_eq_zero_iff.1 (by omega)

theorem watch_whole (hg : o.Gives patience lines) {rounds : Nat} (hw : o.Reaches Passive w)
    (h : In format before l w) (ht : w.taken = lines)
    (hrounds : since + patience.getD 0 - w.now < rounds) :
    ∃ l', l.watch ⟨format, none, patience⟩ rounds none since = some l' ∧
      Done format before lines l' := by
  induction rounds generalizing l w with
  | zero => exact absurd hrounds (Nat.not_lt_zero _)
  | succ rounds ih =>
    obtain ⟨v, hv, hin, hnow, htaken, hwhole⟩ := attend_gives hg hw h
    have hq := queue_eq_nil hg hv ht htaken
    obtain ⟨hall, hwhy⟩ := hwhole (.inr hq)
    have hclosed := closed_settled hg hw h
    cases hend : l.settled.ended with
    | true => exact ⟨_, watch_of_ended hend, hin.done hall⟩
    | false =>
      obtain ⟨ms, due, rfl, hdue, hlt⟩ := hwhy.resolve_left (by rw [hend]; exact nofun)
      rw [watch_of_due hend hclosed hq hdue]
      by_cases hsoon : due < since + ms
      · obtain ⟨u, hvu, hin', hnow', htaken', -⟩ := hin.wait (hnow.trans_le hlt.le)
        rw [if_pos hsoon]
        refine ih (hv.trans hvu) hin' (htaken'.trans hall) ?_
        rw [Option.getD_some] at hrounds ⊢
        omega
      · rw [if_neg hsoon]
        exact ⟨_, rfl, hin.done hall⟩

/-- A program that is given rounds enough takes all lines. -/
theorem watch_gives (hg : o.Gives patience lines) {rounds : Nat} (hw : o.Reaches Passive w)
    (h : In format before l w) (hsince : since ≤ w.now)
    (hrounds : lines.length - w.taken.length + patience.getD 0 + 1 < rounds) :
    ∃ l', l.watch ⟨format, none, patience⟩ rounds (some .never) since = some l' ∧
      Done format before lines l' := by
  induction rounds generalizing l w since with
  | zero => exact absurd hrounds (Nat.not_lt_zero _)
  | succ rounds ih =>
    obtain ⟨v, hv, hin, hnow, htaken, hwhole⟩ := attend_gives hg hw h
    have hclosed := closed_settled hg hw h
    cases hend : l.settled.ended with
    | true => exact ⟨_, watch_of_ended hend, hin.done (hwhole (.inl hend)).1⟩
    | false =>
      by_cases hq : l.settled.queue = []
      · rw [watch_of_cue hend hclosed hq]
        refine watch_whole hg hv hin (hwhole (.inr hq)).1 ?_
        omega
      · rw [watch_of_lines hend hclosed hq]
        have hpos := List.length_pos_of_ne_nil hq
        have hle := (hg.begins v hv).length_le
        have hlength : v.taken.length = w.taken.length + l.settled.queue.length := by
          rw [htaken, List.length_append]
        exact ih hv hin hin.now.le (by omega)

end Gives

/-- A program runs to its end, and prints all lines that there are. -/
theorem run_of_gives {fs : FileSystem} {t : Tailer} {patience : Option Nat} {lines : List Line}
    (hg : (World.start fs t).Gives patience lines) (hlines : lines.length ≤ fs.size + 1)
    (hp : patience.getD 0 ≤ 1000) (format : Line → Printed) (before : List Printed) :
    ∃ l, (Live.start fs t before).run ⟨format, none, patience⟩ .never = some l ∧
      l.printed.reverse = before ++ lines.map format ∧ l.taken.reverse = lines := by
  have hin : In format before (Live.start fs t before) (World.start fs t) :=
    ⟨rfl, rfl, rfl, rfl, by simp [Live.start, World.start]⟩
  refine watch_gives hg .here hin le_rfl ?_
  show lines.length - 0 + patience.getD 0 + 1 < 16 * (fs.size + fs.size) + 100000
  omega

end Live

/-! ## What tailers give -/

namespace World

variable {fs : FileSystem} {path : Path} {config : Config} {t : Tailer} {n start : Nat}
  {bytes : Bytes} {lines : List Line} {w : World}

theorem still_of_reaches (h : Tailer.start fs path config = .ok t)
    (hw : (World.start fs t).Reaches Passive w) : w.tailer.Still := by
  refine hw.invariant (motive := fun u => u.tailer.Still) (Tailer.still_start h) ?_
  intro u m hu hm
  cases m with
  | work => exact hu.step u.fs u.now
  | wait => exact hu
  | receive => exact hu.queue _
  | _ => exact hm.elim

theorem taken_serves (w : World) (count : Nat) : w.taken <+: (serve^[count] w).taken := by
  induction count generalizing w with
  | zero => exact List.prefix_rfl
  | succ count ih => exact (List.prefix_append _ _).trans (ih w.serve)

/-- A tailer that follows gives the lines that are there whenever it waits. -/
theorem gives_of_quiet (h : Tailer.start fs path config = .ok t) (hf : config.follow = true)
    (hn : fs.find path = .ok n) (hb : fs.bytes? n = some bytes)
    (ho : config.startOffset (FileSystem.identify n) bytes.length = .ok start)
    (hlines : ∀ t w, Tailer.start fs path config = .ok t →
      (World.start fs t).Reaches Undisturbed w → w.Quiet → w.taken ++ w.tailer.queue = lines)
    (ms : Nat) : (World.start fs t).Gives (some ms) lines := by
  have hv : config.fault? = none := (Tailer.start_cases h).1
  have hsettles := settles_of_quiet hv hf hn hb ho hlines
  have undisturbed {w : World} (hw : (World.start fs t).Reaches Passive w) :
      (World.start fs t).Reaches Undisturbed w := hw.mono fun _ _ => Passive.undisturbed
  refine ⟨fun w hw => still_of_reaches h hw, fun w hw => ?_, fun w hw hblocked hqueue => ?_⟩
  · obtain ⟨count, hq, hqueue⟩ := hsettles.rests t w h (undisturbed hw)
    rw [← hsettles.whole t _ h (reaches_serves (undisturbed hw) count) hq hqueue]
    exact w.taken_serves count
  · have hheeds : Existing.Heeds path config n w :=
      (undisturbed hw).invariant (Existing.heeds_start h hf hn hb ho) fun _ _ hu hm => hu.move hm
    have hroom : w.tailer.queue.length < w.tailer.capacity := by
      rw [hqueue]
      exact (still_of_reaches h hw).sound.capacity
    obtain hfresh | hq := hheeds.up
    · exact absurd hblocked (by rw [hfresh.not_blocked hroom]; exact Bool.false_ne_true)
    · obtain ⟨due, next, hp⟩ := hq.2
      refine ⟨hsettles.whole t w h (undisturbed hw) hq hqueue, .inr ⟨ms, due, rfl, ?_⟩⟩
      unfold Tailer.wakeTime
      rw [hp]

theorem gives_share (h : Tailer.start fs path config = .ok t) (hf : config.follow = false)
    (hn : fs.find path = .ok n) (hb : fs.bytes? n = some bytes)
    (ho : config.startOffset (FileSystem.identify n) bytes.length = .ok start)
    (patience : Option Nat) :
    (World.start fs t).Gives patience (share config start true n bytes) := by
  have hv : config.fault? = none := (Tailer.start_cases h).1
  have hdelivers := delivers_share hv hf hn hb ho
  have undisturbed {w : World} (hw : (World.start fs t).Reaches Passive w) :
      (World.start fs t).Reaches Undisturbed w := hw.mono fun _ _ => Passive.undisturbed
  refine ⟨fun w hw => still_of_reaches h hw, fun w hw => hdelivers.begins t w h (undisturbed hw),
    fun w hw hblocked hqueue => ?_⟩
  obtain ⟨s, hunderway⟩ : ∃ s, OneShot.Underway config n start bytes w s :=
    (undisturbed hw).invariant (motive := fun v => ∃ s, OneShot.Underway config n start bytes v s)
      (OneShot.underway_start hf hn hb ho h) fun _ _ ⟨_, hu⟩ hm => hu.move hm
  cases hend : w.tailer.ended with
  | false =>
    exact absurd hblocked (by rw [hunderway.not_blocked hqueue hend]; exact Bool.false_ne_true)
  | true => exact ⟨hdelivers.whole t w h (undisturbed hw) hend hqueue, .inl rfl⟩

end World

/-- A file has at most one line for each of its bytes. -/
theorem length_linesFrom_le {limit : Option Nat} (hl : limit ≠ some 0) (start n : Nat)
    (bytes : Bytes) : (linesFrom limit start n bytes).length ≤ bytes.length := by
  rw [linesFrom_eq_push hl, List.length_map]
  exact (Splitter.length_push_le _ _).trans (List.drop_sublist start bytes).length_le

theorem length_share_le {config : Config} (hv : config.fault? = none) (start n : Nat)
    (bytes : Bytes) : (share config start true n bytes).length ≤ bytes.length + 1 := by
  have hlines := length_linesFrom_le (Tailer.limit_ne_zero_of_valid hv) start n bytes
  rw [linesFrom, List.length_map] at hlines
  rw [share, List.length_map, List.length_append]
  unfold Greedy.remainder
  split_ifs <;> simp <;> omega

end LogFollower
