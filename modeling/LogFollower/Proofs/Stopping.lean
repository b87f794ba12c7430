import LogFollower.Proofs.OneShot
import LogFollower.Proofs.Tailer.Beat
import LogFollower.Proofs.Tailer.Effort

/-!
# Stopping a tailer

A stop can be requested at any moment: between two lines, before a full channel, before the task ran
at all. A cleanup requests it too, and closes the channel. From then on no line is put into the
channel (`World.Stopped.kept`), the task comes to its end, and what was in the channel can still be
taken. `stopped_stream` adds that the lines given out are the beginning of those that the tailer
gives out if nobody stops it.

The last part rests on `Engine.beats`: over files that stay as they are, the lines of a tailer are
one sequence, whenever time passes and lines are taken, and a stop only breaks it off.
-/

namespace LogFollower

/-- The files stay as they are. All else may happen, stops included. -/
def FilesStay (_ : World) (m : Move) : Prop := ∀ change, m ≠ .edit change

theorem Undisturbed.filesStay {w : World} {m : Move} (h : Undisturbed w m) : FilesStay w m := by
  rintro change rfl
  cases h

namespace World

theorem Reaches.mono {allowed allowed' : World → Move → Prop} {w v : World}
    (h : Reaches allowed w v) (hm : ∀ u m, allowed u m → allowed' u m) : Reaches allowed' w v := by
  induction h with
  | here => exact .here
  | move _ hmove ih => exact .move ih (hm _ _ hmove)

/-- The requests that make a task stop. -/
def Cancels : Move → Prop
  | .stop => True
  | .cleanup => True
  | _ => False

theorem Cancels.filesStay {w : World} {m : Move} (h : Cancels m) : FilesStay w m := by
  rintro change rfl
  cases h

/-- What becomes of a tailer that was asked to stop. -/
structure Stopped (w : World) : Prop where
  /-- Nothing is put into the channel any more, and what is there comes in order. -/
  kept : ∀ v, w.Reaches FilesStay v →
    v.tailer.stopRequested = true ∧ v.taken ++ v.tailer.queue = w.taken ++ w.tailer.queue
  /-- The task comes to its end, without time passing and without a line being taken. -/
  ends : ∃ count, (w.works count).tailer.ended = true
  /-- Once all lines were taken and the end was met, there is nothing more for ever. -/
  nothing : ∀ v, w.Reaches FilesStay v → v.tailer.queue = [] →
    (v.tailer.ended = true ∨ v.tailer.closed = true) →
    ∀ u, v.Reaches FilesStay u → u.tailer.receive (some 1) = ([], true, u.tailer)

end World

namespace Tailer

variable {fs : FileSystem} {now : Nat} {t t' : Tailer}

/-! ## After the request -/

/-- No step puts a line into the channel after a stop request. -/
theorem Turn.queue_eq (h : Turn fs now t t') (hs : t.stopRequested = true) :
    t'.queue = t.queue := by
  cases h with
  | hand hp on => exact absurd (.inl hs) on
  | _ => rfl

theorem blocked_of_stopRequested (hs : t.stopRequested = true) : t.blocked now = t.ended := by
  unfold blocked ended
  cases hp : t.engine.phase with
  | handing lines rest next => cases lines <;> simp [hs]
  | _ => simp [hs]

theorem step_asleep_of_stopRequested (hs : t.stopRequested = true) {due : Nat} {watching : Bool}
    {next : Stage} (hp : t.engine.phase = .asleep due watching next) :
    t.step fs now = t.quit := by
  unfold step sleep
  rw [hp]
  exact if_pos hs

def Halting (_ : Nat) (t : Tailer) : Prop :=
  t.Sound ∧ t.engine.Persists ∧ t.stopRequested = true

theorem halting_lasting (fs : FileSystem) : Lasting fs Halting where
  step := by
    rintro now t ⟨hsound, hpersists, hs⟩
    have ht := turn_step hsound.fits fs now
    exact ⟨hsound.turn ht, ht.persists hpersists, ht.stopRequested_eq.trans hs⟩
  later := fun _ _ _ _ h => h
  wake := fun _ _ _ h _ => h

theorem halting_paying (fs : FileSystem) :
    Paying fs Halting fun _ t => t.engine.effort fs where
  pays := by
    rintro now t ⟨hsound, hpersists, hs⟩ hb
    by_cases hp : ∃ due watching next, t.engine.phase = .asleep due watching next
    · obtain ⟨due, watching, next, hp⟩ := hp
      rw [step_asleep_of_stopRequested hs hp]
      unfold Engine.effort
      rw [hp]
      exact Nat.one_pos
    · have hawake : ∀ due watching next, t.engine.phase ≠ .asleep due watching next :=
        fun due watching next h => hp ⟨due, watching, next, h⟩
      have ht := turn_step hsound.fits fs now
      exact (ht.effort hsound hpersists hawake).resolve_left (by rw [hb]; exact nofun)
  afford := fun _ t _ => effort_le fs t

/-- Steps enough bring a tailer that was asked to stop to its end. -/
theorem Halting.settle (h : Halting now t) :
    (t.settle fs now).ended = true ∧ (t.settle fs now).queue = t.queue := by
  have hlasting := (halting_lasting fs).and (Q := fun t' => t'.queue = t.queue)
    fun now t' h hq => ((turn_step h.1.fits fs now).queue_eq h.2.2).trans hq
  obtain ⟨hend, hqueue⟩ := settle_of hlasting ⟨h, rfl⟩
  have hblocked := blocked_settle (halting_lasting fs) (halting_paying fs) h
  rw [blocked_of_stopRequested hend.2.2] at hblocked
  exact ⟨hblocked, hqueue⟩

theorem stop_spec (hsound : t.Sound) (hpersists : t.engine.Persists) :
    (t.stop fs now).ended = true ∧ (t.stop fs now).queue = t.queue :=
  Halting.settle (t := { t with stopRequested := true }) ⟨{ hsound with }, hpersists, rfl⟩

theorem outer_start {path : Path} {config : Config} (h : start fs path config = .ok t) :
    t.On ∧ t.queue = [] := by
  obtain ⟨-, ⟨n, offset, -, -, rfl⟩ | ⟨f, -, -, -, rfl⟩⟩ := start_cases h <;>
    exact ⟨⟨rfl, rfl⟩, rfl⟩

/-- With an empty channel, an engine can go on at once or when its sleep is over. -/
theorem exists_awake (now : Nat) (hq : t.queue = []) (hc : 0 < t.capacity)
    (he : t.ended = false) : ∃ ms, t.blocked (now + ms) = false := by
  unfold ended at he
  unfold blocked
  cases hp : t.engine.phase with
  | ended => simp [hp] at he
  | ready stage => exact ⟨0, rfl⟩
  | handing lines rest next =>
    cases lines with
    | nil => exact ⟨0, rfl⟩
    | cons line lines => exact ⟨0, by simp [hq, hc.ne']⟩
  | asleep due watching next =>
    exact ⟨due, by simp [Nat.not_lt.2 (Nat.le_add_left due now)]⟩

end Tailer

namespace World

variable {w u v : World}

theorem exists_works (w : World) (fuel : Nat) :
    ∃ count, (w.works count).tailer = w.tailer.settleWithin w.fs w.now fuel := by
  induction fuel generalizing w with
  | zero => exact ⟨0, rfl⟩
  | succ fuel ih =>
    unfold Tailer.settleWithin
    cases hb : w.tailer.blocked w.now with
    | true => exact ⟨0, rfl⟩
    | false =>
      obtain ⟨count, hcount⟩ := ih (w.move .work)
      exact ⟨count + 1, hcount⟩

theorem frame_works (w : World) (count : Nat) :
    (w.works count).fs = w.fs ∧ (w.works count).now = w.now ∧ (w.works count).taken = w.taken := by
  induction count generalizing w with
  | zero => exact ⟨rfl, rfl, rfl⟩
  | succ count ih => exact ih (w.move .work)

/-! ## One sequence of lines -/

/-- A world in which the files have stayed as they were when the tailer was started: what was given
out are the lines of some beats, and the engine stands behind them unless it was stopped. -/
structure Follows (fs : FileSystem) (e : Engine) (w : World) : Prop where
  fs_eq : w.fs = fs
  sound : w.tailer.Sound
  persists : w.tailer.engine.Persists
  open_of_wanted : w.tailer.stopRequested = false → w.tailer.closed = false
  lines : ∃ count, w.taken ++ w.tailer.queue = (e.beats fs count).2 ∧
    (w.tailer.stopRequested = false → w.tailer.engine.bare = (e.beats fs count).1)

namespace Follows

variable {fs : FileSystem} {e : Engine}

theorem on (h : Follows fs e w) (hs : w.tailer.stopRequested = false) : w.tailer.On :=
  ⟨hs, h.open_of_wanted hs⟩

theorem beat (h : Follows fs e w) (hs : w.tailer.stopRequested = false) {count : Nat}
    (hb : w.tailer.blocked w.now = false)
    (hbare : w.tailer.engine.bare = (e.beats fs count).1)
    (hlines : w.taken ++ w.tailer.queue = (e.beats fs count).2) :
    (w.move .work).tailer.engine.bare = (e.beats fs (count + 1)).1 ∧
      (w.move .work).taken ++ (w.move .work).tailer.queue = (e.beats fs (count + 1)).2 := by
  have hstep : (w.move .work).tailer.engine.bare = w.tailer.engine.bare.beat w.fs ∧
      (w.move .work).tailer.queue = w.tailer.queue ++ w.tailer.engine.gives :=
    Tailer.step_bare (h.on hs) hb
  constructor
  · rw [hstep.1, hbare, h.fs_eq]
    rfl
  · rw [hstep.2, ← Engine.gives_bare, hbare]
    show w.taken ++ (w.tailer.queue ++ _) = _
    rw [← List.append_assoc, hlines]
    rfl

/-- A step of the engine is a further beat, or none. -/
theorem work (h : Follows fs e w) : Follows fs e (w.move .work) := by
  have ht := Tailer.turn_step h.sound.fits w.fs w.now
  refine ⟨h.fs_eq, h.sound.turn ht, ht.persists h.persists, fun hs => ?_, ?_⟩
  · exact ht.closed_eq.trans (h.open_of_wanted (ht.stopRequested_eq.symm.trans hs))
  · obtain ⟨count, hlines, hbare⟩ := h.lines
    cases hs : w.tailer.stopRequested with
    | true =>
      refine ⟨count, ?_, fun hs' => ?_⟩
      on_goal 2 => exact absurd (hs.symm.trans (ht.stopRequested_eq.symm.trans hs')) nofun
      show w.taken ++ (w.tailer.step w.fs w.now).queue = _
      rw [ht.queue_eq hs, hlines]
    | false =>
      cases hb : w.tailer.blocked w.now with
      | true =>
        refine ⟨count, ?_, fun _ => ?_⟩
        · show w.taken ++ (w.tailer.step w.fs w.now).queue = _
          rw [Tailer.step_eq_of_blocked hb, hlines]
        · show (w.tailer.step w.fs w.now).engine.bare = _
          rw [Tailer.step_eq_of_blocked hb, hbare hs]
      | false =>
        obtain ⟨hbare', hlines'⟩ := h.beat hs hb (hbare hs) hlines
        exact ⟨count + 1, hlines', fun _ => hbare'⟩

theorem move (h : Follows fs e w) {m : Move} (hm : FilesStay w m) :
    Follows fs e (w.move m) := by
  cases m with
  | edit change => exact absurd rfl (hm change)
  | work => exact h.work
  | wait ms => exact { h with }
  | notify event => exact { h with sound := { h.sound with } }
  | receive max =>
    refine { h with sound := { h.sound with }, lines := ?_ }
    obtain ⟨count, hlines, hbare⟩ := h.lines
    refine ⟨count, ?_, hbare⟩
    show (w.taken ++ (w.tailer.receive max).1) ++ (w.tailer.receive max).2.2.queue = _
    rw [List.append_assoc, w.tailer.queue_receive max, hlines]
  | stop | cleanup =>
    obtain ⟨count, hlines, -⟩ := h.lines
    exact { h with
      sound := { h.sound with }, open_of_wanted := nofun, lines := ⟨count, hlines, nofun⟩ }

theorem next (h : Follows fs e w) (hs : w.tailer.stopRequested = false) {count : Nat}
    (hbare : w.tailer.engine.bare = (e.beats fs count).1)
    (hlines : w.taken ++ w.tailer.queue = (e.beats fs count).2) (hu : u.Reaches Undisturbed w) :
    ∃ v, u.Reaches Undisturbed v ∧ Follows fs e v ∧ v.tailer.stopRequested = false ∧
      v.tailer.engine.bare = (e.beats fs (count + 1)).1 ∧
      v.taken ++ v.tailer.queue = (e.beats fs (count + 1)).2 := by
  cases he : w.tailer.ended with
  | true =>
    have hphase : (e.beats fs count).1.phase = .ended := by
      rw [← hbare]
      exact congrArg Phase.timeless (of_decide_eq_true he)
    have hstill : (e.beats fs count).1.bare = (e.beats fs count).1 := by
      rw [← hbare, Engine.bare_bare]
    have hsame := Engine.beats_of_ended hstill hphase (Nat.le_succ count)
    exact ⟨w, hu, h, hs, by rw [hsame, hbare], by rw [hsame, hlines]⟩
  | false =>
    have hreceive : Undisturbed w (.receive none) := rfl
    have hemptied := h.move hreceive.filesStay
    have hqueue : (w.move (.receive none)).tailer.queue = [] := by
      show List.drop _ _ = []
      simp
    obtain ⟨ms, hb⟩ := Tailer.exists_awake (w.move (.receive none)).now hqueue
      hemptied.sound.capacity (show (w.move (.receive none)).tailer.ended = false from he)
    have hwait : Undisturbed (w.move (.receive none)) (.wait ms) := rfl
    have hwaited := hemptied.move hwait.filesStay
    have hlines' : (w.move (.receive none)).taken ++ (w.move (.receive none)).tailer.queue =
        (e.beats fs count).2 := by
      rw [← hlines]
      show (w.taken ++ (w.tailer.receive none).1) ++ (w.tailer.receive none).2.2.queue = _
      rw [List.append_assoc, w.tailer.queue_receive none]
    obtain ⟨hbare', hlines''⟩ := hwaited.beat hs hb hbare hlines'
    refine ⟨_, .move (.move (.move hu hreceive) hwait) (m := .work) rfl, hwaited.work, ?_, hbare',
      hlines''⟩
    exact (Tailer.turn_step hwaited.sound.fits _ _).stopRequested_eq.trans hs

/-- Where nobody stops the tailer and the consumer goes on taking, the lines of any number of beats
come. -/
theorem reaches_lines (h : Follows fs e w) (hs : w.tailer.stopRequested = false)
    (hu : u.Reaches Undisturbed w) (count : Nat) :
    ∃ v, u.Reaches Undisturbed v ∧ (e.beats fs count).2 <+: v.taken := by
  have reached (more : Nat) : ∃ count v, more ≤ count ∧ u.Reaches Undisturbed v ∧
      Follows fs e v ∧ v.tailer.stopRequested = false ∧
      v.tailer.engine.bare = (e.beats fs count).1 ∧
      v.taken ++ v.tailer.queue = (e.beats fs count).2 := by
    induction more with
    | zero =>
      obtain ⟨count, hlines, hbare⟩ := h.lines
      exact ⟨count, w, Nat.zero_le _, hu, h, hs, hbare hs, hlines⟩
    | succ more ih =>
      obtain ⟨count, v, hle, hv, hf, hs, hbare, hlines⟩ := ih
      obtain ⟨v', hv', hf', hs', hbare', hlines'⟩ := hf.next hs hbare hlines hv
      exact ⟨count + 1, v', Nat.succ_le_succ hle, hv', hf', hs', hbare', hlines'⟩
  obtain ⟨count', v, hle, hv, -, -, -, hlines⟩ := reached count
  refine ⟨v.move (.receive none), .move hv rfl, ?_⟩
  have htaken : (v.move (.receive none)).taken = v.taken ++ v.tailer.queue := by
    show v.taken ++ (v.tailer.receive none).1 = _
    simp [Tailer.receive]
  rw [htaken, hlines]
  exact Engine.lines_prefix fs e hle

end Follows

theorem follows_start {fs : FileSystem} {path : Path} {config : Config} {t : Tailer}
    (h : Tailer.start fs path config = .ok t) : Follows fs t.engine.bare (start fs t) := by
  obtain ⟨on, hqueue⟩ := Tailer.outer_start h
  exact ⟨rfl, Tailer.sound_start h, Tailer.persists_start h, fun _ => on.2, 0, hqueue, fun _ => rfl⟩

/-! ## After the request -/

theorem kept_move (hsound : w.tailer.Sound) (hs : w.tailer.stopRequested = true) {m : Move}
    (hm : FilesStay w m) :
    (w.move m).tailer.stopRequested = true ∧
      (w.move m).taken ++ (w.move m).tailer.queue = w.taken ++ w.tailer.queue := by
  cases m with
  | edit change => exact absurd rfl (hm change)
  | work =>
    have ht := Tailer.turn_step hsound.fits w.fs w.now
    exact ⟨ht.stopRequested_eq.trans hs, congrArg (w.taken ++ ·) (ht.queue_eq hs)⟩
  | wait | notify => exact ⟨hs, rfl⟩
  | receive max =>
    refine ⟨hs, ?_⟩
    show (w.taken ++ (w.tailer.receive max).1) ++ (w.tailer.receive max).2.2.queue = _
    rw [List.append_assoc, w.tailer.queue_receive max]
  | stop | cleanup => exact ⟨rfl, rfl⟩

/-- The consumer has taken all lines of a tailer that was stopped, and met the end. -/
structure Spent (w : World) : Prop where
  sound : w.tailer.Sound
  stopRequested : w.tailer.stopRequested = true
  empty : w.tailer.queue = []
  atEnd : w.tailer.ended = true ∨ w.tailer.closed = true

theorem Spent.move (h : Spent w) {m : Move} (hm : FilesStay w m) : Spent (w.move m) := by
  cases m with
  | edit change => exact absurd rfl (hm change)
  | work =>
    have ht := Tailer.turn_step h.sound.fits w.fs w.now
    refine ⟨h.sound.turn ht, ht.stopRequested_eq.trans h.stopRequested,
      (ht.queue_eq h.stopRequested).trans h.empty, ?_⟩
    refine h.atEnd.imp (fun he => ?_) fun hc => ht.closed_eq.trans hc
    have hb : w.tailer.blocked w.now = true := by
      rw [Tailer.blocked_of_stopRequested h.stopRequested, he]
    show (w.tailer.step w.fs w.now).ended = true
    rw [Tailer.step_eq_of_blocked hb, he]
  | wait | notify => exact { h with sound := { h.sound with } }
  | receive max =>
    refine { h with sound := { h.sound with }, empty := ?_ }
    show w.tailer.queue.drop _ = []
    rw [h.empty, List.drop_nil]
  | stop => exact { h with sound := { h.sound with }, stopRequested := rfl }
  | cleanup =>
    exact { h with sound := { h.sound with }, stopRequested := rfl, atEnd := .inr rfl }

theorem Spent.receive (h : Spent w) : w.tailer.receive (some 1) = ([], true, w.tailer) := by
  have hend : (w.tailer.ended || w.tailer.closed) = true := Bool.or_eq_true_iff.2 h.atEnd
  have hsame : { w.tailer with queue := [] } = w.tailer := by
    rw [← h.empty]
  unfold Tailer.receive
  simp only [Option.getD_some, h.empty, List.take_nil, List.drop_nil, hend, hsame]
  rfl

theorem Follows.stopped {fs : FileSystem} {e : Engine} (h : Follows fs e w)
    (hs : w.tailer.stopRequested = true) : w.Stopped := by
  have reached (v) (hv : w.Reaches FilesStay v) : v.tailer.Sound ∧
      v.tailer.stopRequested = true ∧
      v.taken ++ v.tailer.queue = w.taken ++ w.tailer.queue := by
    refine hv.invariant (motive := fun v => v.tailer.Sound ∧ v.tailer.stopRequested = true ∧
      v.taken ++ v.tailer.queue = w.taken ++ w.tailer.queue) ⟨h.sound, hs, rfl⟩ ?_
    rintro u m ⟨hsound, hs, hlines⟩ hm
    obtain ⟨hs', hlines'⟩ := kept_move hsound hs hm
    refine ⟨?_, hs', hlines'.trans hlines⟩
    cases m with
    | edit change => exact absurd rfl (hm change)
    | work => exact hsound.turn (Tailer.turn_step hsound.fits u.fs u.now)
    | _ => exact { hsound with }
  refine ⟨fun v hv => (reached v hv).2, ?_, fun v hv hqueue hend u hu => ?_⟩
  · obtain ⟨count, hcount⟩ := w.exists_works (w.tailer.patience w.fs)
    refine ⟨count, ?_⟩
    have hhalting : Tailer.Halting w.now w.tailer := ⟨h.sound, h.persists, hs⟩
    rw [hcount]
    exact hhalting.settle.1
  · have hspent : Spent v := ⟨(reached v hv).1, (reached v hv).2.1, hqueue, hend⟩
    exact (hu.invariant hspent fun u m hu hm => hu.move hm).receive

theorem Follows.cancelled {fs : FileSystem} {e : Engine} (h : Follows fs e w) {m : Move}
    (hm : Cancels m) :
    (w.move m).Stopped ∧ ∃ count,
      ((w.move m).works count).tailer = (w.move m).tailer.settle w.fs w.now ∧
      ((w.move m).tailer.settle w.fs w.now).ended = true ∧
      ((w.move m).tailer.settle w.fs w.now).queue = w.tailer.queue := by
  have hasked : (w.move m).tailer.stopRequested = true ∧
      (w.move m).tailer.queue = w.tailer.queue ∧ (w.move m).fs = w.fs ∧
      (w.move m).now = w.now := by
    cases m with
    | stop | cleanup => exact ⟨rfl, rfl, rfl, rfl⟩
    | _ => exact hm.elim
  obtain ⟨hs, hqueue, hfs, hnow⟩ := hasked
  have hmoved := h.move hm.filesStay
  have hhalting : Tailer.Halting w.now (w.move m).tailer := ⟨hmoved.sound, hmoved.persists, hs⟩
  obtain ⟨count, hcount⟩ := (w.move m).exists_works ((w.move m).tailer.patience w.fs)
  rw [hfs, hnow] at hcount
  obtain ⟨hend, hkept⟩ :
      ((w.move m).tailer.settle w.fs w.now).ended = true ∧
        ((w.move m).tailer.settle w.fs w.now).queue = (w.move m).tailer.queue := hhalting.settle
  exact ⟨hmoved.stopped hs, count, hcount, hend, hkept.trans hqueue⟩

end World

/-- Stopping breaks the stream off, and does nothing else to it. Over files that stay as they
are, whatever the consumer does and whenever: what was given out is the beginning of what the tailer
gives out if nobody stops it. From a request on, whether it also closes the channel or not, nothing
more is put into the channel, the task ends, and once the lines there are taken nothing comes any
more. To stop is to request it and to let the engine take steps until its end. -/
theorem stopped_stream {fs : FileSystem} {path : Path} {config : Config} {t : Tailer} {w : World}
    (h : Tailer.start fs path config = .ok t) (hw : (World.start fs t).Reaches FilesStay w) :
    (∀ u, (World.start fs t).Reaches Undisturbed u →
      ∃ v, u.Reaches Undisturbed v ∧ w.taken ++ w.tailer.queue <+: v.taken) ∧
    (w.tailer.stopRequested = true → w.Stopped) ∧
    (∀ m, World.Cancels m → (w.move m).Stopped ∧ ∃ count,
      ((w.move m).works count).tailer = (w.move m).tailer.settle w.fs w.now ∧
      ((w.move m).tailer.settle w.fs w.now).ended = true ∧
      ((w.move m).tailer.settle w.fs w.now).queue = w.tailer.queue) ∧
    ∃ count, ((w.move .stop).works count).tailer = w.tailer.stop w.fs w.now ∧
      (w.tailer.stop w.fs w.now).ended = true ∧
      (w.tailer.stop w.fs w.now).queue = w.tailer.queue := by
  have hstart := World.follows_start h
  have hfollows := hw.invariant hstart fun u m hu hm => hu.move hm
  refine ⟨fun u hu => ?_, hfollows.stopped, fun m hm => hfollows.cancelled hm,
    (hfollows.cancelled (m := .stop) trivial).2⟩
  obtain ⟨count, hlines, -⟩ := hfollows.lines
  have hu' := hu.invariant (motive := fun u => World.Follows fs t.engine.bare u ∧
    u.tailer.stopRequested = false) ⟨hstart, (Tailer.outer_start h).1.1⟩ ?_
  · rw [hlines]
    exact hu'.1.reaches_lines hu'.2 .here count
  · rintro u m ⟨hu, hs⟩ hm
    refine ⟨hu.move hm.filesStay, ?_⟩
    cases m with
    | work => exact (Tailer.turn_step hu.sound.fits u.fs u.now).stopRequested_eq.trans hs
    | wait | notify | receive => exact hs
    | edit | stop | cleanup => cases hm

namespace Sample

/-- The engine has read the file and given out its first line when a stop is requested. -/
def halted : World := ((World.start files tailer).works 2).move .stop

end Sample

theorem stopped_stream_halted :
    Sample.halted.Stopped ∧ Sample.halted.tailer.queue.map Line.offset = [3] ∧
      (Sample.halted.move .cleanup).Stopped ∧
      ∀ u, (World.start Sample.files Sample.tailer).Reaches Undisturbed u →
        ∃ v, u.Reaches Undisturbed v ∧
          Sample.halted.taken ++ Sample.halted.tailer.queue <+: v.taken := by
  have hstart : (World.start Sample.files Sample.tailer).Reaches FilesStay
      (World.start Sample.files Sample.tailer) := .here
  have hreached := (World.reaches_works hstart (fun _ _ => nofun) 2).move (m := .stop)
    fun _ => nofun
  obtain ⟨hbegins, hstopped, hcancelled, -⟩ := stopped_stream Sample.start_eq hreached
  exact ⟨hstopped rfl, by decide, (hcancelled .cleanup trivial).1, hbegins⟩

end LogFollower
