import LogFollower.Proofs.Ending
import LogFollower.Proofs.Recovery
import LogFollower.Proofs.Shutdown
import LogFollower.Proofs.Stopping

/-!
# Stopping at once

A stop request can find a tailer at any point: before its task ran, while it waits for the path or
for a change, resting after an error, before a full channel, or ended. `World.EndsAtOnce` says what
comes of it: steps of the engine alone bring the task to its end, the clock stands, and nobody has
to take a line. `stop_is_prompt` says that this is so in every world and in every slot of a scenario
that can be reached, whatever happens to the files and to the channel after the request.

To its owner the task is one that waits for the stop request (`Tailer.lifecycle`). Because the
engine comes to its end at the request (`progress_stop`), joining the task takes no time and tells
of no error.
-/

namespace LogFollower

namespace World

/-- The task comes to its end by steps of its own: no time passes, no line is taken and none is put
into the channel. -/
structure EndsAtOnce (w : World) : Prop where
  works : ∃ count, (w.works count).tailer.ended = true ∧ (w.works count).now = w.now ∧
    (w.works count).taken = w.taken ∧ (w.works count).tailer.queue = w.tailer.queue
  settles : (w.tailer.settle w.fs w.now).ended = true

end World

namespace Tailer

variable {fs : FileSystem} {now : Nat} {t : Tailer}

/-! ## The task as its owner sees it -/

def progress (t : Tailer) : Progress := if t.ended then .finished false else .waiting

/-- The task with its stop request. -/
def lifecycle (t : Tailer) (now : Nat) : Lifecycle :=
  ⟨.waits, some t.progress, t.stopRequested, now⟩

/-- What a stop makes of the task is what it makes of one that waits for the request. -/
theorem progress_stop (hsound : t.Sound) (hpersists : t.engine.Persists) :
    (t.stop fs now).progress = t.progress.run .waits now true := by
  have hend : (t.stop fs now).ended = true := (stop_spec hsound hpersists).1
  have hleft : (t.stop fs now).progress = .finished false := if_pos hend
  rw [hleft]
  unfold progress
  cases t.ended <;> rfl

/-- Joining the task tells of no error, and the clock stands. -/
theorem stop_lifecycle (fs : FileSystem) (now : Nat) (hsound : t.Sound)
    (hpersists : t.engine.Persists) :
    (t.lifecycle now).stop = (.ok (), ⟨.waits, none, true, now⟩) := by
  have hend : (t.stop fs now).ended = true := (stop_spec hsound hpersists).1
  have hrun : t.progress.run .waits now true = .finished false :=
    (progress_stop hsound hpersists).symm.trans (if_pos hend)
  exact Lifecycle.stop_of_finished (l := t.lifecycle now) rfl hrun

/-! ## Runs after the request -/

/-- What a tailer endures, so that a stop can end it. -/
def Stoppable (_ : FileSystem) (_ : Nat) (t : Tailer) : Prop := t.Sound ∧ t.engine.Persists

theorem stoppable_enduring : Scenario.Enduring Stoppable where
  lasting := fun fs =>
    { step := fun now t h => by
        have ht := turn_step h.1.fits fs now
        exact ⟨h.1.turn ht, ht.persists h.2⟩
      later := fun _ _ _ _ h => h
      wake := fun _ _ _ h _ => h }
  files := fun _ _ _ _ h => h
  outer := fun _ _ _ _ _ _ h => ⟨{ h.1 with }, h.2⟩
  start := fun _ _ _ _ _ h => ⟨sound_start h, persists_start h⟩

theorem ended_settle (h : Stoppable fs now t) (hs : t.stopRequested = true) :
    (t.settle fs now).ended = true := by
  have hhalting : Halting now t := ⟨h.1, h.2, hs⟩
  exact hhalting.settle.1

theorem ended_runTo (h : Stoppable fs now t) (hs : t.stopRequested = true) (target : Nat) :
    t.runTo fs now target = t.settle fs now := by
  have hend := ended_settle h hs
  have hasleep : (t.settle fs now).wakeTime = none := by
    unfold wakeTime
    rw [show (t.settle fs now).engine.phase = .ended from of_decide_eq_true hend]
  unfold runTo
  cases target - now with
  | zero => rfl
  | succ fuel => rw [runWithin_succ, hasleep]

end Tailer

namespace World

variable {w v : World}

theorem Reaches.stoppable (h : w.Reaches anyMove v)
    (hw : Tailer.Stoppable w.fs w.now w.tailer) : Tailer.Stoppable v.fs v.now v.tailer := by
  refine h.invariant (motive := fun u => Tailer.Stoppable u.fs u.now u.tailer) hw ?_
  rintro u m hu -
  cases m with
  | work =>
    have ht := Tailer.turn_step hu.1.fits u.fs u.now
    exact ⟨hu.1.turn ht, ht.persists hu.2⟩
  | edit | wait => exact hu
  | notify | receive | stop | cleanup => exact ⟨{ hu.1 with }, hu.2⟩

theorem Reaches.stopRequested (h : w.Reaches anyMove v)
    (hw : Tailer.Stoppable w.fs w.now w.tailer) (hs : w.tailer.stopRequested = true) :
    v.tailer.stopRequested = true := by
  induction h with
  | here => exact hs
  | @move u m hreach _ ih =>
    cases m with
    | work =>
      have hsound := (hreach.stoppable hw).1
      exact (Tailer.turn_step hsound.fits u.fs u.now).stopRequested_eq.trans ih
    | edit | wait | notify | receive => exact ih
    | stop | cleanup => rfl

theorem queue_works (h : Tailer.Stoppable w.fs w.now w.tailer)
    (hs : w.tailer.stopRequested = true) (count : Nat) :
    (w.works count).tailer.queue = w.tailer.queue := by
  induction count generalizing w with
  | zero => rfl
  | succ count ih =>
    have ht := Tailer.turn_step h.1.fits w.fs w.now
    have hnext : Tailer.Stoppable w.fs w.now (w.tailer.step w.fs w.now) :=
      ⟨h.1.turn ht, ht.persists h.2⟩
    exact (ih (w := w.move .work) hnext (ht.stopRequested_eq.trans hs)).trans (ht.queue_eq hs)

theorem endsAtOnce (h : Tailer.Stoppable w.fs w.now w.tailer)
    (hs : w.tailer.stopRequested = true) : w.EndsAtOnce := by
  have hend := Tailer.ended_settle h hs
  obtain ⟨count, hcount⟩ := w.exists_works (w.tailer.patience w.fs)
  obtain ⟨-, hnow, htaken⟩ := w.frame_works count
  exact ⟨⟨count, by rw [hcount]; exact hend, hnow, htaken, queue_works h hs count⟩, hend⟩

end World

namespace Scenario

variable {s : Scenario} {i : Nat} {t : Tailer}

theorem tailer?_modify (h : s.tailer? i = some t) (f : Tailer → Tailer) :
    (s.modify i f).tailer? i = some (f t) := by
  obtain ⟨slot, hslot, -⟩ := Option.bind_eq_some_iff.1 h
  have hput : (s.modify i f).slots[i]? = some ⟨some (f t), slot.last⟩ := by
    unfold modify put
    rw [List.getElem?_modify, hslot, h]
    simp
  unfold tailer?
  rw [hput]
  rfl

theorem stopped_iff (h : s.tailer? i = some t) : s.stopped i = t.ended := by
  unfold stopped
  rw [h]
  rfl

end Scenario

/-- **A stop is prompt**, wherever it finds the tailer. After a request, in every world that comes
of it, the task ends at once. To stop is to request it and to wait for the end: it comes at the
moment of the request, and joining the task tells of no error. In a scenario the task has ended once
the request was made and a moment has passed, and as soon as the tailer was stopped. -/
theorem stop_is_prompt :
    (∀ fs path config t w, Tailer.start fs path config = .ok t →
      (World.start fs t).Reaches World.anyMove w →
      (∀ m, World.Cancels m → ∀ v, (w.move m).Reaches World.anyMove v → v.EndsAtOnce) ∧
      (w.tailer.stop w.fs w.now).ended = true ∧
      (w.tailer.stop w.fs w.now).progress = w.tailer.progress.run .waits w.now true ∧
      (w.tailer.lifecycle w.now).stop = (.ok (), ⟨.waits, none, true, w.now⟩)) ∧
    ∀ s : Scenario, s.Reached → ∀ i t, s.tailer? i = some t →
      (s.cleanup i).stopped i = true ∧ (s.stop i).stopped i = true ∧ (s.stop i).now = s.now := by
  refine ⟨fun fs path config t w h hw => ?_, fun s hs i t ht => ?_⟩
  · have hstart : Tailer.Stoppable fs 0 t := ⟨Tailer.sound_start h, Tailer.persists_start h⟩
    have hstoppable := hw.stoppable hstart
    refine ⟨fun m hm v hv => ?_, (Tailer.stop_spec hstoppable.1 hstoppable.2).1,
      Tailer.progress_stop hstoppable.1 hstoppable.2,
      Tailer.stop_lifecycle w.fs w.now hstoppable.1 hstoppable.2⟩
    have hasked : Tailer.Stoppable (w.move m).fs (w.move m).now (w.move m).tailer ∧
        (w.move m).tailer.stopRequested = true := by
      cases m with
      | stop | cleanup => exact ⟨⟨{ hstoppable.1 with }, hstoppable.2⟩, rfl⟩
      | _ => exact hm.elim
    exact World.endsAtOnce (hv.stoppable hasked.1) (hv.stopRequested hasked.1 hasked.2)
  · have hstoppable : Tailer.Stoppable s.fs s.now t :=
      hs.holds Tailer.stoppable_enduring i t ht
    refine ⟨?_, ?_, rfl⟩
    · have hcleanup : Tailer.Stoppable s.fs s.now t.cleanup :=
        Tailer.stoppable_enduring.outer _ _ _ t.queue true true hstoppable
      have htailer : (s.cleanup i).tailer? i =
          some (t.cleanup.runTo s.fs s.now (s.now + 1)) := by
        show ((s.modify i Tailer.cleanup).pass 1).tailer? i = _
        rw [Scenario.tailer?_pass, Scenario.tailer?_modify ht]
        rfl
      rw [Scenario.stopped_iff htailer, Tailer.ended_runTo hcleanup rfl]
      exact Tailer.ended_settle hcleanup rfl
    · show (s.modify i (Tailer.stop s.fs s.now)).stopped i = true
      rw [Scenario.stopped_iff (Scenario.tailer?_modify ht _)]
      exact (Tailer.stop_spec hstoppable.1 hstoppable.2).1

namespace Sample

/-- A directory was tried to be read, and the engine rests. -/
def resting : World := (World.start folder reader).works 3

end Sample

theorem stop_is_prompt_resting :
    Sample.resting.tailer.engine.phase = .asleep 250 false (.read .catchUp) ∧
      (Sample.resting.move .cleanup).EndsAtOnce ∧
      (Sample.displaced.stop 0).stopped 0 = true := by
  obtain ⟨hworlds, hslots⟩ := stop_is_prompt
  have hstart : (World.start Sample.folder Sample.reader).Reaches World.anyMove
      (World.start Sample.folder Sample.reader) := .here
  have hresting := World.reaches_works hstart (fun _ => trivial) 3
  refine ⟨by decide, ?_, ?_⟩
  · exact (hworlds _ _ _ _ _ Sample.start_reader hresting).1 .cleanup trivial _ .here
  · exact (hslots _ Sample.reached_displaced 0 _ Sample.tailer?_displaced).2.1

end LogFollower
