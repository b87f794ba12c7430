import LogFollower.Proofs.Ledger
import LogFollower.Proofs.Splitter.Chunks

/-!
# Where the engine stands in its file

How far a file was read is kept twice: as the position of the handle, and as what the splitter has
consumed. Opening, reading, going back to the beginning and giving up the last line each change
both. `handle_meets_splitter` says that they agree wherever the engine works on a file, whatever
was done to the files and to the tailer before, and that what the splitter holds is less than a
line.

This comes out of the ledger: the splitter is the one that took what was read since the handle was
placed (`Section.Open.cutting`), so what it holds was not cut.
-/

namespace LogFollower

/-- An engine with a file open, whose handle and splitter agree. -/
structure Engine.Meets (e : Engine) (hd : Session) : Prop where
  opened : e.source = .opened hd
  /-- The identity is that of the object behind the handle. -/
  identity : hd.identifier = FileSystem.identify hd.object
  position : hd.position = e.splitter.consumed
  committed_le : e.splitter.committed ≤ e.splitter.consumed
  held : e.splitter.consumed - e.splitter.committed = e.splitter.pending.length
  /-- What is held is less than a line. -/
  unended : lineFeed ∉ e.splitter.pending
  bounded : ∀ m, e.config.maxLineSize = some m → e.splitter.pending.length ≤ m

theorem Section.Open.settled {s : Section} {limit : Option Nat} {e : Engine} {flushed : Bool}
    (h : s.Open limit e flushed) (hl : limit ≠ some 0) : e.splitter.Settled := by
  rw [h.cutting]
  cases flushed with
  | true => exact Splitter.settled_start _ _
  | false => exact Splitter.settled_after hl _ _

namespace World

open Tailer

variable {w v : World}

/-- Where a file is needed, it is open, and the splitter stands where the handle does. -/
theorem Accounted.meets (h : w.Accounted) {stage : Stage}
    (hst : w.tailer.engine.phase.stage? = some stage) (hs : stage.seeks = false) :
    ∃ hd, w.tailer.engine.Meets hd := by
  obtain ⟨hd, ho⟩ := opened_of_fits h.sound.fits hst hs
  obtain ⟨s, past, flushed, -, -, hopen⟩ := h.ledger.open ho
  obtain ⟨hfeed, hsize⟩ := Greedy.not_mem_of_cut (hopen.settled h.sound.limit_ne_zero)
  refine ⟨hd, ho, h.sound.identity hd ho, h.sound.position hd ho, Nat.le_add_right _ _, ?_, hfeed,
    fun m hm => hsize m (h.sound.limit.trans hm)⟩
  rw [Splitter.consumed, Nat.add_sub_cancel_left, Splitter.length_pending]

theorem Accounted.setup_move (h : w.Accounted) (m : Move) :
    (w.move m).tailer.engine.config = w.tailer.engine.config ∧
      (w.move m).tailer.engine.path = w.tailer.engine.path := by
  cases m with
  | work =>
    have ht := turn_step h.sound.fits w.fs w.now
    exact ⟨ht.config_eq, ht.path_eq⟩
  | _ => exact ⟨rfl, rfl⟩

theorem Reaches.setup_eq {allowed : World → Move → Prop} (h : Reaches allowed w v)
    (hw : w.Accounted) : v.tailer.engine.config = w.tailer.engine.config ∧
      v.tailer.engine.path = w.tailer.engine.path := by
  induction h with
  | here => exact ⟨rfl, rfl⟩
  | @move u m hu _ ih =>
    obtain ⟨hc, hp⟩ := (hu.accounted hw).setup_move m
    exact ⟨hc.trans ih.1, hp.trans ih.2⟩

end World

/-- A look with a file open finds it gone just when the path says so. -/
theorem Engine.check_eq_drain_iff {e : Engine} {hd : Session} (h : e.source = .opened hd)
    (fs : FileSystem) (now : Nat) :
    (e.check fs now).phase = .ready (.read .drain) ↔
      classify (fs.look e.path) hd.identifier e.splitter.consumed = .ok .deleted := by
  unfold Engine.check
  rw [h]
  cases hc : classify (fs.look e.path) hd.identifier e.splitter.consumed with
  | error error => simp [hc, Engine.report]
  | ok change => cases change <;> simp [hc, Engine.await, Engine.goto]

/-- The handle and the splitter agree wherever the engine is about to read, to wait for a change
or to give up the last line, whatever happened before. A look finds the file gone only if the path
does not lead to it; it is never for want of a file to compare with. -/
theorem handle_meets_splitter {fs : FileSystem} {path : Path} {config : Config} {t : Tailer}
    (h : Tailer.start fs path config = .ok t) {w : World}
    (hw : (World.start fs t).Reaches World.anyMove w) {stage : Stage}
    (hst : w.tailer.engine.phase.stage? = some stage) (hs : stage.seeks = false) :
    ∃ hd, w.tailer.engine.Meets hd ∧ w.tailer.engine.config = config ∧
      ∀ fs' now, (w.tailer.engine.check fs' now).phase = .ready (.read .drain) ↔
        classify (fs'.look path) hd.identifier w.tailer.engine.splitter.consumed =
          .ok .deleted := by
  have hstart := World.accounted_start h
  obtain ⟨hd, hmeets⟩ := (hw.accounted hstart).meets hst hs
  obtain ⟨hconfig, hpath⟩ := hw.setup_eq hstart
  have hpath' : w.tailer.engine.path = path := hpath.trans (Tailer.engine_path_start h)
  refine ⟨hd, hmeets, hconfig.trans (Tailer.engine_config_start h), fun fs' now => ?_⟩
  rw [← hpath']
  exact Engine.check_eq_drain_iff hmeets.opened fs' now

theorem handle_meets_splitter_replaced :
    Sample.replaced.tailer.engine.splitter.pending = [0x79] ∧
      ∃ hd, Sample.replaced.tailer.engine.Meets hd ∧
        Sample.replaced.tailer.engine.config = Sample.config ∧
        ∀ fs' now, (Sample.replaced.tailer.engine.check fs' now).phase = .ready (.read .drain) ↔
          classify (fs'.look Sample.name) hd.identifier
            Sample.replaced.tailer.engine.splitter.consumed = .ok .deleted := by
  have hstart : (World.start Sample.files Sample.tailer).Reaches World.anyMove
      (World.start Sample.files Sample.tailer) := .here
  have hfirst := World.reaches_works hstart (fun _ => trivial) 3
  have hreached := (hfirst.move (m := .edit (.rename Sample.name Sample.other)) trivial).move
    (m := .edit (.append Sample.name [0x7A, lineFeed])) trivial
  have hstage : Sample.replaced.tailer.engine.phase.stage? = some (.read .catchUp) := by decide
  exact ⟨by decide, handle_meets_splitter Sample.start_eq hreached hstage rfl⟩

end LogFollower
