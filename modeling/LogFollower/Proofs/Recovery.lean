import LogFollower.Proofs.Recovery.Poll
import LogFollower.Proofs.World

/-!
# Recovery

Whatever was done to the files and to the tailer: once the path leads to a regular file, and the
files stay as they are, the tailer has that file open after a few polls and has read it to its end.
There is one exception. A directory can be opened but not read, and the engine tries the read again
without a look at the path. `recovers_iff` says that a tailer recovers just when it has not opened a
directory; `stuck_polls` that it never lets go of one.
-/

namespace LogFollower

open FileSystem

namespace Tailer

variable {fs : FileSystem} {now : Nat} {t : Tailer} {hd : Session}

/-- A tailer that is listened to, goes on, and looks at its path every second at least. -/
structure Pursues (t : Tailer) : Prop where
  alive : t.ended = false
  wanted : t.stopRequested = false
  listened : t.closed = false
  follow : t.engine.config.follow = true
  reopen : t.engine.config.reopen = true
  interval : t.engine.config.pollInterval ≤ 1000

def OnDirectory (fs : FileSystem) (t : Tailer) : Prop :=
  ∃ hd entries, t.engine.source = .opened hd ∧ fs.entries? hd.object = some entries

theorem running_of_pursues (h : t.Pursues) (hk : Kept fs now t) : t.Running :=
  ⟨by simpa [ended] using h.alive, h.wanted, h.listened, hk.calm.awaken_eq⟩

/-- A tailer that is not on a directory tracks the file that its path leads to. -/
theorem tracks_of_pursues {n : Nat} (h : t.Pursues) (hk : Kept fs now t)
    (hfind : fs.find t.engine.path = .ok n) (hreg : fs.kind? n = some .regular)
    (hdir : ¬ t.OnDirectory fs) : Tracks fs n now t where
  kept := hk
  running := running_of_pursues h hk
  follow := h.follow
  reopen := h.reopen
  find := hfind
  regular := hreg
  readable := by
    intro hd hs
    obtain hfile | ⟨hdir', -⟩ := hk.file hd hs
    · exact hfile
    · obtain ⟨entries, he⟩ := kind?_directory_iff.1 hdir'
      exact absurd ⟨hd, entries, hs, he⟩ hdir

/-- A directory is open, and nothing but reading it is tried. -/
structure Stuck (fs : FileSystem) (hd : Session) (now : Nat) (t : Tailer) : Prop where
  kept : Kept fs now t
  source : t.engine.source = .opened hd
  stage : ∀ stage, t.engine.phase.stage? = some stage → stage = .read .catchUp

theorem stuck_of_onDirectory (hk : Kept fs now t) (h : t.OnDirectory fs) :
    ∃ hd, fs.kind? hd.object = some .directory ∧ Stuck fs hd now t := by
  obtain ⟨hd, entries, hs, he⟩ := h
  have hdir := kind?_directory_iff.2 ⟨entries, he⟩
  obtain hreg | ⟨-, hstage⟩ := hk.file hd hs
  · rw [hdir] at hreg; cases hreg
  · exact ⟨hd, hdir, hk, hs, hstage⟩

theorem stuck_lasting (hdir : fs.kind? hd.object = some .directory) :
    Lasting fs (Stuck fs hd) where
  step := by
    intro now t h
    have hturn := turn_step h.kept.sound.fits fs now
    obtain ⟨hs, hstage⟩ := stage_of_directory h.stage h.source hdir hturn
    exact ⟨h.kept.turn hturn, hs, hstage⟩
  later := fun now now' t hle h => { h with kept := kept_lasting.later now now' t hle h.kept }
  wake := fun now t due h hw => { h with kept := kept_lasting.wake now t due h.kept hw }

end Tailer

namespace Scenario

open Tailer

variable {s : Scenario} {i n : Nat} {t : Tailer}

def polls (i : Nat) : Nat → Scenario → Scenario
  | 0, s => s
  | k + 1, s => polls i k (s.poll i 1).2.2

/-- The tailer in a slot has an object open and has consumed as many bytes as it has. -/
def CaughtUp (s : Scenario) (i n : Nat) : Prop :=
  ∃ t hd, s.tailer? i = some t ∧ t.engine.source = .opened hd ∧
    hd.identifier = FileSystem.identify n ∧ t.engine.splitter.consumed = s.fs.length n

theorem fs_polls (i k : Nat) (s : Scenario) : (s.polls i k).fs = s.fs := by
  induction k generalizing s with
  | zero => rfl
  | succ k ih => exact (ih _).trans (fs_poll s i 1)

theorem keeping_polls {fs : FileSystem} {Q : Tailer → Prop} (hQ : Stays fs n Q) (hs : s.fs = fs)
    (h : ∃ t, s.tailer? i = some t ∧ Keeping fs n Q s.now t) (k : Nat) :
    ∃ t, (s.polls i k).tailer? i = some t ∧ Keeping fs n Q (s.polls i k).now t := by
  induction k generalizing s with
  | zero => exact h
  | succ k ih => exact ih ((fs_poll s i 1).trans hs) (keeping_poll hQ hs h 1)

/-- A directory that is open stays open. -/
theorem stuck_polls {hd : Session} (hdir : s.fs.kind? hd.object = some .directory)
    (h : s.Holds (Stuck s.fs hd) i) (k : Nat) : (s.polls i k).Holds (Stuck s.fs hd) i := by
  have outer {fs : FileSystem} : ∀ now t queue, Stuck fs hd now t →
      Stuck fs hd now { t with queue } :=
    fun now t queue hk => ⟨hk.kept.outer queue t.closed t.stopRequested, hk.source, hk.stage⟩
  induction k generalizing s with
  | zero => exact h
  | succ k ih =>
    have hnext := h.poll (stuck_lasting hdir) outer i 1
    rw [← fs_poll s i 1] at hdir hnext ⊢
    exact ih hdir hnext

theorem caughtUp_of_caught (hs : s.tailer? i = some t)
    (ht : Keeping s.fs n (Caught s.fs n) s.now t) : s.CaughtUp i n := by
  obtain ⟨htracks, hd, stage, hsource, ho, hpos, -, -⟩ := ht
  refine ⟨t, hd, hs, hsource, ?_, ?_⟩
  · rw [htracks.kept.sound.identity hd hsource, ho]
  · rw [← htracks.kept.sound.position hd hsource, hpos]

/-- A tailer recovers just when it has not opened a directory. Whatever led to it, four polls
after the path leads to a regular file, that file is open and was read to its end. -/
theorem recovers_iff {bytes : Bytes} (h : s.Reached) (ht : s.tailer? i = some t) (hp : t.Pursues)
    (hfind : s.fs.find t.engine.path = .ok n) (hb : s.fs.bytes? n = some bytes) :
    (s.polls i 4).CaughtUp i n ↔ ¬ t.OnDirectory s.fs := by
  have hk := h.kept i t ht
  have hreg := kind?_regular_iff.2 ⟨bytes, hb⟩
  constructor
  · rintro ⟨t', hd', ht', hs', hid, -⟩ hdir
    obtain ⟨hd, hdir', hstuck⟩ := stuck_of_onDirectory hk hdir
    have hholds : s.Holds (Stuck s.fs hd) i := by
      intro t₀ ht₀
      rwa [← Option.some.inj (ht.symm.trans ht₀)]
    have hstuck' := stuck_polls hdir' hholds 4 t' ht'
    obtain rfl := Source.opened.inj (hs'.symm.trans hstuck'.source)
    rw [hstuck'.kept.sound.identity hd' hs'] at hid
    rw [identify_inj hid, hreg] at hdir'
    cases hdir'
  · intro hdir
    have htracks := tracks_of_pursues hp hk hfind hreg hdir
    have hcaught := caught_polls rfl ht htracks hp.interval
    have hfs := (fs_poll (s.poll i 1).2.2 i 1).trans (fs_poll s i 1)
    obtain ⟨t', ht', hkeep⟩ := keeping_polls stays_caught hfs hcaught 2
    have hfour : s.polls i 4 = polls i 2 ((s.poll i 1).2.2.poll i 1).2.2 := rfl
    rw [← hfour] at ht' hkeep
    rw [← fs_polls i 4 s] at hkeep
    exact caughtUp_of_caught ht' hkeep

end Scenario

/-! ## Two scripts -/

namespace Sample

/-- A file is followed, and another takes its place. -/
def displaced : Scenario :=
  (((Scenario.start files).perform (.launch 0 name config)).perform
    (.edit (.rename name other))).perform (.edit (.append name [0x7A, lineFeed]))

/-- A directory is followed, and a file takes its place. -/
def obstructed : Scenario :=
  (((Scenario.start (FileSystem.empty.edit (.makeDirectory name))).perform
    (.launch 0 name { Config.followName with poll := true, pollInterval := 1000 })).perform
    (.edit (.removeDirectory name))).perform (.edit (.append name [0x7A, lineFeed]))

def waiting : Tailer := tailer.runTo files 0 1

theorem reached_displaced : displaced.Reached :=
  (((Scenario.Reached.start files).perform _).perform _).perform _

theorem reached_obstructed : obstructed.Reached :=
  (((Scenario.Reached.start _).perform _).perform _).perform _

theorem tailer?_displaced : displaced.tailer? 0 = some waiting := by decide +kernel

theorem pursues_waiting : waiting.Pursues := by
  constructor <;> decide +kernel

end Sample

theorem recovers_iff_displaced : (Sample.displaced.polls 0 4).CaughtUp 0 2 := by
  have hbytes : Sample.displaced.fs.bytes? 2 = some [0x7A, lineFeed] := by decide +kernel
  refine (Scenario.recovers_iff Sample.reached_displaced Sample.tailer?_displaced
    Sample.pursues_waiting (by decide +kernel) hbytes).2 ?_
  rintro ⟨hd, entries, hs, he⟩
  have hsource : Sample.waiting.engine.source = .opened ⟨1, FileSystem.identify 1, 4⟩ := by
    decide +kernel
  obtain rfl := Source.opened.inj (hs.symm.trans hsource)
  have hfile : Sample.displaced.fs.entries? 1 = none := by decide +kernel
  cases he.symm.trans hfile

/-- A tailer that has opened a directory does not recover, even though the directory is gone and
a file is in its place. -/
theorem not_caughtUp_obstructed :
    Sample.obstructed.Reached ∧
      (∃ t, Sample.obstructed.tailer? 0 = some t ∧ t.Pursues ∧
        Sample.obstructed.fs.find t.engine.path = .ok 2) ∧
      Sample.obstructed.fs.bytes? 2 = some [0x7A, lineFeed] ∧
      ¬ (Sample.obstructed.polls 0 4).CaughtUp 0 2 := by
  refine ⟨Sample.reached_obstructed, ⟨_, rfl, ?_, by decide +kernel⟩, by decide +kernel, ?_⟩
  · constructor <;> decide +kernel
  · have hsource : ((Sample.obstructed.polls 0 4).tailer? 0).map (·.engine.source) =
        some (.opened ⟨1, FileSystem.identify 1, 4096⟩) := by decide +kernel
    rintro ⟨t, hd, ht, hs, hid, -⟩
    rw [ht, Option.map_some, hs] at hsource
    obtain rfl := Source.opened.inj (Option.some.inj hsource)
    exact absurd (FileSystem.identify_inj hid) (by decide)

end LogFollower
