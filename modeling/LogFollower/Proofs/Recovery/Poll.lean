import LogFollower.Proofs.Recovery.Cost
import LogFollower.Proofs.Script

/-!
# What a poll brings about

While a tailer tracks its file, `drain` ends because nothing comes any more and not because its
rounds are over: the tailer is asleep then (`drained_poll`). What the tailer slept for after the
first poll is over in the second, and from then on no error holds it up. So the second poll ends
with the file at the path read to its end (`caught_polls`), and every later one keeps it so
(`stays_caught`).
-/

namespace LogFollower

open FileSystem

namespace Tailer

variable {fs : FileSystem} {n now : Nat} {t t' : Tailer}

/-- What a tailer keeps while it tracks its file, whatever is taken from the channel. -/
structure Stays (fs : FileSystem) (n : Nat) (Q : Tailer → Prop) : Prop where
  turn : ∀ {now : Nat} {t t' : Tailer}, Tracks fs n now t → Turn fs now t t' → Q t → Q t'
  taken : ∀ t, Q t → Q { t with queue := [] }

/-- A tailer that tracks its file and keeps something else. -/
def Keeping (fs : FileSystem) (n : Nat) (Q : Tailer → Prop) (now : Nat) (t : Tailer) : Prop :=
  Tracks fs n now t ∧ Q t

namespace Stays

variable {Q : Tailer → Prop}

theorem lasting (hQ : Stays fs n Q) : Lasting fs (Keeping fs n Q) := by
  have hT : Lasting fs (Tracks fs n) :=
    { step := fun now t h => h.turn (turn_step h.kept.sound.fits fs now)
      later := fun now now' t hle h => { h with kept := kept_lasting.later now now' t hle h.kept }
      wake := fun now t due h hw => { h with kept := kept_lasting.wake now t due h.kept hw } }
  exact hT.and fun now t h => hQ.turn h (turn_step h.kept.sound.fits fs now)

theorem paying : Paying fs (Keeping fs n Q) (cost fs n) where
  pays := by
    intro now t h hb
    obtain ⟨hb', -⟩ | hlt := (h.1.advance (turn_step h.1.kept.sound.fits fs now)).cost
    · rw [hb] at hb'; cases hb'
    · exact hlt
  afford := fun now t _ => cost_le_patience fs n now t

theorem prospect_runTo_le (hQ : Stays fs n Q) {target : Nat} (hnow : now ≤ target)
    (h : Keeping fs n Q now t) :
    (t.runTo fs now target).prospect fs n ≤ t.prospect fs n := by
  have hlast : Lasting fs fun now t' =>
      Keeping fs n Q now t' ∧ t'.prospect fs n ≤ t.prospect fs n :=
    hQ.lasting.and fun now t' h' hle =>
      (h'.1.advance (turn_step h'.1.kept.sound.fits fs now)).prospect.trans hle
  exact (runTo_of hlast hnow ⟨h, le_rfl⟩).2

theorem rested (hQ : Stays fs n Q) {target : Nat} (hnow : now ≤ target)
    (h : Keeping fs n Q now t) : (t.runTo fs now target).Rested target :=
  rested_runTo hQ.lasting paying (fun _ _ h => h.1.running) hnow h

theorem empty (hQ : Stays fs n Q) (h : Keeping fs n Q now t) :
    Keeping fs n Q now { t with queue := [] } where
  left := { h.1 with
    kept := h.1.kept.outer [] t.closed t.stopRequested
    running := ⟨h.1.running.alive, h.1.running.wanted, h.1.running.listened, h.1.running.calm⟩ }
  right := hQ.taken t h.2

end Stays

theorem stays_caught : Stays fs n (Caught fs n) where
  turn := fun ht h hc => ht.caught_turn h hc
  taken := fun _ hc => hc

/-- What was slept for comes to its end, and then nothing holds the tailer up. -/
theorem stays_awaking (due : Nat) (watching : Bool) (next : Stage) :
    Stays fs n fun t =>
      t.engine.phase = .asleep due watching next ∨ t.Fresh ∨ t.Caught fs n where
  turn := by
    intro now t t' ht h hq
    obtain hp | hfresh | hcaught := hq
    · obtain rfl | hfresh := ht.asleep_turn hp h
      · exact .inl hp
      · exact .inr (.inl hfresh)
    · exact .inr ((ht.advance h).fresh hfresh)
    · exact .inr (.inr (ht.caught_turn h hcaught))
  taken := fun _ hq => hq

def Dozes (target : Nat) (t : Tailer) : Prop :=
  ∃ due watching next, t.engine.phase = .asleep due watching next ∧ target ≤ due

theorem Tracks.dozes (ht : Tracks fs n now t) {target : Nat} (h : t.Rested target)
    (hq : t.queue = []) : t.Dozes target := by
  obtain hdoze | ⟨line, lines, rest, next, -, hfull⟩ := h
  · exact hdoze
  · have := ht.kept.sound.capacity
    rw [hq, List.length_nil] at hfull
    omega

end Tailer

namespace Scenario

open Tailer

variable {s s' : Scenario} {fs : FileSystem} {n i : Nat} {Q : Tailer → Prop} {t : Tailer}

/-- Lines were taken until none were left. The tailer was asleep then, and a millisecond has passed
since. -/
structure Drained (fs : FileSystem) (n i : Nat) (Q : Tailer → Prop) (start : Nat) (s : Scenario)
    (time : Nat) (t : Tailer) : Prop where
  later : start ≤ time
  keeps : Keeping fs n Q time t
  dozes : t.Dozes time
  files : s.fs = fs
  now : s.now = time + 1
  tailer : s.tailer? i = some (t.runTo fs time (time + 1))

theorem receive_eq (h : s.tailer? i = some t) (hr : t.Running) :
    (s.receive i none).1 = t.queue ∧ (s.receive i none).2.1 = false ∧
      (s.receive i none).2.2.now = s.now + 1 ∧
      (s.receive i none).2.2.tailer? i =
        some (Tailer.runTo s.fs s.now (s.now + 1) { t with queue := [] }) := by
  obtain ⟨hlines, hended, htailer⟩ := receive_tailer h none
  have hall : (t.receive none).2.2 = { t with queue := [] } := by
    simp [Tailer.receive, List.drop_eq_nil_of_le]
  refine ⟨?_, ?_, now_receive s i none, ?_⟩
  · rw [hlines]
    simp [Tailer.receive]
  · rw [hended]
    simp [Tailer.receive, Tailer.ended, hr.alive, hr.listened]
  · rw [htailer, hall]

theorem drained_drainWithin (hQ : Stays fs n Q) (rounds : Nat) (taken : List Line)
    (hs : s.fs = fs) (h : s.tailer? i = some t) (ht : Keeping fs n Q s.now t)
    (hrest : t.Rested s.now) (hrounds : t.prospect fs n < rounds) :
    ∃ time t', Drained fs n i Q s.now (drainWithin i rounds taken s).2.2 time t' := by
  induction rounds generalizing s t taken with
  | zero => omega
  | succ rounds ih =>
    obtain ⟨hlines, hended, hnow, htailer⟩ := receive_eq h ht.1.running
    have hfs := (fs_receive s i none).trans hs
    rw [hs] at htailer
    unfold drainWithin
    dsimp only
    rw [hlines, hended]
    by_cases hq : t.queue = []
    · rw [if_pos (.inl hq)]
      refine ⟨s.now, t, le_rfl, ht, ht.1.dozes hrest hq, hfs, hnow, ?_⟩
      rw [htailer, ← hq]
    · rw [if_neg (by simp [hq])]
      have hle : s.now ≤ s.now + 1 := Nat.le_succ _
      have hempty := hQ.empty ht
      have htaken : Tailer.prospect fs n { t with queue := [] } + t.queue.length =
          t.prospect fs n := by
        unfold Tailer.prospect
        simp only [List.length_nil]
        omega
      have hpos := List.length_pos_iff.2 hq
      have hprospect := hQ.prospect_runTo_le hle hempty
      -- the lines just taken are not to come any more, so one round less is enough
      have hnext := runTo_of hQ.lasting hle hempty
      have hrest' := hQ.rested hle hempty
      obtain ⟨time, t', hd⟩ := ih (taken ++ t.queue) hfs htailer (by rwa [hnow]) (by rwa [hnow])
        (by omega)
      exact ⟨time, t', { hd with later := by have := hd.later; omega }⟩

/-- A poll ends with a tailer asleep that has nothing to give out. -/
theorem drained_poll (hQ : Stays fs n Q) (hs : s.fs = fs) (h : s.tailer? i = some t)
    (ht : Keeping fs n Q s.now t) (seconds : Nat) :
    ∃ time t', Drained fs n i Q (s.now + seconds * 1000) (s.poll i seconds).2.2 time t' := by
  have hle : s.now ≤ s.now + seconds * 1000 := Nat.le_add_right _ _
  have htick : (s.tick seconds).tailer? i =
      some (t.runTo fs s.now (s.now + seconds * 1000)) := by
    unfold tick
    rw [tailer?_pass, h, hs]
    rfl
  refine drained_drainWithin (s := s.tick seconds) hQ _ [] hs htick
    (runTo_of hQ.lasting hle ht) (hQ.rested hle ht) ?_
  unfold rounds
  rw [htick]
  have hbound := prospect_le fs n (t.runTo fs s.now (s.now + seconds * 1000))
  have hsize : (s.tick seconds).fs.size = fs.size := by rw [← hs]; rfl
  rw [hsize]
  simp only [Option.elim_some]
  omega

theorem keeping_poll (hQ : Stays fs n Q) (hs : s.fs = fs)
    (h : ∃ t, s.tailer? i = some t ∧ Keeping fs n Q s.now t) (seconds : Nat) :
    ∃ t, (s.poll i seconds).2.2.tailer? i = some t ∧
      Keeping fs n Q (s.poll i seconds).2.2.now t := by
  obtain ⟨t, h, ht⟩ := h
  obtain ⟨time, t', hd⟩ := drained_poll hQ hs h ht seconds
  refine ⟨_, hd.tailer, ?_⟩
  rw [hd.now]
  exact runTo_of hQ.lasting (Nat.le_succ _) hd.keeps

/-- After two polls, the file at the path is open and was read to its end. -/
theorem caught_polls (hs : s.fs = fs) (h : s.tailer? i = some t) (ht : Tracks fs n s.now t)
    (hpoll : t.engine.config.pollInterval ≤ 1000) :
    ∃ t', (((s.poll i 1).2.2).poll i 1).2.2.tailer? i = some t' ∧
      Keeping fs n (Caught fs n) (((s.poll i 1).2.2).poll i 1).2.2.now t' := by
  have hconfig : Stays fs n fun t => t.engine.config.pollInterval ≤ 1000 :=
    ⟨fun _ h hle => h.config_eq ▸ hle, fun _ hle => hle⟩
  obtain ⟨time, t₁, hd⟩ := drained_poll hconfig hs h ⟨ht, hpoll⟩ 1
  obtain ⟨due, watching, next, hp, -⟩ := hd.dozes
  -- What is slept for now began before `time`, so the next tick is longer.
  have hdue : due ≤ time + 1000 := by
    have hk := hd.keeps.1.kept.due due (by unfold wakeTime; rw [hp])
    have hle : max t₁.engine.config.pollInterval Watcher.recheck ≤ 1000 :=
      max_le hd.keeps.2 (by decide)
    omega
  have hawaking : Stays fs n _ := stays_awaking due watching next
  have hkeep := runTo_of hawaking.lasting (Nat.le_succ time) ⟨hd.keeps.1, .inl hp⟩
  obtain ⟨time', t₂, hd'⟩ := drained_poll hawaking hd.files hd.tailer (by rwa [hd.now]) 1
  have hlater := hd'.later
  rw [hd.now] at hlater
  obtain ⟨due', watching', next', hp', hdue'⟩ := hd'.dozes
  have hcaught : t₂.Caught fs n := by
    obtain hsame | hfresh | hcaught := hd'.keeps.2
    · rw [hp'] at hsame
      cases hsame
      omega
    · obtain ⟨stage, hp''⟩ | ⟨lines, stage, hp''⟩ := hfresh
      · rw [hp'] at hp''; cases hp''
      · rw [hp'] at hp''; cases hp''
    · exact hcaught
  refine ⟨_, hd'.tailer, ?_⟩
  rw [hd'.now]
  exact runTo_of stays_caught.lasting (Nat.le_succ _) ⟨hd'.keeps.1, hcaught⟩

end Scenario
end LogFollower
