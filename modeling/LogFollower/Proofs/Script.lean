import LogFollower.Proofs.Tailer.Kept
import LogFollower.Scenario

/-!
# Scripts

A script is a list of commands to a scenario: files are changed and tailers started, run, read from
and stopped in any order. `Scenario.Reached` says which scenarios come of scripts.

A property that steps keep and that does not depend on the lines in the channel holds of a slot
while time passes and lines are taken (`Holds.pass`, `Holds.take`, `Holds.drain`). What a tailer
keeps among changing files holds of every slot of a scenario that a script leads to
(`Reached.kept`).
-/

namespace LogFollower

open FileSystem

/-- A change of the files, or what a consumer does with the tailer in a slot. -/
inductive Command
  | edit (e : Edit)
  | launch (i : Nat) (path : Path) (config : Config)
  | tick (n : Nat)
  | receive (i : Nat) (max : Option Nat)
  | drain (i : Nat)
  | poll (i n : Nat)
  | cleanup (i : Nat)
  | stop (i : Nat)
  | drop (i : Nat)

namespace Scenario

def perform (s : Scenario) : Command → Scenario
  | .edit e => s.edit e
  | .launch i path config => (s.launch i path config).2
  | .tick n => s.tick n
  | .receive i max => (s.receive i max).2.2
  | .drain i => (s.drain i).2.2
  | .poll i n => (s.poll i n).2.2
  | .cleanup i => s.cleanup i
  | .stop i => s.stop i
  | .drop i => s.drop i

/-- The scenarios that scripts lead to. -/
inductive Reached : Scenario → Prop
  | start (fs : FileSystem) : Reached (.start fs)
  | perform {s : Scenario} (c : Command) (h : Reached s) : Reached (s.perform c)

variable {s : Scenario} {i j : Nat} {t : Tailer}

/-! ## The tailers in the slots -/

theorem tailer?_start (fs : FileSystem) (i : Nat) : (start fs).tailer? i = none := by
  unfold tailer? start
  by_cases hi : i < slotCount
  · rw [List.getElem?_replicate_of_lt hi]; rfl
  · rw [List.getElem?_eq_none (by rw [List.length_replicate]; omega)]; rfl

theorem tailer?_pass (s : Scenario) (ms i : Nat) :
    (s.pass ms).tailer? i = (s.tailer? i).map (Tailer.runTo s.fs s.now (s.now + ms)) := by
  unfold pass tailer?
  rw [List.getElem?_map]
  cases s.slots[i]? <;> rfl

theorem tailer?_put {tailer : Option Tailer} (h : (s.put i tailer).tailer? j = some t) :
    tailer = some t ∨ s.tailer? j = some t := by
  unfold put tailer? at h
  rw [List.getElem?_modify] at h
  by_cases hi : i = j
  · subst hi
    left
    cases hs : s.slots[i]? with
    | none => rw [hs] at h; cases h
    | some slot =>
      rw [hs] at h
      simpa using h
  · right
    unfold tailer?
    cases hs : s.slots[j]? with
    | none => rw [hs] at h; cases h
    | some slot =>
      rw [hs] at h
      simpa [hi] using h

theorem take_eq (h : s.tailer? i = some t) (max : Option Nat) :
    (s.take i max).1 = (t.receive max).1 ∧ (s.take i max).2.1 = (t.receive max).2.1 ∧
      (s.take i max).2.2.tailer? i = some (t.receive max).2.2 := by
  unfold take
  rw [h]
  refine ⟨rfl, rfl, ?_⟩
  obtain ⟨slot, hslot, -⟩ := Option.bind_eq_some_iff.1 h
  unfold tailer?
  simp [hslot]

theorem tailer?_take (max : Option Nat) (h : (s.take i max).2.2.tailer? j = some t) :
    ∃ t₀, s.tailer? j = some t₀ ∧ (t = t₀ ∨ t = (t₀.receive max).2.2) := by
  cases hi : s.tailer? i with
  | none =>
    unfold take at h
    rw [hi] at h
    exact ⟨t, h, .inl rfl⟩
  | some t₀ =>
    by_cases hij : i = j
    · subst hij
      rw [(take_eq hi max).2.2] at h
      exact ⟨t₀, hi, .inr (Option.some.inj h).symm⟩
    · unfold take at h
      rw [hi] at h
      refine ⟨t, ?_, .inl rfl⟩
      unfold tailer? at h ⊢
      dsimp only at h
      rw [List.getElem?_modify] at h
      simpa [hij] using h

theorem fs_take (s : Scenario) (i : Nat) (max : Option Nat) : (s.take i max).2.2.fs = s.fs := by
  unfold take
  cases s.tailer? i <;> rfl

theorem now_take (s : Scenario) (i : Nat) (max : Option Nat) : (s.take i max).2.2.now = s.now := by
  unfold take
  cases s.tailer? i <;> rfl

theorem fs_receive (s : Scenario) (i : Nat) (max : Option Nat) : (s.receive i max).2.2.fs = s.fs :=
  fs_take s i max

theorem now_receive (s : Scenario) (i : Nat) (max : Option Nat) :
    (s.receive i max).2.2.now = s.now + 1 :=
  congrArg (· + 1) (now_take s i max)

theorem receive_tailer (h : s.tailer? i = some t) (max : Option Nat) :
    (s.receive i max).1 = (t.receive max).1 ∧ (s.receive i max).2.1 = (t.receive max).2.1 ∧
      (s.receive i max).2.2.tailer? i =
        some ((t.receive max).2.2.runTo s.fs s.now (s.now + 1)) := by
  obtain ⟨hlines, hended, htailer⟩ := take_eq h max
  refine ⟨hlines, hended, ?_⟩
  show ((s.take i max).2.2.pass 1).tailer? i = _
  rw [tailer?_pass, htailer, fs_take, now_take]
  rfl

theorem fs_drainWithin (i rounds : Nat) (taken : List Line) (s : Scenario) :
    (drainWithin i rounds taken s).2.2.fs = s.fs := by
  induction rounds generalizing taken s with
  | zero => rfl
  | succ rounds ih =>
    unfold drainWithin
    dsimp only
    split_ifs
    · exact fs_receive s i none
    · exact (ih _ _).trans (fs_receive s i none)

theorem fs_poll (s : Scenario) (i n : Nat) : (s.poll i n).2.2.fs = s.fs :=
  fs_drainWithin i _ _ _

/-! ## What a slot keeps -/

def Holds (P : Nat → Tailer → Prop) (i : Nat) (s : Scenario) : Prop :=
  ∀ t, s.tailer? i = some t → P s.now t

variable {P : Nat → Tailer → Prop}

theorem Holds.pass (hP : Tailer.Lasting s.fs P) (h : s.Holds P j) (ms : Nat) :
    (s.pass ms).Holds P j := by
  intro t ht
  rw [tailer?_pass] at ht
  obtain ⟨t₀, ht₀, rfl⟩ := Option.map_eq_some_iff.1 ht
  exact Tailer.runTo_of hP (Nat.le_add_right _ _) (h t₀ ht₀)

theorem Holds.put {tailer : Option Tailer} (h : s.Holds P j)
    (hp : ∀ t, tailer = some t → P s.now t) : (s.put i tailer).Holds P j :=
  fun t ht => (tailer?_put ht).elim (hp t) (h t)

theorem Holds.empty (h : s.Holds P j) (i : Nat) : (s.put i none).Holds P j :=
  h.put fun t ht => by cases ht

theorem Holds.modify {f : Tailer → Tailer} (h : ∀ j, s.Holds P j)
    (hf : ∀ t, P s.now t → P s.now (f t)) : (s.modify i f).Holds P j := by
  refine (h j).put fun t ht => ?_
  obtain ⟨t₀, ht₀, rfl⟩ := Option.map_eq_some_iff.1 ht
  exact hf t₀ (h i t₀ ht₀)

section
variable (hP : Tailer.Lasting s.fs P)
  (hq : ∀ now t queue, P now t → P now { t with queue })
include hP hq

theorem Holds.receive (h : s.Holds P j) (i : Nat) (max : Option Nat) :
    (s.receive i max).2.2.Holds P j := by
  have htake : (s.take i max).2.2.Holds P j := by
    intro t ht
    rw [now_take]
    obtain ⟨t₀, ht₀, rfl | rfl⟩ := tailer?_take max ht
    · exact h t ht₀
    · exact hq _ t₀ _ (h t₀ ht₀)
  exact htake.pass ((fs_take s i max).symm ▸ hP) 1

theorem Holds.drainWithin (h : s.Holds P j) (i rounds : Nat) (taken : List Line) :
    (drainWithin i rounds taken s).2.2.Holds P j := by
  induction rounds generalizing taken s with
  | zero => exact h
  | succ rounds ih =>
    unfold Scenario.drainWithin
    dsimp only
    have hr := h.receive hP hq i none
    split_ifs
    · exact hr
    · exact ih ((fs_receive s i none).symm ▸ hP) hr _

theorem Holds.drain (h : s.Holds P j) (i : Nat) : (s.drain i).2.2.Holds P j :=
  h.drainWithin hP hq i _ _

theorem Holds.poll (h : s.Holds P j) (i n : Nat) : (s.poll i n).2.2.Holds P j :=
  Holds.drain (s := s.tick n) hP hq (h.pass hP _) i

end

/-! ## What a script keeps -/

/-- What steps keep, whatever is done to the files, to the channel and to the stop request. -/
structure Enduring (P : FileSystem → Nat → Tailer → Prop) : Prop where
  lasting : ∀ fs, Tailer.Lasting fs (P fs)
  files : ∀ fs e now t, P fs now t → P (fs.edit e) now t
  outer : ∀ fs now t queue closed stopRequested, P fs now t →
    P fs now { t with queue, closed, stopRequested }
  start : ∀ fs path config t now, Tailer.start fs path config = .ok t → P fs now t

/-- What tailers start with and endure holds of every slot. -/
theorem Reached.holds {P : FileSystem → Nat → Tailer → Prop} (hP : Enduring P) (h : s.Reached)
    (j : Nat) : s.Holds (P s.fs) j := by
  have outer {fs : FileSystem} : ∀ now t queue, P fs now t → P fs now { t with queue } :=
    fun now t queue ht => hP.outer fs now t queue t.closed t.stopRequested ht
  induction h generalizing j with
  | start fs =>
    intro t ht
    rw [tailer?_start] at ht
    cases ht
  | @perform s c _ ih =>
    have hs := hP.lasting s.fs
    cases c with
    | edit e => exact fun t ht => hP.files s.fs e s.now t (ih j t ht)
    | launch i path config =>
      show (s.launch i path config).2.Holds (P (s.launch i path config).2.fs) j
      unfold launch
      cases hstart : Tailer.start s.fs path config with
      | error e => exact (ih j).empty i
      | ok t =>
        refine Holds.pass (s := s.put i (some t)) hs ((ih j).put fun t' ht' => ?_) 1
        cases ht'
        exact hP.start s.fs path config t s.now hstart
    | tick n => exact (ih j).pass hs _
    | receive i max =>
      have hr := (ih j).receive hs outer i max
      rwa [← fs_receive s i max] at hr
    | drain i =>
      have hr := (ih j).drain hs outer i
      rwa [← fs_drainWithin i _ [] s] at hr
    | poll i n =>
      have hr := (ih j).poll hs outer i n
      rwa [← fs_poll s i n] at hr
    | cleanup i =>
      have hm := Holds.modify (i := i) (j := j) (f := Tailer.cleanup) ih
        fun t ht => hP.outer s.fs s.now t t.queue true true ht
      exact Holds.pass (s := s.modify i Tailer.cleanup) hs hm 1
    | stop i =>
      exact Holds.modify ih fun t ht =>
        Tailer.settle_of hs (hP.outer s.fs s.now t t.queue t.closed true ht)
    | drop i => exact Holds.pass (s := s.put i none) hs ((ih j).empty i) 1

theorem Reached.kept (h : s.Reached) (j : Nat) : s.Holds (Tailer.Kept s.fs) j :=
  h.holds
    { lasting := fun _ => Tailer.kept_lasting
      files := fun fs e _ _ ht => ht.files (keeps_edit fs e)
      outer := fun _ _ _ queue closed stopRequested ht => ht.outer queue closed stopRequested
      start := fun _ _ _ _ now ht => Tailer.kept_start ht now } j

end Scenario
end LogFollower
