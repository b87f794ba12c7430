import LogFollower.Proofs.Files

/-!
# A file that was written

Writing to a path puts certain bytes into the file that it leads to. Where there is none, a file is
made under the vacant name that the path ends in. Nothing that the path goes through had that name,
so following it again goes the same way up to its end, and there is the new file
(`Adds.find`). A file that was written is found, and holds what was written
(`written_of_write`).
-/

namespace LogFollower.FileSystem

variable {fs fs' : FileSystem} {directory n : Nat} {name : Bytes}

/-! ## Vacant names -/

/-- A directory is there and does not hold a name. -/
def Vacant (fs : FileSystem) (directory : Nat) (name : Bytes) : Prop :=
  ∃ entries, fs.entries? directory = some entries ∧ entries.lookup name = none

theorem vacant_of_walkWith {through : List Nat → List Bytes → Except Fault Place}
    (ht : ∀ trail segments, through trail segments = .ok (.vacant directory name) →
      fs.Vacant directory name) {trail : List Nat} {segments : List Bytes}
    (h : fs.walkWith through trail segments = .ok (.vacant directory name)) :
    fs.Vacant directory name := by
  induction segments generalizing trail with
  | nil => cases h
  | cons s rest ih =>
    unfold walkWith at h
    cases he : fs.entries? (trail.headD 0) with
    | none => simp only [he] at h; cases h
    | some entries =>
      simp only [he] at h
      by_cases hblank : Path.blank s = true
      · rw [if_pos hblank] at h
        exact ih h
      rw [if_neg hblank] at h
      by_cases hdots : s = Path.dotDot
      · rw [if_pos hdots] at h
        exact ih h
      rw [if_neg hdots] at h
      by_cases hlong : maxName < s.length
      · rw [if_pos hlong] at h
        cases h
      rw [if_neg hlong] at h
      cases hl : entries.lookup s with
      | none =>
        simp only [hl] at h
        split_ifs at h
        cases h
        exact ⟨entries, he, hl⟩
      | some entry =>
        cases entry with
        | object number => simp only [hl] at h; exact ih h
        | link target => simp only [hl] at h; exact ht _ _ h

theorem vacant_of_walk {links : Nat} {trail : List Nat} {segments : List Bytes}
    (h : fs.walk links trail segments = .ok (.vacant directory name)) :
    fs.Vacant directory name := by
  induction links generalizing trail segments with
  | zero => exact vacant_of_walkWith (fun _ _ h => by cases h) h
  | succ links ih => exact vacant_of_walkWith (fun _ _ => ih) h

theorem vacant_of_reach {p : Path} (h : fs.reach p = .ok (.vacant directory name)) :
    fs.Vacant directory name := by
  unfold reach at h
  split at h
  · cases h
  · exact vacant_of_walk h

/-! ## A new entry -/

/-- An object came under a vacant name, and all other names stand for what they stood for. -/
structure Adds (fs fs' : FileSystem) (directory : Nat) (name : Bytes) (n : Nat) : Prop where
  vacant : fs.Vacant directory name
  held : ∀ entries, fs'.entries? directory = some entries → entries.lookup name = some (.object n)
  others : ∀ m entries, fs.entries? m = some entries → ∃ entries', fs'.entries? m = some entries' ∧
    ∀ s, ¬ (m = directory ∧ s = name) → entries'.lookup s = entries.lookup s

namespace Adds

theorem not_vacant (h : Adds fs fs' directory name n) {m : Nat} {s : Bytes}
    {entries : List (Bytes × Entry)} {entry : Entry} (he : fs.entries? m = some entries)
    (hl : entries.lookup s = some entry) : ¬ (m = directory ∧ s = name) := by
  rintro ⟨rfl, rfl⟩
  obtain ⟨entries', he', hl'⟩ := h.vacant
  cases he.symm.trans he'
  cases hl.symm.trans hl'

theorem walkWith (h : Adds fs fs' directory name n)
    {through through' : List Nat → List Bytes → Except Fault Place}
    (ht : ∀ trail segments, through trail segments = .ok (.vacant directory name) →
      ∃ trail', through' trail segments = .ok (.object (n :: trail')))
    {trail : List Nat} {segments : List Bytes}
    (hw : fs.walkWith through trail segments = .ok (.vacant directory name)) :
    ∃ trail', fs'.walkWith through' trail segments = .ok (.object (n :: trail')) := by
  induction segments generalizing trail with
  | nil => cases hw
  | cons s rest ih =>
    unfold FileSystem.walkWith at hw ⊢
    cases he : fs.entries? (trail.headD 0) with
    | none => simp only [he] at hw; cases hw
    | some entries =>
      obtain ⟨entries', he', hother⟩ := h.others _ _ he
      simp only [he] at hw
      simp only [he']
      by_cases hblank : Path.blank s = true
      · rw [if_pos hblank] at hw ⊢
        exact ih hw
      rw [if_neg hblank] at hw ⊢
      by_cases hdots : s = Path.dotDot
      · rw [if_pos hdots] at hw ⊢
        exact ih hw
      rw [if_neg hdots] at hw ⊢
      by_cases hlong : maxName < s.length
      · rw [if_pos hlong] at hw
        cases hw
      rw [if_neg hlong] at hw ⊢
      cases hl : entries.lookup s with
      | none =>
        simp only [hl] at hw
        split_ifs at hw with hrest
        cases hw
        simp only [h.held _ he', hrest]
        exact ⟨trail, rfl⟩
      | some entry =>
        have hl' := (hother s (h.not_vacant he hl)).trans hl
        cases entry with
        | object number =>
          simp only [hl] at hw
          simp only [hl']
          exact ih hw
        | link target =>
          simp only [hl] at hw
          simp only [hl']
          exact ht _ _ hw

theorem walk (h : Adds fs fs' directory name n) {links : Nat} {trail : List Nat}
    {segments : List Bytes}
    (hw : fs.walk links trail segments = .ok (.vacant directory name)) :
    ∃ trail', fs'.walk links trail segments = .ok (.object (n :: trail')) := by
  induction links generalizing trail segments with
  | zero => exact h.walkWith (fun _ _ h => by cases h) hw
  | succ links ih => exact h.walkWith (fun _ _ => ih) hw

/-- A path that ended in the vacant name leads to the new object. -/
theorem find (h : Adds fs fs' directory name n) {p : Path}
    (hp : fs.reach p = .ok (.vacant directory name)) : fs'.find p = .ok n := by
  unfold reach at hp
  unfold FileSystem.find reach
  split at hp
  · cases hp
  · obtain ⟨trail', hw⟩ := h.walk hp
    simp only [hw]
    rfl

end Adds

theorem lookup_filter_ne {entries : List (Bytes × Entry)} {s : Bytes} (h : s ≠ name) :
    (entries.filter (·.1 ≠ name)).lookup s = entries.lookup s := by
  induction entries with
  | nil => rfl
  | cons e entries ih =>
    by_cases he : e.1 = name
    · have hne : (s == e.1) = false := by
        rw [he]
        exact beq_false_of_ne h
      rw [List.filter_cons_of_neg (by simp [he]), ih, List.lookup_cons, hne]
    · rw [List.filter_cons_of_pos (by simp [he]), List.lookup_cons, List.lookup_cons, ih]

theorem lt_of_entries? {entries : List (Bytes × Entry)} (h : fs.entries? n = some entries) :
    n < fs.bodies.length := by
  unfold entries? at h
  by_contra hlt
  rw [List.getElem?_eq_none (Nat.not_lt.1 hlt)] at h
  cases h

/-- A file that is added is under its name, and holds its bytes. -/
theorem adds_add (h : fs.Vacant directory name) (bytes : Bytes) :
    Adds fs (fs.add directory name (.regular bytes)) directory name fs.bodies.length ∧
      (fs.add directory name (.regular bytes)).bytes? fs.bodies.length = some bytes := by
  obtain ⟨entries, he, hnone⟩ := h
  have hlt := lt_of_entries? he
  -- the table grows at its end, so that what was there stays where it was
  have hgrown {m : Nat} (hm : m < fs.bodies.length) :
      (⟨fs.bodies ++ [.regular bytes]⟩ : FileSystem).entries? m = fs.entries? m := by
    unfold entries?
    rw [List.getElem?_append_left hm]
  have hadd : fs.add directory name (.regular bytes) =
      (⟨fs.bodies ++ [.regular bytes]⟩ : FileSystem).setBody directory
        (.directory ((name, .object fs.bodies.length) :: entries.filter (·.1 ≠ name))) := by
    unfold add FileSystem.bind
    rw [hgrown hlt, he]
  have hself : (fs.add directory name (.regular bytes)).entries? directory =
      some ((name, .object fs.bodies.length) :: entries.filter (·.1 ≠ name)) := by
    rw [hadd]
    unfold entries? setBody
    rw [List.getElem?_set_self (by rw [List.length_append]; omega)]
  refine ⟨⟨⟨entries, he, hnone⟩, ?_, ?_⟩, ?_⟩
  · intro entries' he'
    obtain rfl := Option.some.inj (hself.symm.trans he')
    rw [List.lookup_cons, beq_self_eq_true]
  · intro m entries' he'
    by_cases hm : m = directory
    · subst hm
      obtain rfl := Option.some.inj (he.symm.trans he')
      refine ⟨_, hself, fun s hs => ?_⟩
      have hne : s ≠ name := fun h => hs ⟨rfl, h⟩
      rw [List.lookup_cons, beq_false_of_ne hne, lookup_filter_ne hne]
    · refine ⟨entries', ?_, fun _ _ => rfl⟩
      rw [hadd, ← he', ← hgrown (lt_of_entries? he')]
      unfold entries? setBody
      rw [List.getElem?_set_ne (Ne.symm hm)]
  · rw [hadd, bytes?_setBody (Nat.ne_of_lt hlt)]
    unfold bytes?
    rw [List.getElem?_append_right le_rfl, Nat.sub_self]
    rfl

/-! ## What a path holds -/

/-- What is at a path: a regular file with certain bytes, or nothing. -/
def Holds (fs : FileSystem) (p : Path) : Option Bytes → Prop
  | none => ∃ f, fs.find p = .error f
  | some bytes => ∃ n, fs.find p = .ok n ∧ fs.bytes? n = some bytes

theorem Holds.unique {p : Path} {content content' : Option Bytes} (h : fs.Holds p content)
    (h' : fs.Holds p content') : content = content' := by
  cases content with
  | none =>
    obtain ⟨f, hf⟩ := h
    cases content' with
    | none => rfl
    | some bytes' =>
      obtain ⟨n, hn, -⟩ := h'
      cases hf.symm.trans hn
  | some bytes =>
    obtain ⟨n, hn, hb⟩ := h
    cases content' with
    | none =>
      obtain ⟨f, hf⟩ := h'
      cases hf.symm.trans hn
    | some bytes' =>
      obtain ⟨n', hn', hb'⟩ := h'
      cases hn.symm.trans hn'
      exact hb.symm.trans hb'

/-! ## Writing -/

/-- A file that was written is where the path leads to, and holds what was written. -/
theorem written_of_write {p : Path} {f : Bytes → Bytes} (h : fs.write p f = .ok fs') :
    ∃ n old, fs'.find p = .ok n ∧ fs'.bytes? n = some (f old) := by
  unfold write at h
  split at h
  · cases h
  · cases hr : fs.reach p with
    | error fault => simp only [hr] at h; cases h
    | ok place =>
      cases place with
      | vacant directory name =>
        simp only [hr] at h
        cases h
        obtain ⟨hadds, hbytes⟩ := adds_add (vacant_of_reach hr) (f [])
        exact ⟨_, [], hadds.find hr, hbytes⟩
      | object trail =>
        simp only [hr] at h
        obtain ⟨n, hfind, hbody⟩ := bind_eq_ok h
        split at hbody
        · next old hold =>
          cases hbody
          have hbytes : fs.bytes? n = some old := by
            unfold bytes?
            rw [hold]
          refine ⟨n, old, ?_, bytes?_setBody_self hbytes _⟩
          rw [find_congr (sameTree_setBody hbytes _), hfind]
        · cases hbody
        · cases hbody

end LogFollower.FileSystem
