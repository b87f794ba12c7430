import LogFollower.FileSystem.Edit
import Mathlib.Tactic

/-!
# Facts about files

Objects have identities of their own (`identify_inj`), and what a path leads to is decided by the
directories alone (`find_congr`), so that writing to a regular file moves no path. `edit_append` is
what follows for an append. `Alters` lists what a change can come to: no change makes another kind
of thing of an object (`keeps_edit`), and none both writes to a file and moves names about
(`Alters.sameTree_or_leaves`).
-/

namespace LogFollower.FileSystem

variable {fs fs' : FileSystem}

theorem identify_inj {m n : Nat} (h : identify m = identify n) : m = n := by
  have hs : Nat.repr m = Nat.repr n := (String.append_right_inj _).1 (FileIdentifier.mk.inj h)
  have hd := congrArg String.toList hs
  rw [Nat.toList_repr, Nat.toList_repr] at hd
  rw [← Nat.ofDigitChars_toDigits (b := 10) (n := m) (by decide) (by decide), hd,
    Nat.ofDigitChars_toDigits (by decide) (by decide)]

/-! ## Paths and directories -/

/-- Two file systems have the same directories. -/
def SameTree (fs fs' : FileSystem) : Prop := ∀ n, fs'.entries? n = fs.entries? n

theorem walkWith_congr (h : SameTree fs fs')
    {through through' : List Nat → List Bytes → Except Fault Place}
    (ht : ∀ trail segments, through' trail segments = through trail segments)
    (trail : List Nat) (segments : List Bytes) :
    fs'.walkWith through' trail segments = fs.walkWith through trail segments := by
  induction segments generalizing trail with
  | nil => rfl
  | cons s rest ih =>
    rw [walkWith, walkWith, h (trail.headD 0)]
    simp only [ih, ht]

theorem walk_congr (h : SameTree fs fs') (links : Nat) (trail : List Nat)
    (segments : List Bytes) : fs'.walk links trail segments = fs.walk links trail segments := by
  induction links generalizing trail segments with
  | zero => exact walkWith_congr h (fun _ _ => rfl) trail segments
  | succ links ih => exact walkWith_congr h ih trail segments

/-- What a path leads to is decided by the directories. -/
theorem find_congr (h : SameTree fs fs') (p : Path) : fs'.find p = fs.find p := by
  unfold find reach
  simp only [walk_congr h]

/-! ## Writing to a file -/

theorem bodies_of_bytes? {n : Nat} {bytes : Bytes} (h : fs.bytes? n = some bytes) :
    fs.bodies[n]? = some (.regular bytes) := by
  unfold bytes? at h
  split at h
  · next e => rw [e, Option.some.inj h]
  · cases h

theorem length_of_bytes? {n : Nat} {bytes : Bytes} (h : fs.bytes? n = some bytes) :
    fs.length n = bytes.length := by
  unfold length
  rw [bodies_of_bytes? h]

theorem length_le_of_read {n position count : Nat} {bytes : Bytes}
    (h : fs.read n position count = .ok bytes) (hb : bytes ≠ []) :
    position + bytes.length ≤ fs.length n := by
  obtain ⟨all, ha, rfl⟩ := bytes?_of_read h
  have hpos := List.length_pos_of_ne_nil hb
  rw [List.length_take, List.length_drop] at hpos ⊢
  rw [length_of_bytes? ha]
  omega

theorem openFile_of_bytes? {p : Path} {n : Nat} {bytes : Bytes} (hf : fs.find p = .ok n)
    (h : fs.bytes? n = some bytes) : fs.openFile p = .ok n := by
  unfold openFile
  simp only [hf, bodies_of_bytes? h]

theorem find_of_openFile {p : Path} {n : Nat} (h : fs.openFile p = .ok n) : fs.find p = .ok n := by
  unfold openFile at h
  cases hf : fs.find p with
  | error f => rw [hf] at h; cases h
  | ok m =>
    simp only [hf] at h
    split at h
    · rw [Except.ok.inj h]
    · rw [Except.ok.inj h]
    · cases h

theorem length_le_size (fs : FileSystem) (n : Nat) : fs.length n ≤ fs.size := by
  unfold size
  by_cases hn : n < fs.bodies.length
  · rw [← List.sum_eq_foldr]
    exact List.le_sum_of_mem (List.mem_map_of_mem (List.mem_range.2 hn))
  · have hnone : fs.bodies[n]? = none := List.getElem?_eq_none (by omega)
    unfold length
    rw [hnone]
    exact Nat.zero_le _

theorem sameTree_setBody {n : Nat} {bytes : Bytes} (h : fs.bytes? n = some bytes)
    (bytes' : Bytes) : SameTree fs (fs.setBody n (.regular bytes')) := by
  intro m
  unfold entries? setBody
  by_cases hm : n = m
  · subst hm
    have hb := bodies_of_bytes? h
    have hlt := (List.getElem?_eq_some_iff.1 hb).1
    rw [List.getElem?_set_self hlt, hb]
  · rw [List.getElem?_set_ne hm]

theorem bytes?_setBody_self {n : Nat} {bytes : Bytes} (h : fs.bytes? n = some bytes)
    (bytes' : Bytes) : (fs.setBody n (.regular bytes')).bytes? n = some bytes' := by
  unfold bytes? setBody
  have hlt := (List.getElem?_eq_some_iff.1 (bodies_of_bytes? h)).1
  simp only [List.getElem?_set_self hlt]

theorem modify_eq {p : Path} {n : Nat} {bytes : Bytes} (hf : fs.find p = .ok n)
    (h : fs.bytes? n = some bytes) (f : Bytes → Bytes) :
    fs.modify p f = .ok (fs.setBody n (.regular (f bytes))) := by
  simp only [modify, hf, Bind.bind, Except.bind, bodies_of_bytes? h]

/-- An append to the file that a path leads to adds its bytes, or cannot be done, and leaves
the path where it is. -/
theorem edit_append {p : Path} {n : Nat} {bytes : Bytes} (hf : fs.find p = .ok n)
    (h : fs.bytes? n = some bytes) (new : Bytes) :
    (fs.edit (.append p new)).find p = .ok n ∧
      ((fs.edit (.append p new)).bytes? n = some (bytes ++ new) ∨
        fs.edit (.append p new) = fs) := by
  by_cases hs : p.endsInSlash ∧ (fs.slot p).toBool
  · have hedit : fs.edit (.append p new) = fs := by
      unfold edit apply write
      simp only [if_pos hs]
    rw [hedit]
    exact ⟨hf, .inr rfl⟩
  · have hreach : ∃ trail, fs.reach p = .ok (.object trail) := by
      unfold find at hf
      cases hr : fs.reach p with
      | error f => rw [hr] at hf; cases hf
      | ok place =>
        cases place with
        | object trail => exact ⟨trail, rfl⟩
        | vacant directory name => rw [hr] at hf; cases hf
    obtain ⟨trail, hr⟩ := hreach
    have hedit : fs.edit (.append p new) = fs.setBody n (.regular (bytes ++ new)) := by
      unfold edit apply write
      simp only [if_neg hs, hr, modify_eq hf h]
    rw [hedit]
    refine ⟨?_, .inl (bytes?_setBody_self h _)⟩
    rw [find_congr (sameTree_setBody h _), hf]

/-! ## What kind of thing an object is -/

inductive Kind
  | regular
  | directory
  | socket
  deriving DecidableEq

def kindOf : Body → Kind
  | .regular _ => .regular
  | .directory _ => .directory
  | .socket => .socket

def kind? (fs : FileSystem) (n : Nat) : Option Kind := fs.bodies[n]?.map kindOf

theorem kind?_regular_iff {n : Nat} :
    fs.kind? n = some .regular ↔ ∃ bytes, fs.bytes? n = some bytes := by
  unfold kind? bytes?
  cases fs.bodies[n]? with
  | none => simp
  | some body => cases body <;> simp [kindOf]

theorem kind?_directory_iff {n : Nat} :
    fs.kind? n = some .directory ↔ ∃ entries, fs.entries? n = some entries := by
  unfold kind? entries?
  cases fs.bodies[n]? with
  | none => simp
  | some body => cases body <;> simp [kindOf]

/-- Objects stay what they are. -/
def Keeps (fs fs' : FileSystem) : Prop := ∀ n k, fs.kind? n = some k → fs'.kind? n = some k

theorem Keeps.refl (fs : FileSystem) : Keeps fs fs := fun _ _ h => h

theorem Keeps.trans {fs'' : FileSystem} (h : Keeps fs fs') (h' : Keeps fs' fs'') : Keeps fs fs'' :=
  fun n k hk => h' n k (h n k hk)

theorem keeps_setBody {n : Nat} {body : Body} (h : fs.kind? n = some (kindOf body)) :
    Keeps fs (fs.setBody n body) := by
  intro m k hk
  unfold kind? setBody
  by_cases hm : n = m
  · subst hm
    obtain ⟨old, hold, -⟩ := Option.map_eq_some_iff.1 h
    rw [List.getElem?_set_self (List.getElem?_eq_some_iff.1 hold).1]
    exact h.symm.trans hk
  · rw [List.getElem?_set_ne hm]
    exact hk

theorem keeps_bind (directory : Nat) (name : Bytes) (entry : Entry) :
    Keeps fs (fs.bind directory name entry) := by
  unfold FileSystem.bind
  split
  · next entries he => exact keeps_setBody (kind?_directory_iff.2 ⟨entries, he⟩)
  · exact .refl fs

theorem keeps_unbind (directory : Nat) (name : Bytes) : Keeps fs (fs.unbind directory name) := by
  unfold unbind
  split
  · next entries he => exact keeps_setBody (kind?_directory_iff.2 ⟨entries, he⟩)
  · exact .refl fs

theorem keeps_add (directory : Nat) (name : Bytes) (body : Body) :
    Keeps fs (fs.add directory name body) := by
  have hnew : Keeps fs ⟨fs.bodies ++ [body]⟩ := by
    intro n k hk
    obtain ⟨old, hold, rfl⟩ := Option.map_eq_some_iff.1 hk
    unfold kind?
    rw [List.getElem?_append_left (List.getElem?_eq_some_iff.1 hold).1, hold]
    rfl
  exact hnew.trans (keeps_bind _ _ _)

/-! ## What a change comes to -/

/-- What a change of the files can come to. -/
inductive Alters (fs : FileSystem) : FileSystem → Prop
  | nothing : Alters fs fs
  | written {n : Nat} {bytes : Bytes} (h : fs.bytes? n = some bytes) (bytes' : Bytes) :
      Alters fs (fs.setBody n (.regular bytes'))
  | added (directory : Nat) (name : Bytes) (body : Body) : Alters fs (fs.add directory name body)
  | bound (directory : Nat) (name : Bytes) (entry : Entry) :
      Alters fs (fs.bind directory name entry)
  | unbound (directory : Nat) (name : Bytes) : Alters fs (fs.unbind directory name)
  | moved (source : Nat) (name : Bytes) (target : Nat) (newName : Bytes) (entry : Entry) :
      Alters fs ((fs.unbind source name).bind target newName entry)

/-- What comes of two steps that succeed. -/
theorem bind_eq_ok {α β : Type} {first : Except Fault α} {next : α → Except Fault β} {result : β}
    (h : Bind.bind first next = .ok result) : ∃ a, first = .ok a ∧ next a = .ok result := by
  cases first with
  | error f => cases h
  | ok a => exact ⟨a, rfl, h⟩

theorem alters_modify {p : Path} {f : Bytes → Bytes} (h : fs.modify p f = .ok fs') :
    Alters fs fs' := by
  obtain ⟨n, -, h⟩ := bind_eq_ok h
  split at h
  · next bytes hb =>
    cases h
    exact .written (by unfold bytes?; rw [hb]) (f bytes)
  · cases h
  · cases h

theorem alters_write {p : Path} {f : Bytes → Bytes} (h : fs.write p f = .ok fs') :
    Alters fs fs' := by
  unfold write at h
  split at h
  · cases h
  · split at h
    · cases h
      exact .added _ _ _
    · exact alters_modify h
    · cases h

theorem alters_move {p p' : Path} (h : fs.move p p' = .ok fs') : Alters fs fs' := by
  obtain ⟨⟨source, name, entry⟩, -, h⟩ := bind_eq_ok h
  obtain ⟨⟨target, newName⟩, -, h⟩ := bind_eq_ok h
  dsimp only at h
  have hcases : fs' = fs ∨ fs' = (fs.unbind source name).bind target newName entry := by
    split at h
    · split at h
      · split_ifs at h
        exact .inr (Except.ok.inj h).symm
      · exact .inr (Except.ok.inj h).symm
    · split_ifs at h
      · split at h
        · exact .inl (Except.ok.inj h).symm
        · exact .inr (Except.ok.inj h).symm
      · exact .inr (Except.ok.inj h).symm
  obtain rfl | rfl := hcases
  · exact .nothing
  · exact .moved _ _ _ _ _

theorem alters_remove {p : Path} (h : fs.apply (.remove p) = .ok fs') : Alters fs fs' := by
  rw [apply] at h
  obtain ⟨⟨directory, name, entry⟩, -, h⟩ := bind_eq_ok h
  dsimp only at h
  by_cases hd : fs.isDirectory entry
  · rw [if_pos hd] at h; cases h
  · rw [if_neg hd] at h
    cases h
    exact .unbound _ _

theorem alters_hardlink {p p' : Path} (h : fs.apply (.hardlink p p') = .ok fs') :
    Alters fs fs' := by
  rw [apply] at h
  obtain ⟨⟨_, _, entry⟩, -, h⟩ := bind_eq_ok h
  obtain ⟨⟨directory, name⟩, -, h⟩ := bind_eq_ok h
  dsimp only at h
  by_cases hd : fs.isDirectory entry
  · rw [if_pos hd] at h; cases h
  · rw [if_neg hd] at h
    cases h
    exact .bound _ _ _

theorem alters_removeDirectory {p : Path} (h : fs.apply (.removeDirectory p) = .ok fs') :
    Alters fs fs' := by
  rw [apply] at h
  obtain ⟨⟨directory, name, entry⟩, -, h⟩ := bind_eq_ok h
  dsimp only at h
  by_cases hd : fs.isDirectory entry
  · rw [if_neg (not_not.2 hd)] at h
    by_cases ho : fs.occupied entry
    · rw [if_pos ho] at h; cases h
    · rw [if_neg ho] at h
      cases h
      exact .unbound _ _
  · rw [if_pos hd] at h; cases h

theorem alters_apply {e : Edit} (h : fs.apply e = .ok fs') : Alters fs fs' := by
  cases e with
  | create p => exact alters_write (p := p) (f := fun _ => []) h
  | append p bytes => exact alters_write (p := p) (f := (· ++ bytes)) h
  | overwrite p offset bytes => exact alters_modify (p := p) (f := putAt offset bytes) h
  | truncate p length => exact alters_modify (p := p) (f := resize length) h
  | remove p => exact alters_remove h
  | rename p p' => exact alters_move h
  | hardlink p p' => exact alters_hardlink h
  | symlink p target =>
    rw [apply] at h
    obtain ⟨⟨directory, name⟩, -, h⟩ := bind_eq_ok h
    cases h
    exact .bound _ _ _
  | copy p p' =>
    rw [apply] at h
    obtain ⟨bytes, -, h⟩ := bind_eq_ok h
    exact alters_write h
  | makeDirectory p | socket p =>
    rw [apply] at h
    obtain ⟨⟨directory, name⟩, -, h⟩ := bind_eq_ok h
    cases h
    exact .added _ _ _
  | removeDirectory p => exact alters_removeDirectory h

/-- Every change comes to one of a few things. -/
theorem alters_edit (fs : FileSystem) (e : Edit) : Alters fs (fs.edit e) := by
  unfold edit
  split
  · next h => exact alters_apply h
  · exact .nothing

theorem Alters.keeps (h : Alters fs fs') : Keeps fs fs' := by
  cases h with
  | nothing => exact .refl fs
  | written h =>
    obtain ⟨body, hbody, hkind⟩ := Option.map_eq_some_iff.1 (kind?_regular_iff.2 ⟨_, h⟩)
    exact keeps_setBody (by unfold kind?; rw [hbody]; exact congrArg some hkind)
  | added directory name body => exact keeps_add directory name body
  | bound directory name entry => exact keeps_bind directory name entry
  | unbound directory name => exact keeps_unbind directory name
  | moved => exact (keeps_unbind _ _).trans (keeps_bind _ _ _)

/-- No change makes another kind of thing of an object. -/
theorem keeps_edit (fs : FileSystem) (e : Edit) : Keeps fs (fs.edit e) := (alters_edit fs e).keeps

/-! ## Writing and moving -/

/-- Every file that is there has the bytes it had. -/
def Leaves (fs fs' : FileSystem) : Prop :=
  ∀ n bytes, fs.bytes? n = some bytes → fs'.bytes? n = some bytes

theorem Leaves.trans {fs'' : FileSystem} (h : Leaves fs fs') (h' : Leaves fs' fs'') :
    Leaves fs fs'' :=
  fun n bytes hb => h' n bytes (h n bytes hb)

theorem leaves_setBody {n : Nat} {entries : List (Bytes × Entry)}
    (h : fs.entries? n = some entries) (body : Body) : Leaves fs (fs.setBody n body) := by
  intro m bytes hb
  have hne : n ≠ m := by
    rintro rfl
    unfold entries? at h
    rw [bodies_of_bytes? hb] at h
    cases h
  rw [bytes?_setBody hne]
  exact hb

theorem leaves_bind (directory : Nat) (name : Bytes) (entry : Entry) :
    Leaves fs (fs.bind directory name entry) := by
  unfold FileSystem.bind
  split
  · next entries he => exact leaves_setBody he _
  · exact fun _ _ h => h

theorem leaves_unbind (directory : Nat) (name : Bytes) :
    Leaves fs (fs.unbind directory name) := by
  unfold unbind
  split
  · next entries he => exact leaves_setBody he _
  · exact fun _ _ h => h

theorem leaves_add (directory : Nat) (name : Bytes) (body : Body) :
    Leaves fs (fs.add directory name body) := by
  have hnew : Leaves fs ⟨fs.bodies ++ [body]⟩ := by
    intro n bytes hb
    have hbody := bodies_of_bytes? hb
    unfold bytes?
    rw [List.getElem?_append_left (List.getElem?_eq_some_iff.1 hbody).1, hbody]
  exact hnew.trans (leaves_bind _ _ _)

/-- A change writes to a file or moves names about, and never does both. -/
theorem Alters.sameTree_or_leaves (h : Alters fs fs') : SameTree fs fs' ∨ Leaves fs fs' := by
  cases h with
  | nothing => exact .inl fun _ => rfl
  | written h bytes' => exact .inl (sameTree_setBody h bytes')
  | added directory name body => exact .inr (leaves_add directory name body)
  | bound directory name entry => exact .inr (leaves_bind directory name entry)
  | unbound directory name => exact .inr (leaves_unbind directory name)
  | moved => exact .inr ((leaves_unbind _ _).trans (leaves_bind _ _ _))

end LogFollower.FileSystem
