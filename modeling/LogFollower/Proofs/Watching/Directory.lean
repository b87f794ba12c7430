import LogFollower.Proofs.Watching.Wakeups
import Mathlib.Data.List.DropRight

/-!
# The watched directory

A notified watcher watches the directory that a path names a file in, and compares events with the
last name of the path. Both are found on their own, from the segments. `directory_child` says that
they belong together: the directory with the name in it is the path again, with a `.` before it
where the path names no directory at all. So an event that gives the file by any of these paths is
not missed (`watched_directory_fits`).
-/

namespace LogFollower

namespace Path

variable {p d : Path} {s n : Bytes} {above body : List Bytes}

/-! ## Segments -/

theorem cut_append_slash (a b : Bytes) : cut (a ++ slash :: b) = cut a ++ cut b := by
  induction a with
  | nil => simp [cut]
  | cons c a ih =>
    rw [List.cons_append, cut, cut, ih]
    by_cases hc : c = slash
    · simp [hc]
    · obtain ⟨t, more, ht⟩ := List.exists_cons_of_ne_nil (cut_ne_nil a)
      simp [hc, ht]

theorem cut_of_not_mem (h : slash ∉ s) : cut s = [s] := by
  induction s with
  | nil => rfl
  | cons b s ih =>
    rw [List.mem_cons, not_or] at h
    simp [cut, Ne.symm h.1, ih h.2]

theorem slash_not_mem {bytes : Bytes} (h : s ∈ cut bytes) : slash ∉ s := by
  induction bytes generalizing s with
  | nil =>
    rw [List.mem_singleton.1 h]
    exact List.not_mem_nil
  | cons b bytes ih =>
    obtain ⟨t, more, ht⟩ := List.exists_cons_of_ne_nil (cut_ne_nil bytes)
    rw [cut] at h
    by_cases hb : b = slash
    · rw [if_pos hb] at h
      rcases List.mem_cons.1 h with rfl | h
      · exact List.not_mem_nil
      · exact ih h
    · rw [if_neg hb, ht] at h
      rcases List.mem_cons.1 h with rfl | h
      · rw [List.mem_cons, not_or]
        exact ⟨Ne.symm hb, ih (by rw [ht]; exact List.mem_cons_self)⟩
      · exact ih (by rw [ht]; exact List.mem_cons_of_mem t h)

theorem cut_join (hne : body ≠ []) (h : ∀ s ∈ body, slash ∉ s) : cut (join body) = body := by
  induction body with
  | nil => exact absurd rfl hne
  | cons s body ih =>
    have hs : cut s = [s] := cut_of_not_mem (h s List.mem_cons_self)
    cases body with
    | nil => simpa [join, List.intercalate] using hs
    | cons t more =>
      rw [join_cons_cons, cut_append_slash, hs,
        ih (List.cons_ne_nil t more) fun u hu => h u (List.mem_cons_of_mem s hu)]
      rfl

/-! ## Blank segments -/

theorem trim_concat (h : blank n = false) (body : List Bytes) : trim (body ++ [n]) = body ++ [n] :=
  List.rdropWhile_concat_neg _ _ _ (by simp [h])

theorem trim_concat_blank (h : blank n = true) (body : List Bytes) :
    trim (body ++ [n]) = trim body := List.rdropWhile_concat_pos _ _ _ h

theorem mem_of_mem_trim (h : s ∈ trim body) : s ∈ body :=
  (List.rdropWhile_prefix blank body).mem h

theorem not_blank_of_getLast?_trim (h : (trim body).getLast? = some s) : blank s = false := by
  obtain ⟨hne, rfl⟩ := List.mem_getLast?_eq_getLast h
  exact Bool.eq_false_of_not_eq_true (List.rdropWhile_last_not blank body hne)

theorem trim_cons (h : blank s = false) (body : List Bytes) : trim (s :: body) = s :: trim body := by
  induction body using List.reverseRecOn with
  | nil => exact trim_concat h []
  | append_singleton body t ih =>
    rw [← List.cons_append]
    by_cases ht : blank t = true
    · rw [trim_concat_blank ht, trim_concat_blank ht, ih]
    · rw [trim_concat (Bool.eq_false_of_not_eq_true ht),
        trim_concat (Bool.eq_false_of_not_eq_true ht), List.cons_append]

def visible (body : List Bytes) : List Bytes := body.filter fun s => !blank s

theorem visible_trim (body : List Bytes) : visible (trim body) = visible body := by
  induction body using List.reverseRecOn with
  | nil => rfl
  | append_singleton body t ih =>
    by_cases ht : blank t = true
    · rw [trim_concat_blank ht, ih]
      simp [visible, ht]
    · rw [trim_concat (Bool.eq_false_of_not_eq_true ht)]

/-! ## Components -/

def anchor (p : Path) : Anchor := p.parts.1

/-- The names along a path, one after the other. -/
def names (p : Path) : List Bytes := visible p.segments

/-- The segment that spells an anchor. -/
def Anchor.lead : Anchor → List Bytes
  | .root => [[]]
  | .here => [dot]
  | .none => []

theorem visible_lead (a : Anchor) (body : List Bytes) : visible (a.lead ++ body) = visible body := by
  cases a <;> rfl

theorem parts_root {rest : List Bytes} (h : p.segments = [] :: s :: rest) :
    p.parts = (.root, trim (s :: rest)) := by
  unfold parts
  rw [h]

theorem parts_here {rest : List Bytes} (h : p.segments = dot :: rest) :
    p.parts = (.here, trim rest) := by
  unfold parts
  rw [h]
  rfl

theorem parts_bare {rest : List Bytes} (h : p.segments = s :: rest) (hs : blank s = false) :
    p.parts = (.none, s :: trim rest) := by
  unfold parts
  rw [h, ← trim_cons hs]
  cases s with
  | nil => cases hs
  | cons b s =>
    refine if_neg ?_
    rintro hdot
    rw [hdot] at hs
    cases hs

/-- A path is its anchor and what stands behind it; without an anchor it begins with a name. -/
theorem segments_eq (p : Path) : ∃ rest, p.segments = p.anchor.lead ++ rest ∧
    p.parts.2 = trim rest ∧
    (p.anchor = .none → p.parts.2 ≠ [] → ∃ s more, p.parts.2 = s :: more ∧ blank s = false) := by
  unfold anchor
  obtain ⟨s, rest, h⟩ := List.exists_cons_of_ne_nil (cut_ne_nil p.bytes)
  have hsegments : p.segments = s :: rest := h
  by_cases hs : s = []
  · subst hs
    cases rest with
    | nil =>
      have hparts : p.parts = (.none, []) := by
        unfold parts
        rw [hsegments]
      rw [hparts, hsegments]
      exact ⟨[[]], rfl, rfl, fun _ hne => absurd rfl hne⟩
    | cons t more =>
      rw [parts_root hsegments, hsegments]
      exact ⟨t :: more, rfl, rfl, nofun⟩
  by_cases hdot : s = dot
  · subst hdot
    rw [parts_here hsegments, hsegments]
    exact ⟨rest, rfl, rfl, nofun⟩
  · have hblank : blank s = false := by simp [blank, hs, hdot]
    rw [parts_bare hsegments hblank, hsegments]
    exact ⟨s :: rest, rfl, (trim_cons hblank rest).symm, fun _ _ => ⟨s, trim rest, rfl, hblank⟩⟩

theorem names_eq (p : Path) : p.names = visible p.parts.2 := by
  obtain ⟨rest, hsegments, htrim, -⟩ := segments_eq p
  rw [names, hsegments, visible_lead, htrim, visible_trim]

theorem slash_not_mem_parts (h : s ∈ p.parts.2) : slash ∉ s := by
  obtain ⟨rest, hsegments, htrim, -⟩ := segments_eq p
  rw [htrim] at h
  have hmem : s ∈ p.segments := by
    rw [hsegments]
    exact List.mem_append_right _ (mem_of_mem_trim h)
  exact slash_not_mem hmem

theorem parts_of_fileName (h : p.fileName = some n) :
    ∃ above, p.parts.2 = above ++ [n] ∧ n ≠ dotDot ∧ blank n = false ∧ slash ∉ n := by
  unfold fileName at h
  split at h
  · next s hlast =>
    split_ifs at h with hdots
    cases h
    obtain ⟨above, habove⟩ := List.getLast?_eq_some_iff.1 hlast
    obtain ⟨rest, -, htrim, -⟩ := segments_eq p
    exact ⟨above, habove, hdots, not_blank_of_getLast?_trim (htrim ▸ hlast),
      slash_not_mem_parts (p := p) (by rw [habove]; simp)⟩
  · cases h

/-- Segments behind an anchor are the parts of their path, if the last one is not blank and if
without an anchor the first one is not blank either. -/
theorem parts_of_segments {a : Anchor} (h : p.segments = a.lead ++ (above ++ [n]))
    (hn : blank n = false)
    (ha : a = .none → ∃ s more, above ++ [n] = s :: more ∧ blank s = false) :
    p.parts = (a, above ++ [n]) := by
  have htrim := trim_concat hn above
  cases a with
  | root =>
    obtain ⟨t, more, ht⟩ := List.exists_cons_of_ne_nil
      (List.append_ne_nil_of_right_ne_nil above (List.cons_ne_nil n []))
    rw [ht] at h htrim ⊢
    rw [parts_root h, htrim]
  | here => exact (parts_here h).trans (congrArg (Prod.mk _) htrim)
  | none =>
    obtain ⟨s, more, hs, hblank⟩ := ha rfl
    rw [hs] at h htrim ⊢
    rw [parts_bare h hblank, ← trim_cons hblank, htrim]

/-! ## The directory and what is in it -/

/-- The path of what has a name in a directory. -/
def child (d : Path) (name : Bytes) : Path :=
  if d.bytes = [] ∨ d.endsInSlash then ⟨d.bytes ++ name⟩ else ⟨d.bytes ++ slash :: name⟩

theorem segments_child (hlast : d.segments.getLast? = some s) (hs : s ≠ []) (hn : slash ∉ n) :
    (d.child n).segments = d.segments ++ [n] := by
  have hopen : ¬ (d.bytes = [] ∨ d.endsInSlash = true) := by
    rintro (hnil | hslash)
    · rw [segments, hnil] at hlast
      cases hlast
      exact hs rfl
    · obtain ⟨front, hfront⟩ := List.getLast?_eq_some_iff.1 (of_decide_eq_true hslash)
      rw [segments, hfront, cut_append_slash] at hlast
      simp only [cut, List.getLast?_concat, Option.some.injEq] at hlast
      exact hs hlast.symm
  unfold child
  rw [if_neg hopen]
  show cut (d.bytes ++ slash :: n) = cut d.bytes ++ [n]
  rw [cut_append_slash, cut_of_not_mem hn]

theorem segments_ofParts {a : Anchor} (h : ∀ s ∈ body, slash ∉ s) (hne : body ≠ [] ∨ a = .here) :
    (ofParts a body).segments = a.lead ++ body := by
  cases a with
  | root =>
    obtain ⟨t, more, rfl⟩ := List.exists_cons_of_ne_nil (hne.resolve_right nofun)
    show cut (join ([] :: t :: more)) = [] :: t :: more
    refine cut_join (List.cons_ne_nil _ _) fun s hs => ?_
    rcases List.mem_cons.1 hs with rfl | hs
    · exact List.not_mem_nil
    · exact h s hs
  | none => exact cut_join (hne.resolve_right nofun) h
  | here =>
    cases body with
    | nil => rfl
    | cons t more =>
      show cut (join (dot :: t :: more)) = dot :: t :: more
      refine cut_join (List.cons_ne_nil _ _) fun s hs => ?_
      rcases List.mem_cons.1 hs with rfl | hs
      · decide
      · exact h s hs

/-- The anchor of the directory: a path without one, and with nothing above its last name, is looked
for in the current directory. -/
def Anchor.orHere (a : Anchor) (above : List Bytes) : Anchor :=
  if a = .none ∧ trim above = [] then .here else a

theorem directory_eq (h : p.parts.2 = above ++ [n]) :
    p.directory = ofParts (p.anchor.orHere above) (trim above) := by
  have hparts : p.parts = (p.anchor, above ++ [n]) := Prod.ext rfl h
  obtain ⟨t, more, ht⟩ := List.exists_cons_of_ne_nil
    (List.append_ne_nil_of_right_ne_nil above (List.cons_ne_nil n []))
  have hdrop : (t :: more).dropLast = above := by rw [← ht, List.dropLast_concat]
  unfold directory Anchor.orHere
  rw [hparts, ht]
  cases p.anchor with
  | none =>
    simp only [hdrop]
    cases trim above <;> rfl
  | root =>
    show ofParts .root (trim (t :: more).dropLast) = _
    rw [hdrop]
    rfl
  | here =>
    show ofParts .here (trim (t :: more).dropLast) = _
    rw [hdrop]
    rfl

/-- The directory is the root, or it does not end in a slash. -/
theorem directory_cases (habove : p.parts.2 = above ++ [n]) :
    (p.anchor.orHere above = .root ∧ trim above = [] ∧ p.directory = ⟨[slash]⟩) ∨
    (p.directory.segments = (p.anchor.orHere above).lead ++ trim above ∧
      ∃ s, p.directory.segments.getLast? = some s ∧ s ≠ []) := by
  have hclean : ∀ s ∈ trim above, slash ∉ s := fun s hs =>
    slash_not_mem_parts (p := p) (by rw [habove]; exact List.mem_append_left _ (mem_of_mem_trim hs))
  rw [directory_eq habove]
  by_cases hnil : trim above = []
  · by_cases hroot : p.anchor = .root
    · left
      rw [hroot, hnil]
      exact ⟨rfl, rfl, rfl⟩
    · right
      have hhere : p.anchor.orHere above = .here := by
        unfold Anchor.orHere
        cases ha : p.anchor with
        | root => exact absurd ha hroot
        | here => rfl
        | none => exact if_pos ⟨rfl, hnil⟩
      rw [hnil, hhere]
      exact ⟨rfl, dot, rfl, List.cons_ne_nil _ _⟩
  · right
    have hlast := List.getLast?_eq_some_getLast hnil
    rw [segments_ofParts hclean (.inl hnil), List.getLast?_append_of_ne_nil _ hnil, hlast]
    refine ⟨rfl, _, rfl, fun hempty => ?_⟩
    have hblank := not_blank_of_getLast?_trim hlast
    rw [hempty] at hblank
    cases hblank

theorem directory_ne_empty (h : p.fileName = some n) : p.directory.bytes ≠ [] := by
  obtain ⟨above, habove, -⟩ := parts_of_fileName h
  rcases directory_cases habove with ⟨-, -, hroot⟩ | ⟨-, s, hlast, hs⟩
  · rw [hroot]
    exact List.cons_ne_nil _ _
  · intro hempty
    rw [segments, hempty] at hlast
    cases hlast
    exact hs rfl

theorem segments_directory_child (habove : p.parts.2 = above ++ [n]) (hn : slash ∉ n) :
    (p.directory.child n).segments = (p.anchor.orHere above).lead ++ (trim above ++ [n]) := by
  rcases directory_cases habove with ⟨hanchor, hnil, hroot⟩ | ⟨hsegments, s, hlast, hs⟩
  · rw [hroot, hanchor, hnil]
    show cut (slash :: n) = [] :: [n]
    rw [← cut_of_not_mem hn]
    exact cut_append_slash [] n
  · rw [segments_child hlast hs hn, hsegments, List.append_assoc]

/-- The directory with the last name in it is the path again, with a `.` before it where the path
has no anchor and nothing above the name. -/
theorem directory_child (h : p.fileName = some n) :
    (p.directory.child n).names = p.names ∧ (p.directory.child n).fileName = some n ∧
      ((p.directory.child n).anchor = p.anchor ∨
        p.anchor = .none ∧ (p.directory.child n).anchor = .here) := by
  obtain ⟨above, habove, hdots, hblank, hslash⟩ := parts_of_fileName h
  have hfirst : p.anchor.orHere above = .none →
      ∃ s more, trim above ++ [n] = s :: more ∧ blank s = false := by
    intro ha
    have hnone : p.anchor = .none ∧ trim above ≠ [] := by
      unfold Anchor.orHere at ha
      split_ifs at ha with hor
      exact ⟨ha, fun hnil => hor ⟨ha, hnil⟩⟩
    obtain ⟨-, -, -, hlead⟩ := segments_eq p
    obtain ⟨s, more, hs, hsblank⟩ := hlead hnone.1 (by simp [habove])
    rw [habove] at hs
    cases above with
    | nil => exact absurd rfl hnone.2
    | cons t above =>
      obtain ⟨rfl, -⟩ := List.cons_eq_cons.1 hs
      exact ⟨t, trim above ++ [n], by rw [trim_cons hsblank]; rfl, hsblank⟩
  have hparts : (p.directory.child n).parts = (p.anchor.orHere above, trim above ++ [n]) :=
    parts_of_segments (segments_directory_child habove hslash) hblank hfirst
  refine ⟨?_, ?_, ?_⟩
  · rw [names_eq, names_eq, hparts, habove]
    show visible (trim above ++ [n]) = visible (above ++ [n])
    rw [visible, List.filter_append, ← visible, visible_trim, visible, ← List.filter_append]
    rfl
  · unfold fileName
    simp only [hparts, List.getLast?_concat, if_neg hdots]
  · unfold anchor
    rw [hparts]
    show p.anchor.orHere above = p.anchor ∨ p.anchor = .none ∧ p.anchor.orHere above = .here
    unfold Anchor.orHere
    split_ifs with hor
    · exact .inr ⟨hor.1, rfl⟩
    · exact .inl rfl

end Path

theorem Event.concerns_eq_false {e : Event} {name : String}
    (h : ∀ q ∈ e.paths, ∀ s, q.fileName = some s → Text.lossy s ≠ name) :
    e.concerns name = false := by
  refine List.any_eq_false.2 fun q hq hconcerns => ?_
  obtain ⟨s, hs, hlossy⟩ := (Option.any_eq_true _ _).1 hconcerns
  exact h q hq s hs (of_decide_eq_true hlossy)

/-- The watched directory and the names of events fit together. For every path with a last name,
that name in the watched directory is the path again, with a `.` before it where the path has
neither an anchor nor a directory; and there is always a directory to watch. An event with this path
among its own, or with the path itself, or with any other that has the same last name, concerns the
file; one with no name that reads the same does not. The name that the watcher compares with is the
one that this is said of. -/
theorem watched_directory_fits {p : Path} {name : Bytes} (h : p.fileName = some name) :
    ((p.directory.child name).names = p.names ∧
      ((p.directory.child name).anchor = p.anchor ∨
        p.anchor = .none ∧ (p.directory.child name).anchor = .here)) ∧
    p.directory.bytes ≠ [] ∧
    (∀ e : Event, (p.directory.child name ∈ e.paths ∨ p ∈ e.paths ∨
        ∃ q ∈ e.paths, q.fileName = some name) →
      e.concerns (Watcher.watchedName p) = true) ∧
    (∀ e : Event, (∀ q ∈ e.paths, ∀ s, q.fileName = some s → Text.lossy s ≠ Text.lossy name) →
      e.concerns (Watcher.watchedName p) = false) ∧
    ∀ fs config, (Watcher.start fs p config).Named (Watcher.watchedName p) := by
  obtain ⟨hnames, hchild, hanchor⟩ := Path.directory_child h
  refine ⟨⟨hnames, hanchor⟩, Path.directory_ne_empty h, fun e he => ?_, fun e he => ?_,
    fun fs config => Watcher.named_start⟩
  · have hnamed : ∃ q ∈ e.paths, q.fileName = some name := by
      rcases he with he | he | he
      · exact ⟨_, he, hchild⟩
      · exact ⟨p, he, h⟩
      · exact he
    obtain ⟨q, hq, hqname⟩ := hnamed
    exact Event.names.concerns ⟨q, hq, name, hqname, h⟩
  · refine Event.concerns_eq_false ?_
    rw [Watcher.watchedName, h]
    exact he

namespace Sample

/-- A path with slashes and dots to spare, whose last name is no text. -/
def spelledOut : Path := ⟨Text.encode "logs/.//" ++ [0xFF] ++ Text.encode "/./"⟩

end Sample

theorem watched_directory_fits_spelledOut :
    Sample.spelledOut.fileName = some [0xFF] ∧
      Sample.spelledOut.directory.child [0xFF] = ⟨Text.encode "logs/" ++ [0xFF]⟩ ∧
      (Sample.spelledOut.directory.child [0xFF]).names = Sample.spelledOut.names ∧
      (⟨[.ofString "logs", ⟨Text.encode "logs/" ++ [0xFF]⟩]⟩ : Event).concerns
        (Watcher.watchedName Sample.spelledOut) = true := by
  have hname : Sample.spelledOut.fileName = some [0xFF] := by decide
  have hchild : Sample.spelledOut.directory.child [0xFF] = ⟨Text.encode "logs/" ++ [0xFF]⟩ := by
    decide
  obtain ⟨⟨hnames, -⟩, -, hconcerns, -⟩ := watched_directory_fits hname
  exact ⟨hname, hchild, hnames, hconcerns _ (.inl (by rw [hchild]; simp))⟩

end LogFollower
