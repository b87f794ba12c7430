import LogFollower.Arguments
import Mathlib.Tactic

/-!
# Command lines that are written

A command line with flags, a position and a path is read as just these (`parse_words`). A value that
stands in an argument of its own must not look like an option (`Operand`); a number and the token of
an identity do not, since they begin with a digit.
-/

namespace LogFollower

def Flag.word : Flag → String
  | follow => "--follow"
  | followName => "--follow-name"
  | poll => "--poll"
  | fromStart => "--from-start"
  | showOffsets => "--show-offsets"

def Setting.word : Setting → String
  | pollInterval => "--poll-interval-ms"
  | offset => "--offset"
  | identifier => "--identifier"

namespace Arguments

variable {s : String} {n : Nat}

/-! ## Values -/

/-- An argument that does not look like an option. -/
def Operand (s : String) : Prop := ∀ c rest, s.toList ≠ '-' :: c :: rest

theorem operand_of_isDigit (h : ∀ c ∈ s.toList.head?, c.isDigit = true) : Operand s := by
  intro c rest hs
  rw [hs] at h
  cases h '-' rfl

theorem isDigit_of_mem_toString {c : Char} (h : c ∈ (toString n).toList) : c.isDigit = true := by
  rw [Nat.toString_eq_repr, Nat.toList_repr] at h
  exact Nat.isDigit_of_mem_toDigits (by decide) (by decide) h

theorem operand_toString (n : Nat) : Operand (toString n) :=
  operand_of_isDigit fun _ hc => isDigit_of_mem_toString (List.mem_of_mem_head? hc)

theorem operand_ofObject (device object : Nat) :
    Operand (FileIdentifier.ofObject device object).token := by
  refine operand_of_isDigit fun c hc => ?_
  have hne : (toString device).toList ≠ [] := by
    rw [Nat.toString_eq_repr, Nat.toList_repr]
    exact Nat.toDigits_ne_nil
  unfold FileIdentifier.ofObject at hc
  rw [String.append_assoc, String.toList_append, List.head?_append_of_ne_nil _ hne] at hc
  exact isDigit_of_mem_toString (List.mem_of_mem_head? hc)

/-- A number that is written is read as itself. -/
theorem number?_toString (h : n < 0x10000000000000000) : Scanned.number? (toString n) = some n := by
  have hne : Nat.toDigits 10 n ≠ [] := Nat.toDigits_ne_nil
  have hdigits : (Nat.toDigits 10 n).all Char.isDigit = true :=
    List.all_eq_true.2 fun _ hc => Nat.isDigit_of_mem_toDigits (by decide) (by decide) hc
  have hvalue : (Nat.toDigits 10 n).foldl (fun n c => n * 10 + (c.toNat - 48)) 0 = n := by
    calc (Nat.toDigits 10 n).foldl (fun n c => n * 10 + (c.toNat - 48)) 0
      _ = Nat.ofDigitChars 10 (Nat.toDigits 10 n) 0 := by
        simp only [Nat.ofDigitChars, Nat.mul_comm 10]
        rfl
      _ = n := Nat.ofDigitChars_toDigits (by decide) (by decide)
  unfold Scanned.number?
  rw [Nat.toString_eq_repr, Nat.toList_repr]
  generalize Nat.toDigits 10 n = digits at hne hdigits hvalue
  split
  next _ hplus => cases hdigits
  · simp only [if_pos (And.intro hne hdigits), hvalue, if_pos h]

/-! ## Arguments -/

section Scan

variable {a : Scanned}

theorem argument_flag (h : a.pathsOnly = false) (f : Flag) : a.argument f.word = a.flag f := by
  unfold Scanned.argument
  rw [h, if_neg Bool.false_ne_true]
  cases f <;> rfl

theorem argument_setting (h : a.pathsOnly = false) (setting : Setting) :
    a.argument setting.word =
      a.settle >>= fun a => .ok { a with pending := .value setting none } := by
  unfold Scanned.argument
  rw [h, if_neg Bool.false_ne_true]
  cases setting <;> rfl

theorem argument_operand (h : a.pathsOnly = false) (hs : Operand s) :
    a.argument s =
      match a.pending with
      | .value setting none => .ok { a with pending := .value setting (some s) }
      | _ => a.positional s := by
  unfold Scanned.argument
  rw [h, if_neg Bool.false_ne_true]
  split
  · next hdashes => exact absurd hdashes (hs _ _)
  · next hdashes => exact absurd hdashes (hs _ _)
  · next hdash => exact absurd hdash (hs _ _)
  · rfl

theorem scan_flags {flags : List Flag} (h : a.pathsOnly = false) (hp : a.pending = .none)
    (hn : (flags.reverse ++ a.flags).Nodup) :
    (flags.map Flag.word).foldlM Scanned.argument a =
      .ok { a with flags := flags.reverse ++ a.flags } := by
  induction flags generalizing a with
  | nil => rfl
  | cons f flags ih =>
    rw [List.reverse_cons, List.append_assoc, List.singleton_append] at hn ⊢
    have hfresh : f ∉ a.flags := (List.nodup_cons.1 (List.nodup_append.1 hn).2.1).1
    have hsettle : a.settle = .ok a := by
      unfold Scanned.settle
      rw [hp]
      cases a
      cases hp
      rfl
    have hflag : a.flag f = .ok { a with flags := f :: a.flags } := by
      unfold Scanned.flag
      rw [hsettle]
      exact if_neg (by simpa using hfresh)
    rw [List.map_cons, List.foldlM_cons, argument_flag h, hflag]
    exact ih (a := { a with flags := f :: a.flags }) h hp hn

end Scan

/-! ## Command lines -/

/-- A command line: flags, an offset and the file that it is recorded for, and a path. -/
def words (flags : List Flag) (position : Option (Nat × FileIdentifier)) (path : String) :
    List String :=
  flags.map Flag.word ++
    (match position with
    | none => []
    | some (offset, id) =>
      [Setting.offset.word, toString offset, Setting.identifier.word, id.token]) ++
    [path]

def Scanned.ofFlags (flags : List Flag) : Scanned := { Scanned.empty with flags }

theorem scan_position {flags : List Flag} {offset : Nat} {id : FileIdentifier}
    (ho : offset < 0x10000000000000000) (hid : Operand id.token) :
    [Setting.offset.word, toString offset, Setting.identifier.word, id.token].foldlM
        Scanned.argument (.ofFlags flags) =
      .ok { Scanned.ofFlags flags with
        offset := some offset, pending := .value .identifier (some id.token) } := by
  have hstore : Scanned.settle { Scanned.ofFlags flags with
      pending := .value .offset (some (toString offset)) } =
      .ok { Scanned.ofFlags flags with offset := some offset } := by
    unfold Scanned.settle Scanned.store
    simp only [number?_toString ho]
    rfl
  rw [List.foldlM_cons, argument_setting rfl]
  show [toString offset, Setting.identifier.word, id.token].foldlM Scanned.argument
    { Scanned.ofFlags flags with pending := .value .offset none } = _
  rw [List.foldlM_cons, argument_operand rfl (operand_toString offset)]
  show [Setting.identifier.word, id.token].foldlM Scanned.argument { Scanned.ofFlags flags with
    pending := .value .offset (some (toString offset)) } = _
  rw [List.foldlM_cons, argument_setting rfl, hstore]
  show [id.token].foldlM Scanned.argument { Scanned.ofFlags flags with
    offset := some offset, pending := .value .identifier none } = _
  rw [List.foldlM_cons, argument_operand rfl hid]
  rfl

def Scanned.ofWords (flags : List Flag) (position : Option (Nat × FileIdentifier)) : Scanned :=
  { Scanned.ofFlags flags with
    offset := position.map (·.1), identifier := position.map (·.2.token) }

section Words

variable {flags : List Flag} {position : Option (Nat × FileIdentifier)} {path : String}

/-- A position is given as numbers and names are, and not together with the start of the file. -/
def Written (flags : List Flag) (position : Option (Nat × FileIdentifier)) : Prop :=
  ∀ offset id, position = some (offset, id) →
    Flag.fromStart ∉ flags ∧ offset < 0x10000000000000000 ∧ Operand id.token

theorem scan_words (hflags : flags.Nodup) (hpath : Operand path) (hw : Written flags position) :
    (words flags position path).foldlM Scanned.argument .empty =
      .ok { Scanned.ofWords flags.reverse position with pending := .path path } := by
  have hnodup : (flags.reverse ++ Scanned.empty.flags).Nodup := by
    rwa [Scanned.empty, List.append_nil, List.nodup_reverse]
  have hscan : (flags.map Flag.word).foldlM Scanned.argument .empty =
      .ok (.ofFlags flags.reverse) := by
    rw [scan_flags rfl rfl hnodup, Scanned.empty, List.append_nil]
    rfl
  unfold words
  rw [List.foldlM_append, List.foldlM_append, hscan]
  cases position with
  | none =>
    show [path].foldlM Scanned.argument (.ofFlags flags.reverse) = _
    rw [List.foldlM_cons, argument_operand rfl hpath]
    rfl
  | some p =>
    obtain ⟨-, hoffset, hid⟩ := hw p.1 p.2 rfl
    show ([Setting.offset.word, toString p.1, Setting.identifier.word, p.2.token].foldlM
      Scanned.argument (.ofFlags flags.reverse) >>= [path].foldlM Scanned.argument) = _
    rw [scan_position hoffset hid]
    show [path].foldlM Scanned.argument _ = _
    rw [List.foldlM_cons, argument_operand rfl hpath]
    rfl

/-- A command line is read as what is written in it. -/
theorem parse_words (hflags : flags.Nodup) (hpath : Operand path) (hne : path ≠ "")
    (hw : Written flags position) :
    parse (words flags position path) =
      .ok ⟨path, flags.reverse, none, position.map (·.1), position.map (·.2.token)⟩ := by
  have hsettle : Scanned.settle { Scanned.ofWords flags.reverse position with
      pending := .path path } =
      .ok { Scanned.ofWords flags.reverse position with path := some path } := if_neg hne
  unfold parse
  rw [scan_words hflags hpath hw]
  show (Scanned.settle { Scanned.ofWords flags.reverse position with pending := .path path } >>=
    Scanned.complete) = _
  rw [hsettle]
  show Scanned.complete { Scanned.ofWords flags.reverse position with path := some path } = _
  unfold Scanned.complete
  cases position with
  | none => rfl
  | some p =>
    have hstart : ¬ (flags.reverse.contains Flag.fromStart = true) := by
      rw [List.contains_iff_mem, List.mem_reverse]
      exact (hw p.1 p.2 rfl).1
    exact if_neg fun h => hstart h.2

end Words

end Arguments
end LogFollower
