import LogFollower.Json.Token
import LogFollower.Proofs.Json.Grammar

/-!
# Scanning part by part

The scanner keeps nothing but its mode and the tokens so far, so what it does with a text is what it
does with the parts of it, one behind another. `Leads` is for parts that leave no token, and `Scans`
for those that leave some. A number ends only where something else comes (`scanFrom_ends`), so
`Scans` has to say what may stand behind a part.
-/

namespace LogFollower.Json

open Grammar

@[simp] theorem scanFrom_cons (c : Char) (rest : List Char) (mode : Mode) (done : List Token) :
    scanFrom (c :: rest) mode done =
      scanFrom rest (scanChar mode c done).1 (scanChar mode c done).2 := rfl

/-! ## The end of a number -/

/-- The characters that no number goes on with. -/
def endsNumber (c : Char) : Bool := !c.isDigit && c ≠ '.' && c ≠ 'e' && c ≠ 'E'

def endsBefore : List Char → Bool
  | [] => true
  | c :: _ => endsNumber c

theorem next?_eq_none {c : Char} (h : endsNumber c = true) {state : NumberState}
    (hs : state.complete = true) : state.next? c = none := by
  simp only [endsNumber, Bool.and_eq_true, Bool.not_eq_true', decide_eq_true_eq] at h
  obtain ⟨⟨⟨hdigit, hpoint⟩, he⟩, hE⟩ := h
  cases state with
  | zero => simp [NumberState.next?, NumberState.next?.fractional, NumberState.next?.exponential, *]
  | digits =>
    simp [NumberState.next?, NumberState.next?.fractional, NumberState.next?.exponential, *]
  | fraction => simp [NumberState.next?, NumberState.next?.exponential, *]
  | exponentDigits => simp [NumberState.next?, hdigit]
  | _ => cases hs

/-- A number that is complete ends where something else comes, or nothing. -/
theorem scanFrom_ends {rest : List Char} (h : endsBefore rest = true) {state : NumberState}
    (hs : state.complete = true) (negative : Bool) (magnitude : Nat) (done : List Token) :
    scanFrom rest (.number state negative magnitude) done =
      scanFrom rest .between (.number (state.value negative magnitude) :: done) := by
  cases rest with
  | nil => exact if_pos hs
  | cons c rest =>
    have hc : endsNumber c = true := h
    have hdigit : c.isDigit = false := by
      simp only [endsNumber, Bool.and_eq_true, Bool.not_eq_true'] at hc
      exact hc.1.1.1
    rw [scanFrom_cons, scanFrom_cons]
    simp [scanChar, next?_eq_none hc hs, hdigit, hs]

/-! ## Parts of a text -/

/-- Characters that take the scanner from one mode to another, and leave no token. -/
def Leads (mode : Mode) (cs : List Char) (mode' : Mode) : Prop :=
  ∀ rest done, scanFrom (cs ++ rest) mode done = scanFrom rest mode' done

/-- The tokens that characters leave. -/
def Scans (cs : List Char) (tokens : List Token) : Prop :=
  ∀ rest done, endsBefore rest = true →
    scanFrom (cs ++ rest) .between done = scanFrom rest .between (tokens.reverse ++ done)

def scanned (cs : List Char) : List Token := scanFrom cs .between []

variable {cs ds : List Char} {mode mode' mode'' : Mode} {tokens : List Token}

theorem Scans.eq (h : Scans cs tokens) : scanned cs = tokens := by
  have hend := h [] [] rfl
  rw [List.append_nil, List.append_nil] at hend
  unfold scanned
  rw [hend]
  exact List.reverse_reverse tokens

theorem Leads.nil (mode : Mode) : Leads mode [] mode := fun _ _ => rfl

theorem Leads.append (h : Leads mode cs mode') (h' : Leads mode' ds mode'') :
    Leads mode (cs ++ ds) mode'' := by
  intro rest done
  rw [List.append_assoc, h, h']

theorem Leads.cons {c : Char} (h : ∀ done, scanChar mode c done = (mode', done))
    (h' : Leads mode' ds mode'') : Leads mode (c :: ds) mode'' := by
  intro rest done
  rw [List.cons_append, scanFrom_cons, h, h']

theorem Leads.single {c : Char} (h : ∀ done, scanChar mode c done = (mode', done)) :
    Leads mode [c] mode' := .cons h (.nil mode')

/-! ## White space and brackets -/

theorem eq_of_blank {c : Char} (h : Blank (c :: cs)) :
    c = ' ' ∨ c = '\t' ∨ c = '\n' ∨ c = '\r' := by
  simpa using h c List.mem_cons_self

theorem leads_blank (h : Blank cs) : Leads .between cs .between := by
  induction cs with
  | nil => exact .nil _
  | cons c cs ih =>
    refine .cons (fun done => ?_) (ih fun d hd => h d (List.mem_cons_of_mem c hd))
    rcases eq_of_blank h with rfl | rfl | rfl | rfl <;> rfl

theorem endsBefore_append (h : Blank cs) {rest : List Char} (hrest : endsBefore rest = true) :
    endsBefore (cs ++ rest) = true := by
  cases cs with
  | nil => exact hrest
  | cons c cs => rcases eq_of_blank h with rfl | rfl | rfl | rfl <;> rfl

theorem Scans.padded {p : Padded} (h : Scans p.body tokens) : Scans p.text tokens := by
  intro rest done hrest
  unfold Padded.text
  rw [List.append_assoc, leads_blank p.blank_before, List.append_assoc,
    h _ _ (endsBefore_append p.blank_after hrest), leads_blank p.blank_after]

/-- A mark that is a token by itself. -/
inductive Mark : Char → Token → Prop
  | openObject : Mark '\x7b' .openObject
  | closeObject : Mark '\x7d' .closeObject
  | openArray : Mark '[' .openArray
  | closeArray : Mark ']' .closeArray
  | comma : Mark ',' .comma
  | colon : Mark ':' .colon

theorem Mark.scanChar {c : Char} {t : Token} (h : Mark c t) (done : List Token) :
    Json.scanChar .between c done = (.between, t :: done) := by
  cases h <;> rfl

theorem Mark.endsBefore {c : Char} {t : Token} (h : Mark c t) (rest : List Char) :
    endsBefore (c :: rest) = true := by
  cases h <;> rfl

theorem Scans.mark {c : Char} {t : Token} {tokens' : List Token} (h : Scans cs tokens)
    (hmark : Mark c t) (h' : Scans ds tokens') : Scans (cs ++ c :: ds) (tokens ++ t :: tokens') := by
  intro rest done hrest
  rw [List.append_assoc, List.cons_append, h _ _ (hmark.endsBefore _), scanFrom_cons,
    hmark.scanChar, h' _ _ hrest]
  simp

theorem scans_nil : Scans [] [] := fun _ _ _ => rfl

theorem scans_blank (h : Blank cs) : Scans cs [] := fun _ _ _ => leads_blank h _ _

theorem Scans.between {c d : Char} {t u : Token} (h : Scans cs tokens) (hopen : Mark c t)
    (hclose : Mark d u) : Scans (c :: (cs ++ [d])) (t :: (tokens ++ [u])) :=
  scans_nil.mark hopen (h.mark hclose scans_nil)

theorem scans_commas {parts : List (List Char)} (h : ∀ p ∈ parts, Scans p (scanned p))
    (hne : parts ≠ []) :
    Scans (commas parts) ([Token.comma].intercalate (parts.map scanned)) := by
  induction parts with
  | nil => exact absurd rfl hne
  | cons p parts ih =>
    have hp := h p List.mem_cons_self
    unfold commas
    cases parts with
    | nil =>
      rw [List.map_singleton, List.intercalate_singleton, List.intercalate_singleton]
      exact hp
    | cons q more =>
      have hmore := ih (fun r hr => h r (List.mem_cons_of_mem p hr)) (List.cons_ne_nil q more)
      have hboth := hp.mark .comma hmore
      simpa [commas, List.intercalate_cons_cons] using hboth

theorem scans_listed {parts : List (List Char)} (hinner : Listed parts cs)
    (h : ∀ p ∈ parts, Scans p (scanned p)) :
    Scans cs ([Token.comma].intercalate (parts.map scanned)) := by
  cases hinner with
  | empty hblank => exact scans_blank hblank
  | parts hne => exact scans_commas h hne

end LogFollower.Json
