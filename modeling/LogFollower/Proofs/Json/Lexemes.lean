import LogFollower.Proofs.Json.Scan

/-!
# Scanning what is well formed

How the scanner comes through the words of the grammar: a string leaves its text (`scans_quotes`), or
a text nobody asks for (`scans_literal`), and a number some number (`scans_number`), which is an
integer if it is written as one (`scans_int`).
-/

namespace LogFollower.Json

open Grammar

variable {cs : List Char}

/-! ## Strings -/

theorem hexValue?_digitChar {n : Nat} (h : n < 16) : hexValue? (Nat.digitChar n) = some n := by
  revert n
  decide

theorem hexValue?_hexDigit {c : Char} {n : Nat} (h : HexDigit c n) : hexValue? c = some n := by
  obtain ⟨hn, rfl | rfl⟩ := h
  · exact hexValue?_digitChar hn
  · revert n
    decide

theorem escaped?_of_mem {e c : Char} (h : (e, c) ∈ shortEscapes) :
    e ≠ 'u' ∧ escaped? e = some c := by
  simp only [shortEscapes, List.mem_cons, Prod.mk.injEq, List.not_mem_nil, or_false] at h
  rcases h with ⟨rfl, rfl⟩ | ⟨rfl, rfl⟩ | ⟨rfl, rfl⟩ | ⟨rfl, rfl⟩ | ⟨rfl, rfl⟩ | ⟨rfl, rfl⟩ |
    ⟨rfl, rfl⟩ | ⟨rfl, rfl⟩ <;> exact ⟨by decide, rfl⟩

section String

variable {c : Char} {n : Nat} (s : Spelled)

theorem leads_plain (hquote : c ≠ '"') (hslash : c ≠ '\\') (hc : ¬ c.toNat < 32) :
    Leads (.string .plain s) [c] (.string .plain (s.push c)) := by
  refine .single fun done => ?_
  rw [scanChar, scanString, if_neg hquote, if_neg hslash, if_neg hc]

theorem leads_short {e : Char} (h : (e, c) ∈ shortEscapes) :
    Leads (.string .plain s) ['\\', e] (.string .plain (s.push c)) := by
  obtain ⟨hu, he⟩ := escaped?_of_mem h
  have hslash : Leads (.string .plain s) ['\\'] (.string .escape s) := .single fun done => rfl
  refine hslash.append (.single fun done => ?_)
  rw [scanChar, scanString, if_neg hu, he]

theorem leads_digit (value : Nat) {owed : Nat} (h : HexDigit c n) (howed : 1 < owed) :
    Leads (.string (.unit owed value) s) [c] (.string (.unit (owed - 1) (value * 16 + n)) s) := by
  refine .single fun done => ?_
  simp only [scanChar, scanString, hexValue?_hexDigit h, if_neg howed.not_ge]

theorem leads_unit (h : CodeUnit cs n) :
    Leads (.string .plain s) cs (.string .plain (s.pushUnit n)) := by
  cases h with
  | @mk a b c d i j k l ha hb hc hd =>
    have hslash : Leads (.string .plain s) ['\\', 'u'] (.string (.unit 4 0) s) :=
      fun rest done => rfl
    have hfirst := leads_digit s 0 ha (by decide : 1 < 4)
    rw [zero_mul, zero_add] at hfirst
    have hsecond := leads_digit s i hb (by decide : 1 < 3)
    have hthird := leads_digit s (i * 16 + j) hc (by decide : 1 < 2)
    have hlast : Leads (.string (.unit 1 ((i * 16 + j) * 16 + k)) s) [d]
        (.string .plain (s.pushUnit (((i * 16 + j) * 16 + k) * 16 + l))) := by
      refine .single fun done => ?_
      simp only [scanChar, scanString, hexValue?_hexDigit hd, if_pos le_rfl]
    exact (((hslash.append hfirst).append hsecond).append hthird).append hlast

theorem leads_piece (h : Piece cs) :
    ∃ s', Leads (.string .plain s) cs (.string .plain s') := by
  cases h with
  | plain hquote hslash hc => exact ⟨_, leads_plain s hquote hslash hc⟩
  | short h => exact ⟨_, leads_short s h⟩
  | unit h => exact ⟨_, leads_unit s h⟩

theorem leads_pieces {pieces : List (List Char)} (h : ∀ p ∈ pieces, Piece p) :
    ∃ s', Leads (.string .plain s) pieces.flatten (.string .plain s') := by
  induction pieces generalizing s with
  | nil => exact ⟨s, .nil _⟩
  | cons p pieces ih =>
    obtain ⟨t, ht⟩ := leads_piece s (h p List.mem_cons_self)
    obtain ⟨u, hu⟩ := ih t fun q hq => h q (List.mem_cons_of_mem p hq)
    exact ⟨u, ht.append hu⟩

/-- The characters between two quotes leave the text that was spelled. -/
theorem scans_string {s : Spelled}
    (h : Leads (.string .plain .empty) cs (.string .plain s)) :
    Scans ('"' :: (cs ++ ['"'])) [.string s.text] := by
  intro rest done _
  have hopen : scanChar .between '"' done = (.string .plain .empty, done) := rfl
  have hclose : scanChar (.string .plain s) '"' done = (.between, .string s.text :: done) := rfl
  rw [List.cons_append, scanFrom_cons, hopen, List.append_assoc, h, List.singleton_append,
    scanFrom_cons, hclose]
  rfl

/-- A string is scanned, whatever it spells. -/
theorem scans_literal (h : Literal cs) : ∃ text, Scans cs [.string text] := by
  obtain ⟨pieces, hpieces, rfl⟩ := h
  obtain ⟨s, hs⟩ := leads_pieces .empty hpieces
  exact ⟨s.text, scans_string hs⟩

theorem leads_spells (acc : List Char) (h : Spells c cs) :
    Leads (.string .plain ⟨acc, none, true⟩) cs (.string .plain ⟨c :: acc, none, true⟩) := by
  have hvalid : c.toNat < 0xD800 ∨ 0xDFFF < c.toNat ∧ c.toNat < 0x110000 := c.valid
  cases h with
  | plain hquote hslash hc => exact leads_plain _ hquote hslash hc
  | short h => exact leads_short _ h
  | unit h =>
    have hunit : Spelled.pushUnit ⟨acc, none, true⟩ c.toNat = ⟨c :: acc, none, true⟩ := by
      unfold Spelled.pushUnit
      rw [if_neg (by omega), if_neg (by omega), Char.ofNat_toNat]
      rfl
    have hlead := leads_unit ⟨acc, none, true⟩ h
    rwa [hunit] at hlead
  | @pair _ high low hc hhigh hlow =>
    have hdiv := Nat.div_add_mod' (c.toNat - 0x10000) 0x400
    have hfirst : Spelled.pushUnit ⟨acc, none, true⟩ (0xD800 + (c.toNat - 0x10000) / 0x400) =
        ⟨acc, some (0xD800 + (c.toNat - 0x10000) / 0x400), true⟩ := by
      unfold Spelled.pushUnit
      rw [if_neg (by omega), if_pos (by omega)]
      rfl
    have hnumber : 0x10000 + (0xD800 + (c.toNat - 0x10000) / 0x400 - 0xD800) * 0x400 +
        (0xDC00 + (c.toNat - 0x10000) % 0x400 - 0xDC00) = c.toNat := by omega
    have hsecond : Spelled.pushUnit ⟨acc, some (0xD800 + (c.toNat - 0x10000) / 0x400), true⟩
        (0xDC00 + (c.toNat - 0x10000) % 0x400) = ⟨c :: acc, none, true⟩ := by
      unfold Spelled.pushUnit
      rw [if_pos (by omega)]
      simp only [hnumber, Char.ofNat_toNat]
    have hlead := leads_unit ⟨acc, none, true⟩ hhigh
    rw [hfirst] at hlead
    have hlead' := leads_unit ⟨acc, some (0xD800 + (c.toNat - 0x10000) / 0x400), true⟩ hlow
    rw [hsecond] at hlead'
    exact hlead.append hlead'

theorem leads_spelled {chars : List Char} {pieces : List (List Char)}
    (h : List.Forall₂ Spells chars pieces) (acc : List Char) :
    Leads (.string .plain ⟨acc, none, true⟩) pieces.flatten
      (.string .plain ⟨chars.reverse ++ acc, none, true⟩) := by
  induction h generalizing acc with
  | nil => exact .nil _
  | @cons c p chars pieces hc _ ih =>
    rw [List.reverse_cons, List.append_assoc]
    exact (leads_spells acc hc).append (ih (c :: acc))

/-- A string is scanned as the text that it spells. -/
theorem scans_quotes {text : String} (h : Quotes text cs) : Scans cs [.string (some text)] := by
  obtain ⟨pieces, hpieces, rfl⟩ := h
  have htext : Spelled.text ⟨text.toList.reverse ++ [], none, true⟩ = some text := by
    simp [Spelled.text]
  have hscan := scans_string (leads_spelled hpieces [])
  rwa [htext] at hscan

end String

/-! ## Words -/

theorem scans_null : Scans ['n', 'u', 'l', 'l'] [.null] := fun _ _ _ => rfl

theorem scans_true : Scans ['t', 'r', 'u', 'e'] [.bool true] := fun _ _ _ => rfl

theorem scans_false : Scans ['f', 'a', 'l', 's', 'e'] [.bool false] := fun _ _ _ => rfl

/-! ## Numbers -/

section Number

variable {c : Char} {state state' : NumberState} (negative : Bool)

theorem leads_next (h : state.next? c = some state') (magnitude : Nat) :
    Leads (.number state negative magnitude) [c]
      (.number state' negative (magnitude * 10 + (c.toNat - 48))) := by
  refine .single fun done => ?_
  simp only [scanChar, h]

/-- Where the digits of a part lead: those before the point, behind it, or of the exponent. -/
def digitState : NumberState → NumberState
  | .point | .fraction => .fraction
  | .exponent | .exponentSign | .exponentDigits => .exponentDigits
  | .minus | .zero | .digits => .digits

theorem digitState_digitState (state : NumberState) :
    digitState (digitState state) = digitState state := by
  cases state <;> rfl

theorem digitState_ne (state : NumberState) :
    digitState state ≠ .minus ∧ digitState state ≠ .zero := by
  cases state <;> exact ⟨by decide, by decide⟩

/-- Only a number that has not begun, or with a zero, is particular about a digit. -/
theorem next?_digit (h : c.isDigit = true) (hminus : state ≠ .minus) (hzero : state ≠ .zero) :
    state.next? c = some (digitState state) := by
  have hplus : c ≠ '+' := by
    rintro rfl
    exact absurd h (by decide)
  have hdash : c ≠ '-' := by
    rintro rfl
    exact absurd h (by decide)
  cases state with
  | minus => exact absurd rfl hminus
  | zero => exact absurd rfl hzero
  | _ => simp [NumberState.next?, digitState, h, hplus, hdash]

theorem leads_digits (state : NumberState) (hminus : state ≠ .minus) (hzero : state ≠ .zero)
    (h : Digits cs) (magnitude : Nat) :
    ∃ magnitude', Leads (.number state negative magnitude) cs
      (.number (digitState state) negative magnitude') := by
  obtain ⟨hne, hdigits⟩ := h
  induction cs generalizing state magnitude with
  | nil => exact absurd rfl hne
  | cons c cs ih =>
    have hc := leads_next negative (next?_digit (hdigits c List.mem_cons_self) hminus hzero)
      magnitude
    by_cases hcs : cs = []
    · subst hcs
      exact ⟨_, hc⟩
    · obtain ⟨hminus', hzero'⟩ := digitState_ne state
      obtain ⟨magnitude', hrest⟩ := ih (digitState state) hminus' hzero'
        (magnitude * 10 + (c.toNat - 48)) hcs fun d hd => hdigits d (List.mem_cons_of_mem c hd)
      rw [digitState_digitState] at hrest
      exact ⟨magnitude', hc.append hrest⟩

/-- The state behind the first digit of a number. -/
def firstState (c : Char) : NumberState := if c = '0' then .zero else .digits

theorem leads_open (h : c.isDigit = true) :
    ∃ magnitude, Leads .between [c] (.number (firstState c) false magnitude) := by
  have hblank : isBlank c = false := by
    by_contra hblank
    simp only [isBlank, Bool.not_eq_false, Bool.or_eq_true, decide_eq_true_eq] at hblank
    rcases hblank with ((rfl | rfl) | rfl) | rfl <;> exact absurd h (by decide)
  have hminus : c ≠ '-' := by
    rintro rfl
    exact absurd h (by decide)
  by_cases hzero : c = '0'
  · subst hzero
    exact ⟨0, .single fun done => rfl⟩
  · refine ⟨c.toNat - 48, .single fun done => ?_⟩
    unfold scanChar scanBetween firstState
    simp [hblank, hminus, hzero, h]

theorem leads_minus (h : c.isDigit = true) :
    ∃ magnitude, Leads (.number .minus true 0) [c] (.number (firstState c) true magnitude) := by
  refine ⟨_, leads_next true ?_ 0⟩
  unfold NumberState.next? firstState
  split_ifs <;> rfl

theorem leads_whole (h : Whole cs)
    (hmode : ∀ c : Char, c.isDigit = true →
      ∃ magnitude, Leads mode [c] (.number (firstState c) negative magnitude)) :
    ∃ state magnitude, (state = .zero ∨ state = .digits) ∧
      Leads mode cs (.number state negative magnitude) := by
  rcases h with rfl | ⟨⟨hne, hdigits⟩, hhead⟩
  · obtain ⟨magnitude, hzero⟩ := hmode '0' rfl
    exact ⟨_, magnitude, .inl rfl, hzero⟩
  · cases cs with
    | nil => exact absurd rfl hne
    | cons c cs =>
      have hzero : c ≠ '0' := by
        rintro rfl
        exact hhead rfl
      obtain ⟨first, hc⟩ := hmode c (hdigits c List.mem_cons_self)
      rw [firstState, if_neg hzero] at hc
      by_cases hcs : cs = []
      · subst hcs
        exact ⟨_, first, .inr rfl, hc⟩
      · obtain ⟨magnitude, hrest⟩ := leads_digits negative .digits (by decide) (by decide)
          ⟨hcs, fun d hd => hdigits d (List.mem_cons_of_mem c hd)⟩ first
        exact ⟨_, magnitude, .inr rfl, hc.append hrest⟩

/-- A fraction, or none, leads to a state that a number may end in and an exponent may follow. -/
theorem leads_fraction (h : Fraction cs) (hstate : state = .zero ∨ state = .digits)
    (magnitude : Nat) :
    ∃ state' magnitude', (state' = .zero ∨ state' = .digits ∨ state' = .fraction) ∧
      Leads (.number state negative magnitude) cs (.number state' negative magnitude') := by
  rcases h with rfl | ⟨ds, hds, rfl⟩
  · exact ⟨state, magnitude, by tauto, .nil _⟩
  · have hpoint : state.next? '.' = some .point := by
      rcases hstate with rfl | rfl <;> rfl
    obtain ⟨magnitude', hdigits⟩ :=
      leads_digits negative .point (by decide) (by decide) hds (magnitude * 10 + ('.'.toNat - 48))
    exact ⟨_, magnitude', .inr (.inr rfl), (leads_next negative hpoint magnitude).append hdigits⟩

theorem leads_exponent (h : Exponent cs)
    (hstate : state = .zero ∨ state = .digits ∨ state = .fraction) (magnitude : Nat) :
    ∃ state' magnitude', state'.complete = true ∧
      Leads (.number state negative magnitude) cs (.number state' negative magnitude') := by
  rcases h with rfl | ⟨e, sign, ds, he, hsign, hds, rfl⟩
  · refine ⟨state, magnitude, ?_, .nil _⟩
    rcases hstate with rfl | rfl | rfl <;> rfl
  · have hnext : state.next? e = some .exponent := by
      rcases hstate with rfl | rfl | rfl <;> rcases he with rfl | rfl <;> rfl
    have hopen := leads_next negative hnext magnitude
    rcases hsign with rfl | hsign
    · obtain ⟨magnitude', hdigits⟩ :=
        leads_digits negative .exponent (by decide) (by decide) hds _
      exact ⟨_, magnitude', rfl, hopen.append hdigits⟩
    · obtain ⟨s, rfl, hs⟩ : ∃ s, sign = [s] ∧ NumberState.next? .exponent s = some .exponentSign := by
        rcases hsign with rfl | rfl <;> exact ⟨_, rfl, rfl⟩
      obtain ⟨magnitude', hdigits⟩ :=
        leads_digits negative .exponentSign (by decide) (by decide) hds _
      exact ⟨_, magnitude', rfl, hopen.append ((leads_next negative hs _).append hdigits)⟩

theorem leads_signed {sign whole : List Char} (hsign : sign = [] ∨ sign = ['-'])
    (h : Whole whole) :
    ∃ state negative magnitude, (state = .zero ∨ state = .digits) ∧
      Leads .between (sign ++ whole) (.number state negative magnitude) := by
  rcases hsign with rfl | rfl
  · obtain ⟨state, magnitude, hstate, hwhole⟩ := leads_whole false h fun _ => leads_open
    exact ⟨state, false, magnitude, hstate, hwhole⟩
  · have hminus : Leads .between ['-'] (.number .minus true 0) := .single fun done => rfl
    obtain ⟨state, magnitude, hstate, hwhole⟩ := leads_whole true h fun _ => leads_minus
    exact ⟨state, true, magnitude, hstate, hminus.append hwhole⟩

end Number

/-- A number is scanned, of any size. -/
theorem scans_number (h : Number cs) : ∃ value, Scans cs [.number value] := by
  obtain ⟨sign, whole, fraction, exponent, hsign, hwhole, hfraction, hexponent, rfl⟩ := h
  obtain ⟨state, negative, m, hstate, hleads⟩ := leads_signed hsign hwhole
  obtain ⟨state', m', hstate', hleads'⟩ := leads_fraction negative hfraction hstate m
  obtain ⟨state'', m'', hcomplete, hleads''⟩ := leads_exponent negative hexponent hstate' m'
  refine ⟨state''.value negative m'', fun rest done hrest => ?_⟩
  rw [← List.append_assoc, hleads.append (hleads'.append hleads'') rest done,
    scanFrom_ends hrest hcomplete]
  rfl

/-! ## Integers -/

/-- The digits of a number lead to its value, if the first one begins it. -/
theorem leads_toDigits {mode : Mode} {negative : Bool}
    (h : ∀ d, 0 < d → d < 10 → Leads mode [Nat.digitChar d] (.number .digits negative d))
    {n : Nat} (hn : 0 < n) : Leads mode (Nat.toDigits 10 n) (.number .digits negative n) := by
  induction n using Nat.strong_induction_on with
  | _ n ih =>
    by_cases hlt : n < 10
    · rw [Nat.toDigits_of_lt_base hlt]
      exact h n hn hlt
    · have hd : n % 10 < 10 := Nat.mod_lt n (by decide)
      have hnext : NumberState.next? .digits (Nat.digitChar (n % 10)) = some .digits := by
        simp [NumberState.next?, Nat.isDigit_digitChar, hd]
      have hlast := leads_next negative hnext (n / 10)
      rw [Nat.toNat_digitChar_sub_48_of_lt_ten hd, Nat.div_add_mod'] at hlast
      rw [Nat.toDigits_of_base_le (by decide) (by omega)]
      exact (ih (n / 10) (by omega) (by omega)).append hlast

theorem leads_digitChar {d : Nat} (hd : 0 < d) (h : d < 10) :
    Leads .between [Nat.digitChar d] (.number .digits false d) ∧
      Leads (.number .minus true 0) [Nat.digitChar d] (.number .digits true d) := by
  interval_cases d <;> exact ⟨.single fun _ => rfl, .single fun _ => rfl⟩

/-- A written integer is scanned as itself. -/
theorem scans_int (n : Int) : Scans (toString n).toList [.number (some n)] := by
  intro rest done hrest
  rw [Int.toString_eq_repr, Int.repr_eq_if]
  obtain hn | rfl | hn := lt_trichotomy n 0
  · have hminus : Leads .between ['-'] (.number .minus true 0) := .single fun _ => rfl
    have hdigits : Leads (.number .minus true 0) (Nat.toDigits 10 (-n).toNat)
        (.number .digits true (-n).toNat) :=
      leads_toDigits (fun d hd h => (leads_digitChar hd h).2) (by omega)
    have hvalue : NumberState.value .digits true (-n).toNat = some n := by
      simp only [NumberState.value, if_true]
      congr 1
      omega
    rw [if_neg (by omega), String.toList_append, Nat.toList_repr]
    show scanFrom (['-'] ++ Nat.toDigits 10 (-n).toNat ++ rest) .between done = _
    rw [hminus.append hdigits, scanFrom_ends hrest rfl, hvalue]
    rfl
  · have hzero : Leads .between ['0'] (.number .zero false 0) := .single fun _ => rfl
    show scanFrom (['0'] ++ rest) .between done = _
    rw [hzero, scanFrom_ends hrest rfl]
    rfl
  · have hdigits : Leads .between (Nat.toDigits 10 n.toNat) (.number .digits false n.toNat) :=
      leads_toDigits (fun d hd h => (leads_digitChar hd h).1) (by omega)
    have hvalue : NumberState.value .digits false n.toNat = some n := by
      simp only [NumberState.value, Bool.false_eq_true, if_false]
      congr 1
      omega
    rw [if_pos (by omega), Nat.toList_repr, hdigits, scanFrom_ends hrest rfl, hvalue]
    rfl

end LogFollower.Json
