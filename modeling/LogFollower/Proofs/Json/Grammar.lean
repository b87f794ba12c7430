import Mathlib.Tactic

/-!
# The grammar of JSON

What a JSON text is, said without the scanner. `Quotes` ties a string to the text that it spells,
with every escape there is; `Literal` is a string that need not spell a text, since half a pair may
stand alone in it. `Value` is a value nested to any depth. `ObjectText` and `ArrayText` are whole
texts with the members or the values that they are made of, each as it is written.

White space may stand around everything: `Padded` carries it.
-/

namespace LogFollower.Json.Grammar

def Blank (cs : List Char) : Prop := ∀ c ∈ cs, c ∈ [' ', '\t', '\n', '\r']

instance : DecidablePred Blank := fun cs => List.decidableBAll _ cs

/-! ## Strings -/

/-- The short escapes: what stands behind the backslash, and the character that is meant. -/
def shortEscapes : List (Char × Char) :=
  [('"', '"'), ('\\', '\\'), ('/', '/'), ('b', '\x08'), ('f', '\x0c'), ('n', '\n'), ('r', '\r'),
    ('t', '\t')]

/-- A digit in base sixteen, small or large, and its value. -/
def HexDigit (c : Char) (n : Nat) : Prop :=
  n < 16 ∧ (c = Nat.digitChar n ∨ c = (Nat.digitChar n).toUpper)

/-- A code unit, in four digits. -/
inductive CodeUnit : List Char → Nat → Prop
  | mk {a b c d : Char} {i j k l : Nat} (ha : HexDigit a i) (hb : HexDigit b j)
      (hc : HexDigit c k) (hd : HexDigit d l) :
      CodeUnit ['\\', 'u', a, b, c, d] (((i * 16 + j) * 16 + k) * 16 + l)

/-- The ways to write a character in a string. -/
inductive Spells : Char → List Char → Prop
  | plain {c : Char} (hquote : c ≠ '"') (hslash : c ≠ '\\') (hc : ¬ c.toNat < 32) : Spells c [c]
  | short {e c : Char} (h : (e, c) ∈ shortEscapes) : Spells c ['\\', e]
  | unit {c : Char} {cs : List Char} (h : CodeUnit cs c.toNat) : Spells c cs
  /-- A character beyond the first plane, as the two halves of a pair. -/
  | pair {c : Char} {high low : List Char} (hc : 0x10000 ≤ c.toNat)
      (hhigh : CodeUnit high (0xD800 + (c.toNat - 0x10000) / 0x400))
      (hlow : CodeUnit low (0xDC00 + (c.toNat - 0x10000) % 0x400)) : Spells c (high ++ low)

/-- A string that spells a text. -/
def Quotes (text : String) (cs : List Char) : Prop :=
  ∃ pieces, List.Forall₂ Spells text.toList pieces ∧ cs = '"' :: (pieces.flatten ++ ['"'])

/-- A text may be written as it is, if none of its characters needs an escape. -/
theorem quotes_plain {text : String}
    (h : text.toList.all (fun c => c ≠ '"' ∧ c ≠ '\\' ∧ ¬ c.toNat < 32) = true) :
    Quotes text ('"' :: (text.toList ++ ['"'])) := by
  refine ⟨text.toList.map ([·]), ?_, by rw [← List.flatMap_def, List.flatMap_singleton']⟩
  rw [List.forall₂_map_right_iff, List.forall₂_same]
  intro c hc
  obtain ⟨hquote, hslash, hc⟩ := of_decide_eq_true (List.all_eq_true.mp h c hc)
  exact .plain hquote hslash hc

/-- A piece of a string, whatever it spells. -/
inductive Piece : List Char → Prop
  | plain {c : Char} (hquote : c ≠ '"') (hslash : c ≠ '\\') (hc : ¬ c.toNat < 32) : Piece [c]
  | short {e c : Char} (h : (e, c) ∈ shortEscapes) : Piece ['\\', e]
  | unit {cs : List Char} {n : Nat} (h : CodeUnit cs n) : Piece cs

/-- A string, whatever it spells. -/
def Literal (cs : List Char) : Prop :=
  ∃ pieces : List (List Char), (∀ p ∈ pieces, Piece p) ∧ cs = '"' :: (pieces.flatten ++ ['"'])

theorem Spells.pieces {c : Char} {cs : List Char} (h : Spells c cs) :
    ∃ pieces : List (List Char), (∀ p ∈ pieces, Piece p) ∧ pieces.flatten = cs := by
  cases h with
  | plain hquote hslash hc =>
    exact ⟨[_], List.forall_mem_singleton.mpr (.plain hquote hslash hc), List.flatten_singleton⟩
  | short h => exact ⟨[_], List.forall_mem_singleton.mpr (.short h), List.flatten_singleton⟩
  | unit h => exact ⟨[_], List.forall_mem_singleton.mpr (.unit h), List.flatten_singleton⟩
  | @pair _ high low _ hhigh hlow =>
    refine ⟨[high, low], List.forall_mem_cons.mpr ⟨.unit hhigh, ?_⟩, by simp⟩
    exact List.forall_mem_singleton.mpr (.unit hlow)

theorem Quotes.literal {text : String} {cs : List Char} (h : Quotes text cs) : Literal cs := by
  obtain ⟨spelled, hspelled, rfl⟩ := h
  have hpieces : ∃ pieces : List (List Char), (∀ p ∈ pieces, Piece p) ∧
      pieces.flatten = spelled.flatten := by
    generalize text.toList = chars at hspelled
    induction hspelled with
    | nil => exact ⟨[], nofun, rfl⟩
    | @cons c cs chars spelled hc _ ih =>
      obtain ⟨first, hfirst, heq⟩ := hc.pieces
      obtain ⟨more, hmore, hrest⟩ := ih
      refine ⟨first ++ more, fun p hp => ?_, ?_⟩
      · rcases List.mem_append.mp hp with hp | hp
        · exact hfirst p hp
        · exact hmore p hp
      · rw [List.flatten_append, List.flatten_cons, heq, hrest]
  obtain ⟨pieces, hall, heq⟩ := hpieces
  exact ⟨pieces, hall, by rw [heq]⟩

/-! ## Numbers -/

def Digits (cs : List Char) : Prop := cs ≠ [] ∧ ∀ c ∈ cs, c.isDigit = true

/-- The whole part of a number: a zero, or digits that begin with none. -/
def Whole (cs : List Char) : Prop := cs = ['0'] ∨ Digits cs ∧ cs.head? ≠ some '0'

def Fraction (cs : List Char) : Prop := cs = [] ∨ ∃ ds, Digits ds ∧ cs = '.' :: ds

def Exponent (cs : List Char) : Prop :=
  cs = [] ∨ ∃ e sign ds, (e = 'e' ∨ e = 'E') ∧ (sign = [] ∨ sign = ['+'] ∨ sign = ['-']) ∧
    Digits ds ∧ cs = e :: (sign ++ ds)

/-- A number, of any size. -/
def Number (cs : List Char) : Prop :=
  ∃ sign whole fraction exponent, (sign = [] ∨ sign = ['-']) ∧ Whole whole ∧ Fraction fraction ∧
    Exponent exponent ∧ cs = sign ++ (whole ++ (fraction ++ exponent))

/-- Digits begin with a zero only if there is nothing else. -/
theorem head?_toDigits {n : Nat} (hn : 0 < n) : (Nat.toDigits 10 n).head? ≠ some '0' := by
  induction n using Nat.strong_induction_on with
  | _ n ih =>
    by_cases hlt : n < 10
    · rw [Nat.toDigits_of_lt_base hlt]
      interval_cases n <;> decide
    · have hhead := ih (n / 10) (by omega) (by omega)
      rw [Nat.toDigits_of_base_le (by decide) (by omega),
        List.head?_append_of_ne_nil _ Nat.toDigits_ne_nil]
      exact hhead

theorem whole_toDigits (n : Nat) : Whole (Nat.toDigits 10 n) := by
  rcases Nat.eq_zero_or_pos n with rfl | hn
  · exact .inl rfl
  · have hdigits : ∀ c ∈ Nat.toDigits 10 n, c.isDigit = true := fun c hc =>
      Nat.isDigit_of_mem_toDigits (by decide) (by decide) hc
    exact .inr ⟨⟨Nat.toDigits_ne_nil, hdigits⟩, head?_toDigits hn⟩

theorem number_int (n : Int) : Number (toString n).toList := by
  rw [Int.toString_eq_repr, Int.repr_eq_if]
  split_ifs
  · refine ⟨[], Nat.toDigits 10 n.toNat, [], [], .inl rfl, whole_toDigits _, .inl rfl, .inl rfl, ?_⟩
    rw [Nat.toList_repr]
    simp
  · refine ⟨['-'], Nat.toDigits 10 (-n).toNat, [], [], .inr rfl, whole_toDigits _, .inl rfl,
      .inl rfl, ?_⟩
    rw [String.toList_append, Nat.toList_repr]
    simp

/-! ## Values -/

/-- Characters with white space around them. -/
structure Padded where
  before : List Char
  body : List Char
  after : List Char
  blank_before : Blank before
  blank_after : Blank after

def Padded.bare (cs : List Char) : Padded := ⟨[], cs, [], nofun, nofun⟩

def Padded.text (p : Padded) : List Char := p.before ++ (p.body ++ p.after)

/-- A key and a value with a colon between them. -/
def entry (m : Padded × Padded) : List Char := m.1.text ++ ':' :: m.2.text

def commas (parts : List (List Char)) : List Char := [','].intercalate parts

/-- What stands between brackets: parts with commas between them, and white space if there are
none. -/
inductive Listed : List (List Char) → List Char → Prop
  | empty {blank : List Char} (h : Blank blank) : Listed [] blank
  | parts {parts : List (List Char)} (h : parts ≠ []) : Listed parts (commas parts)

inductive Value : List Char → Prop
  | null : Value ['n', 'u', 'l', 'l']
  | yes : Value ['t', 'r', 'u', 'e']
  | no : Value ['f', 'a', 'l', 's', 'e']
  | number {cs : List Char} (h : Number cs) : Value cs
  | string {cs : List Char} (h : Literal cs) : Value cs
  | array {items : List Padded} {inner : List Char} (hinner : Listed (items.map Padded.text) inner)
      (h : ∀ i ∈ items, Value i.body) : Value ('[' :: (inner ++ [']']))
  | object {members : List (Padded × Padded)} {inner : List Char}
      (hinner : Listed (members.map entry) inner) (hkeys : ∀ m ∈ members, Literal m.1.body)
      (h : ∀ m ∈ members, Value m.2.body) : Value ('\x7b' :: (inner ++ ['\x7d']))

/-! ## Whole texts -/

/-- A text that is an array of values, in their order and as they are written. -/
def ArrayText (values : List (List Char)) (text : String) : Prop :=
  ∃ (whole : Padded) (items : List Padded) (inner : List Char), text.toList = whole.text ∧
    whole.body = '[' :: (inner ++ [']']) ∧ Listed (items.map Padded.text) inner ∧
    items.map Padded.body = values ∧ ∀ v ∈ values, Value v

/-- A text that is an object with members, in their order: the texts that the keys spell, and the
values as they are written. -/
def ObjectText (members : List (String × List Char)) (text : String) : Prop :=
  ∃ (whole : Padded) (entries : List (Padded × Padded)) (inner : List Char),
    text.toList = whole.text ∧ whole.body = '\x7b' :: (inner ++ ['\x7d']) ∧
    Listed (entries.map entry) inner ∧
    List.Forall₂ (fun m e => Quotes m.1 e.1.body ∧ e.2.body = m.2 ∧ Value m.2) members entries

end LogFollower.Json.Grammar
