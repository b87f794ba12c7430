import LogFollower.Json.Value
import LogFollower.Proofs.Json.Lexemes

/-!
# Passing over what is well formed

The tokens of a well-formed value are passed over to the last one, and no further, whatever comes
behind them and whatever brackets they stand in: `Passed`. Elements and members differ in little
more than their brackets, so what stands between brackets is passed over by one induction
(`passed_parts`); a value is by induction on the grammar (`Value.reads`).
-/

namespace LogFollower.Json

open Grammar

/-- What is left behind a value inside open brackets. -/
def leave (rest : List Token) : List Bracket → Option (List Token)
  | [] => some rest
  | stack => skipFrom rest stack .next

variable {cs : List Char} {t : Token} {tokens rest : List Token} {stack stack' : List Bracket} {b : Bracket}
  {expect expect' : Expect}

theorem skipFrom_next (h : skipToken stack expect t = some (.next, stack')) (rest : List Token) :
    skipFrom (t :: rest) stack expect = leave rest stack' := by
  rw [skipFrom, h]
  cases stack' <;> rfl

theorem skipFrom_more (h : skipToken stack expect t = some (expect', stack'))
    (hexpect : expect' ≠ .next) (rest : List Token) :
    skipFrom (t :: rest) stack expect = skipFrom rest stack' expect' := by
  rw [skipFrom, h]
  cases expect' with
  | next => exact absurd rfl hexpect
  | _ => rfl

/-- Tokens that are a value. The first one tells whether it is the only one. -/
structure Passed (tokens : List Token) : Prop where
  begins : ∃ t more, tokens = t :: more ∧
    (t.scalar = true ∧ more = [] ∨ t = .openObject ∨ t = .openArray)
  passes : ∀ rest stack, skipFrom (tokens ++ rest) stack .value = leave rest stack

theorem Passed.skip (h : Passed tokens) (rest : List Token) :
    Json.skip (tokens ++ rest) = some rest := h.passes rest []

theorem passed_scalar (h : t.scalar = true) : Passed [t] := by
  refine ⟨⟨t, [], rfl, .inl ⟨h, rfl⟩⟩, fun rest stack => skipFrom_next ?_ rest⟩
  unfold skipToken
  simp only [h, if_true]

theorem Passed.first (h : Passed tokens) (rest : List Token) (stack : List Bracket) :
    skipFrom (tokens ++ rest) stack .firstValue = leave rest stack := by
  rw [← h.passes rest stack]
  obtain ⟨t, more, rfl, hbegins⟩ := h.begins
  have hclose : t ≠ .closeArray := by
    rintro rfl
    rcases hbegins with ⟨hscalar, -⟩ | h | h
    · cases hscalar
    · cases h
    · cases h
  have htoken : skipToken stack .firstValue t = skipToken stack .value t := by
    cases t <;> first | rfl | exact absurd rfl hclose
  rw [List.cons_append, skipFrom, skipFrom, htoken]

/-! ## Between brackets -/

namespace Bracket

def opening : Bracket → Token
  | object => .openObject
  | array => .openArray

def closing : Bracket → Token
  | object => .closeObject
  | array => .closeArray

def first : Bracket → Expect
  | object => .firstKey
  | array => .firstValue

def part : Bracket → Expect
  | object => .key
  | array => .value

end Bracket

/-- Tokens that are a part of what stands between brackets: a member or an element. -/
structure Part (b : Bracket) (tokens : List Token) : Prop where
  first : ∀ rest stack,
    skipFrom (tokens ++ rest) (b :: stack) b.first = skipFrom rest (b :: stack) .next
  later : ∀ rest stack,
    skipFrom (tokens ++ rest) (b :: stack) b.part = skipFrom rest (b :: stack) .next

theorem Passed.element (h : Passed tokens) : Part .array tokens :=
  ⟨fun rest stack => h.first rest (.array :: stack),
    fun rest stack => h.passes rest (.array :: stack)⟩

theorem Passed.member (h : Passed tokens) (text : Option String) :
    Part .object (.string text :: .colon :: tokens) := by
  have hcolon (rest : List Token) (stack : List Bracket) :
      skipFrom (.colon :: (tokens ++ rest)) (.object :: stack) .colon =
        skipFrom rest (.object :: stack) .next := by
    rw [skipFrom_more rfl (by decide), h.passes]
    rfl
  constructor
  · intro rest stack
    rw [List.cons_append, List.cons_append, skipFrom_more rfl (by decide)]
    exact hcolon rest stack
  · intro rest stack
    rw [List.cons_append, List.cons_append, skipFrom_more rfl (by decide)]
    exact hcolon rest stack

theorem skipFrom_closing (rest : List Token) (stack : List Bracket) :
    skipFrom (b.closing :: rest) (b :: stack) .next = leave rest stack := by
  cases b <;> exact skipFrom_next rfl rest

theorem skipFrom_comma (rest : List Token) (stack : List Bracket) :
    skipFrom (.comma :: rest) (b :: stack) .next = skipFrom rest (b :: stack) b.part := by
  cases b <;> exact skipFrom_more rfl (by decide) rest

/-- Parts with commas between them are a part, and a comma before each further one. -/
theorem intercalate_comma (part : List Token) (parts : List (List Token)) :
    [Token.comma].intercalate (part :: parts) = part ++ parts.flatMap (.comma :: ·) := by
  induction parts generalizing part with
  | nil => simp
  | cons next parts ih =>
    rw [List.intercalate_cons_cons, ih, List.flatMap_cons]
    simp

theorem skipFrom_parts {parts : List (List Token)} (h : ∀ p ∈ parts, Part b p)
    (rest : List Token) (stack : List Bracket) :
    skipFrom (parts.flatMap (.comma :: ·) ++ b.closing :: rest) (b :: stack) .next =
      leave rest stack := by
  induction parts with
  | nil => exact skipFrom_closing rest stack
  | cons p parts ih =>
    have hp := h p List.mem_cons_self
    rw [List.flatMap_cons, List.append_assoc, List.cons_append, skipFrom_comma, hp.later]
    exact ih fun q hq => h q (List.mem_cons_of_mem p hq)

/-- What stands between brackets is passed over with them. -/
theorem passed_parts {parts : List (List Token)} (h : ∀ p ∈ parts, Part b p) :
    Passed (b.opening :: ([Token.comma].intercalate parts ++ [b.closing])) := by
  refine ⟨⟨b.opening, _, rfl, .inr ?_⟩, fun rest stack => ?_⟩
  · cases b
    · exact .inl rfl
    · exact .inr rfl
  have hopen (more : List Token) :
      skipFrom (b.opening :: more) stack .value = skipFrom more (b :: stack) b.first := by
    cases b <;> exact skipFrom_more rfl (by decide) more
  rw [List.cons_append, hopen, List.append_assoc, List.singleton_append]
  cases parts with
  | nil => cases b <;> exact skipFrom_next rfl rest
  | cons p parts =>
    have hp := h p List.mem_cons_self
    rw [intercalate_comma, List.append_assoc, hp.first]
    exact skipFrom_parts (fun q hq => h q (List.mem_cons_of_mem p hq)) rest stack

/-! ## Values -/

theorem reads_scalar (hscan : Scans cs [t]) (ht : t.scalar = true) :
    Scans cs (scanned cs) ∧ Passed (scanned cs) := by
  rw [hscan.eq]
  exact ⟨hscan, passed_scalar ht⟩

theorem scanned_text {p : Padded} (h : Scans p.body (scanned p.body)) :
    Scans p.text (scanned p.text) ∧ scanned p.text = scanned p.body := by
  have heq := h.padded.eq
  rw [heq]
  exact ⟨h.padded, rfl⟩

theorem scanned_entry {m : Padded × Padded} {text : Option String}
    (hkey : Scans m.1.body [.string text]) (h : Scans m.2.body (scanned m.2.body)) :
    Scans (entry m) (scanned (entry m)) ∧
      scanned (entry m) = .string text :: .colon :: scanned m.2.body := by
  have hscan := hkey.padded.mark .colon h.padded
  have heq : scanned (entry m) = .string text :: .colon :: scanned m.2.body := hscan.eq
  rw [heq]
  exact ⟨hscan, rfl⟩

/-- A well-formed value is scanned, and its tokens are passed over, however deep it goes. -/
theorem Grammar.Value.reads (h : Value cs) :
    Scans cs (scanned cs) ∧ Passed (scanned cs) := by
  induction h with
  | null => exact reads_scalar scans_null rfl
  | yes => exact reads_scalar scans_true rfl
  | no => exact reads_scalar scans_false rfl
  | number h =>
    obtain ⟨value, hscan⟩ := scans_number h
    exact reads_scalar hscan rfl
  | string h =>
    obtain ⟨text, hscan⟩ := scans_literal h
    exact reads_scalar hscan rfl
  | @array items inner hinner _ ih =>
    have hitems : ∀ p ∈ items.map Padded.text, Scans p (scanned p) ∧ Part .array (scanned p) := by
      simp only [List.forall_mem_map]
      intro i hi
      obtain ⟨hscan, hpassed⟩ := ih i hi
      obtain ⟨htext, heq⟩ := scanned_text hscan
      rw [← heq] at hpassed
      exact ⟨htext, hpassed.element⟩
    have hscan := (scans_listed hinner fun p hp => (hitems p hp).1).between .openArray .closeArray
    rw [hscan.eq]
    exact ⟨hscan, passed_parts (List.forall_mem_map.mpr fun p hp => (hitems p hp).2)⟩
  | @object members inner hinner hkeys _ ih =>
    have hmembers : ∀ p ∈ members.map entry, Scans p (scanned p) ∧ Part .object (scanned p) := by
      simp only [List.forall_mem_map]
      intro m hm
      obtain ⟨hscan, hpassed⟩ := ih m hm
      obtain ⟨text, hkey⟩ := scans_literal (hkeys m hm)
      obtain ⟨hentry, heq⟩ := scanned_entry hkey hscan
      have hpart := hpassed.member text
      rw [← heq] at hpart
      exact ⟨hentry, hpart⟩
    have hscan :=
      (scans_listed hinner fun p hp => (hmembers p hp).1).between .openObject .closeObject
    rw [hscan.eq]
    exact ⟨hscan, passed_parts (List.forall_mem_map.mpr fun p hp => (hmembers p hp).2)⟩

/-! ## Whole texts -/

/-- The tokens of a member: the text that its key spells, and its value as it is written. -/
def memberTokens (m : String × List Char) : List Token :=
  .string (some m.1) :: .colon :: scanned m.2

theorem scan_eq {text : String} {whole : Padded} (htext : text.toList = whole.text)
    (h : Scans whole.body tokens) : scan text = tokens := by
  unfold scan
  rw [htext]
  exact h.padded.eq

theorem scanned_entries {members : List (String × List Char)} {entries : List (Padded × Padded)}
    (h : List.Forall₂ (fun m e => Quotes m.1 e.1.body ∧ e.2.body = m.2 ∧ Value m.2)
      members entries) :
    (∀ p ∈ entries.map entry, Scans p (scanned p)) ∧
      (entries.map entry).map scanned = members.map memberTokens ∧
      ∀ m ∈ members, Passed (scanned m.2) := by
  induction h with
  | nil => exact ⟨nofun, rfl, nofun⟩
  | @cons m e members entries hm _ ih =>
    obtain ⟨hkey, hbody, hvalue⟩ := hm
    obtain ⟨hscan, hpassed⟩ := hvalue.reads
    rw [← hbody] at hscan
    obtain ⟨hentry, heq⟩ := scanned_entry (scans_quotes hkey) hscan
    rw [hbody] at heq
    obtain ⟨hentries, htokens, hvalues⟩ := ih
    refine ⟨List.forall_mem_cons.mpr ⟨hentry, hentries⟩, ?_,
      List.forall_mem_cons.mpr ⟨hpassed, hvalues⟩⟩
    rw [List.map_cons, List.map_cons, List.map_cons, heq, htokens]
    rfl

/-- An object is scanned member by member. -/
theorem scan_object {members : List (String × List Char)} {text : String}
    (h : ObjectText members text) :
    scan text =
        .openObject :: ([Token.comma].intercalate (members.map memberTokens) ++ [.closeObject]) ∧
      ∀ m ∈ members, Passed (scanned m.2) := by
  obtain ⟨whole, entries, inner, htext, hbody, hinner, hmembers⟩ := h
  obtain ⟨hentries, htokens, hvalues⟩ := scanned_entries hmembers
  have hscan := (scans_listed hinner hentries).between .openObject .closeObject
  rw [← hbody, htokens] at hscan
  exact ⟨scan_eq htext hscan, hvalues⟩

theorem scan_array {values : List (List Char)} {text : String} (h : ArrayText values text) :
    scan text =
        .openArray :: ([Token.comma].intercalate (values.map scanned) ++ [.closeArray]) ∧
      ∀ v ∈ values, Passed (scanned v) := by
  obtain ⟨whole, items, inner, htext, hbody, hinner, rfl, hvalues⟩ := h
  have hitems : ∀ i ∈ items, Scans i.text (scanned i.text) ∧ scanned i.text = scanned i.body :=
    fun i hi => scanned_text (hvalues i.body (List.mem_map_of_mem hi)).reads.1
  have htokens : (items.map Padded.text).map scanned = (items.map Padded.body).map scanned := by
    rw [List.map_map, List.map_map]
    exact List.map_congr_left fun i hi => (hitems i hi).2
  have hscan := (scans_listed hinner (List.forall_mem_map.mpr fun i hi => (hitems i hi).1)).between
    .openArray .closeArray
  rw [← hbody, htokens] at hscan
  exact ⟨scan_eq htext hscan, fun v hv => (hvalues v hv).reads.2⟩

end LogFollower.Json
