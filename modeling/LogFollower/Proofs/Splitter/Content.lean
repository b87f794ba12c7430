import LogFollower.Splitter
import Mathlib.Tactic

/-!
# The text of a piece

A piece ends in a line feed or it does not; `Strips` says what its line is in both cases, and
`strips_content` that `Piece.content` is that line. The text is what is read from the line by
repair. Repair makes characters of bytes, but no line break where there is no line feed
(`not_mem_lossy`): what takes more than one byte is beyond the characters of one byte
(`Begun.Wide`).
-/

namespace LogFollower

/-- A line without its end: a line feed, with one carriage return before it if there is one. Bytes
that do not end in a line feed are a line as they are. -/
inductive Strips : Bytes → Bytes → Prop
  | crlf (line : Bytes) : Strips (line ++ [carriageReturn, lineFeed]) line
  | lf {line : Bytes} (h : line.getLast? ≠ some carriageReturn) : Strips (line ++ [lineFeed]) line
  | none {line : Bytes} (h : line.getLast? ≠ some lineFeed) : Strips line line

theorem dropLast_append_of_getLast? {bytes : Bytes} {b : UInt8} (h : bytes.getLast? = some b) :
    bytes.dropLast ++ [b] = bytes := by
  obtain ⟨init, rfl⟩ := List.getLast?_eq_some_iff.1 h
  rw [List.dropLast_concat]

theorem strips_content (p : Piece) : Strips p.bytes p.content := by
  unfold Piece.content Piece.terminated
  by_cases ht : p.bytes.getLast? = some lineFeed
  · simp only [ht, decide_true, if_true]
    have hl := dropLast_append_of_getLast? ht
    by_cases hc : p.bytes.dropLast.getLast? = some carriageReturn
    · rw [if_pos hc]
      have hr := dropLast_append_of_getLast? hc
      have := Strips.crlf p.bytes.dropLast.dropLast
      rwa [List.append_cons, hr, hl] at this
    · rw [if_neg hc]
      have := Strips.lf hc
      rwa [hl] at this
  · simp only [ht, decide_false, Bool.false_eq_true, if_false]
    exact .none ht

/-! ## Line breaks -/

namespace Text

/-- A begun character is not one that is written with a single byte, whatever bytes end it. -/
def Begun.Wide (s : Begun) : Prop :=
  (2 ≤ s.bits ∨ 2 ≤ s.owed) ∧
    ∀ b : UInt8, s.low ≤ b → b ≤ s.high → 2 ≤ s.bits * 64 + b.toNat % 64

theorem wide_of_bits {bits owed : Nat} {low high : UInt8} (hb : 2 ≤ bits ∨ 2 ≤ owed)
    (h : 1 ≤ bits) : (⟨bits, owed, low, high⟩ : Begun).Wide :=
  ⟨hb, fun b _ _ => by dsimp only; omega⟩

theorem wide_of_low {bits owed : Nat} {low : UInt8} (ho : 2 ≤ owed) (h : 0x90 ≤ low.toNat) :
    (⟨bits, owed, low, 0xBF⟩ : Begun).Wide := by
  refine ⟨.inr ho, fun b hl hh => ?_⟩
  have hl' := UInt8.le_iff_toNat_le.1 hl
  have hh' : b.toNat ≤ 0xBF := UInt8.le_iff_toNat_le.1 hh
  dsimp only at hl' ⊢
  omega

theorem wide_of_lead {b : UInt8} {s : Begun} (h : lead b = .begun s) : s.Wide := by
  have toNat_ne {c : UInt8} (h : b ≠ c) : b.toNat ≠ c.toNat := fun e => h (UInt8.toNat_inj.1 e)
  unfold lead at h
  simp only [UInt8.lt_iff_toNat_lt, UInt8.reduceToNat] at h
  split_ifs at h with h80 hC2 hE0 hE0' hED hF0 hF0' hF4 hF4' <;> cases h
  · exact wide_of_bits (.inl (by omega)) (by omega)
  · exact wide_of_low (by decide) (by decide)
  · exact wide_of_bits (.inl (by decide)) (by decide)
  · have := toNat_ne hE0'
    simp only [UInt8.reduceToNat] at this
    exact wide_of_bits (.inr (by decide)) (by omega)
  · exact wide_of_low (by decide) (by decide)
  · have := toNat_ne hF0'
    simp only [UInt8.reduceToNat] at this
    exact wide_of_bits (.inr (by decide)) (by omega)
  · exact wide_of_bits (.inl (by decide)) (by decide)

theorem eq_of_ofNat {n : Nat} (h : Char.ofNat n = '\n') : n = 10 := by
  by_cases hv : n.isValidChar
  · rw [Char.ofNat, dif_pos hv] at h
    exact congrArg Char.toNat h
  · rw [Char.ofNat, dif_neg hv] at h
    exact absurd (congrArg Char.toNat h) (by decide)

/-- A byte between two characters gives a line break only if it is one. -/
theorem readLead_newline {b : UInt8} {done : List Char} (h : '\n' ∈ (readLead b done).2) :
    b = lineFeed ∨ '\n' ∈ done := by
  unfold readLead at h
  cases hb : lead b with
  | begun s => rw [hb] at h; exact .inr h
  | refused => rw [hb] at h; exact .inr ((List.mem_cons.1 h).resolve_left (by decide))
  | whole c =>
    rw [hb] at h
    refine (List.mem_cons.1 h).imp_left fun hc => ?_
    unfold lead at hb
    split_ifs at hb
    cases hb
    exact UInt8.toNat_inj.1 (eq_of_ofNat hc.symm)

theorem readByte_newline {state : Option Begun} {b : UInt8} {done : List Char}
    (hs : ∀ s, state = some s → s.Wide) (h : '\n' ∈ (readByte state b done).2) :
    b = lineFeed ∨ '\n' ∈ done := by
  cases state with
  | none => exact readLead_newline h
  | some s =>
    simp only [readByte] at h
    split_ifs at h with hb ho
    · have hwide := hs s rfl
      right
      refine (List.mem_cons.1 h).resolve_left fun hc => ?_
      have hbits := eq_of_ofNat hc.symm
      have := hwide.1.resolve_right (by omega)
      omega
    · exact .inr h
    · exact (readLead_newline h).imp_right fun h => (List.mem_cons.1 h).resolve_left (by decide)

theorem wide_readByte {state : Option Begun} {b : UInt8} {done : List Char}
    (hs : ∀ s, state = some s → s.Wide) : ∀ s, (readByte state b done).1 = some s → s.Wide := by
  have of_lead (done : List Char) : ∀ s, (readLead b done).1 = some s → s.Wide := by
    intro s h
    unfold readLead at h
    cases hb : lead b with
    | begun s' => rw [hb] at h; exact Option.some.inj h ▸ wide_of_lead hb
    | whole c => rw [hb] at h; cases h
    | refused => rw [hb] at h; cases h
  cases state with
  | none => exact of_lead done
  | some s =>
    simp only [readByte]
    split_ifs with hb ho
    · exact nofun
    · rintro _ ⟨⟩
      have := (hs s rfl).2 b hb.1 hb.2
      exact wide_of_bits (.inl this) (by omega)
    · exact of_lead _

theorem mem_decodeFrom {bytes : Bytes} {state : Option Begun} {done : List Char}
    (hs : ∀ s, state = some s → s.Wide) (h : '\n' ∈ decodeFrom bytes state done) :
    lineFeed ∈ bytes ∨ '\n' ∈ done := by
  induction bytes generalizing state done with
  | nil =>
    right
    cases state with
    | none => exact List.mem_reverse.1 h
    | some s => exact (List.mem_cons.1 (List.mem_reverse.1 h)).resolve_left (by decide)
  | cons b bytes ih =>
    obtain hm | hm := ih (wide_readByte hs) h
    · exact .inl (List.mem_cons_of_mem b hm)
    · refine (readByte_newline hs hm).imp_left fun hb => ?_
      rw [hb]
      exact List.mem_cons_self

/-- A text has no line break where its bytes have no line feed. -/
theorem not_mem_lossy {bytes : Bytes} (h : lineFeed ∉ bytes) : '\n' ∉ (lossy bytes).toList := by
  intro hm
  unfold lossy at hm
  rw [String.toList_ofList] at hm
  obtain hb | hd := mem_decodeFrom (fun _ hs => by cases hs) hm
  · exact h hb
  · cases hd

end Text

theorem Strips.not_mem {bytes line : Bytes} (h : Strips bytes line)
    (hf : lineFeed ∉ bytes.dropLast) : lineFeed ∉ line := by
  cases h with
  | crlf =>
    rw [List.append_cons, List.dropLast_concat] at hf
    exact fun hm => hf (List.mem_append_left _ hm)
  | lf => rwa [List.dropLast_concat] at hf
  | none hl =>
    intro hm
    obtain rfl | ⟨init, b, rfl⟩ := List.eq_nil_or_concat bytes
    · cases hm
    · rw [List.concat_eq_append] at hf hl hm
      rw [List.dropLast_concat] at hf
      obtain hm | hm := List.mem_append.1 hm
      · exact hf hm
      · exact hl (by rw [List.mem_singleton.1 hm, List.getLast?_concat])

end LogFollower
