import LogFollower.Text.Utf8
import Mathlib.Tactic

/-!
# Text that was encoded

The reader is a left inverse of the writer: what a text is encoded as needs no repair and is read as
that text (`text?_encode`). A character is one to four bytes. Behind the first of them the reader
has begun the character, and knows what its second byte may be; each further byte adds six bits.
-/

namespace LogFollower.Text

variable {v : Nat} {done : List Char}

theorem toNat_ofNat_of_lt {n : Nat} (h : n < 256) : (UInt8.ofNat n).toNat = n := by
  rw [UInt8.toNat_ofNat']
  exact Nat.mod_eq_of_lt h

theorem decodeFrom_cons (b : UInt8) (rest : Bytes) (state : Option Begun) (done : List Char) :
    decodeFrom (b :: rest) state done =
      decodeFrom rest (readByte state b done).1 (readByte state b done).2 := rfl

/-! ## First bytes -/

theorem lead_one (h : v < 0x80) : lead (UInt8.ofNat v) = .whole (Char.ofNat v) := by
  have hb : (UInt8.ofNat v).toNat = v := toNat_ofNat_of_lt (by omega)
  unfold lead
  rw [if_pos (UInt8.lt_iff_toNat_lt.2 (by rw [hb]; exact h)), hb]

theorem lead_two (h : 0x80 ≤ v) (h' : v < 0x800) :
    lead (UInt8.ofNat (v / 64 % 32 + 192)) = .begun ⟨v / 64, 1, 0x80, 0xBF⟩ := by
  have hb : (UInt8.ofNat (v / 64 % 32 + 192)).toNat = v / 64 + 192 := by
    rw [toNat_ofNat_of_lt (by omega)]
    omega
  have hbits : (v / 64 + 192) % 32 = v / 64 := by omega
  unfold lead
  simp only [UInt8.lt_iff_toNat_lt, hb, UInt8.reduceToNat]
  rw [if_neg (by omega), if_neg (by omega), if_pos (by omega), hbits]

/-- What the second byte may be leaves out encodings that are too long, and surrogates. -/
theorem lead_three (h : 0x800 ≤ v) (h' : v < 0x10000) (hs : v < 0xD800 ∨ 0xDFFF < v) :
    ∃ low high, lead (UInt8.ofNat (v / 4096 % 16 + 224)) = .begun ⟨v / 4096, 2, low, high⟩ ∧
      low.toNat ≤ v / 64 % 64 + 128 ∧ v / 64 % 64 + 128 ≤ high.toNat := by
  have hb : (UInt8.ofNat (v / 4096 % 16 + 224)).toNat = v / 4096 + 224 := by
    rw [toNat_ofNat_of_lt (by omega)]
    omega
  have hbits : (v / 4096 + 224) % 16 = v / 4096 := by omega
  unfold lead
  simp only [UInt8.lt_iff_toNat_lt, ← UInt8.toNat_inj, hb, UInt8.reduceToNat]
  rw [if_neg (by omega), if_neg (by omega), if_neg (by omega)]
  by_cases hfirst : v / 4096 = 0
  · rw [if_pos (by omega), hfirst]
    refine ⟨_, _, rfl, ?_, ?_⟩ <;> simp only [UInt8.reduceToNat] <;> omega
  · rw [if_neg (by omega)]
    by_cases hlast : v / 4096 = 13
    · rw [if_pos (by omega), hlast]
      refine ⟨_, _, rfl, ?_, ?_⟩ <;> simp only [UInt8.reduceToNat] <;> omega
    · rw [if_neg (by omega), if_pos (by omega), hbits]
      refine ⟨_, _, rfl, ?_, ?_⟩ <;> simp only [UInt8.reduceToNat] <;> omega

/-- What the second byte may be leaves out encodings that are too long, and what is behind the last
character. -/
theorem lead_four (h : 0x10000 ≤ v) (h' : v < 0x110000) :
    ∃ low high, lead (UInt8.ofNat (v / 262144 % 8 + 240)) = .begun ⟨v / 262144, 3, low, high⟩ ∧
      low.toNat ≤ v / 4096 % 64 + 128 ∧ v / 4096 % 64 + 128 ≤ high.toNat := by
  have hb : (UInt8.ofNat (v / 262144 % 8 + 240)).toNat = v / 262144 + 240 := by
    rw [toNat_ofNat_of_lt (by omega)]
    omega
  have hbits : (v / 262144 + 240) % 8 = v / 262144 := by omega
  unfold lead
  simp only [UInt8.lt_iff_toNat_lt, ← UInt8.toNat_inj, hb, UInt8.reduceToNat]
  rw [if_neg (by omega), if_neg (by omega), if_neg (by omega), if_neg (by omega),
    if_neg (by omega), if_neg (by omega)]
  by_cases hfirst : v / 262144 = 0
  · rw [if_pos (by omega), hfirst]
    refine ⟨_, _, rfl, ?_, ?_⟩ <;> simp only [UInt8.reduceToNat] <;> omega
  · rw [if_neg (by omega)]
    by_cases hlast : v / 262144 = 4
    · rw [if_neg (by omega), if_pos (by omega), hlast]
      refine ⟨_, _, rfl, ?_, ?_⟩ <;> simp only [UInt8.reduceToNat] <;> omega
    · rw [if_pos (by omega), hbits]
      refine ⟨_, _, rfl, ?_, ?_⟩ <;> simp only [UInt8.reduceToNat] <;> omega

/-! ## Further bytes -/

variable {n bits owed : Nat} {low high : UInt8}

theorem mem_range (hn : n < 64) (hlow : low.toNat ≤ n + 128) (hhigh : n + 128 ≤ high.toNat) :
    (low ≤ UInt8.ofNat (n + 128) ∧ UInt8.ofNat (n + 128) ≤ high) ∧
      (UInt8.ofNat (n + 128)).toNat % 64 = n := by
  have hb : (UInt8.ofNat (n + 128)).toNat = n + 128 := toNat_ofNat_of_lt (by omega)
  rw [UInt8.le_iff_toNat_le, UInt8.le_iff_toNat_le, hb]
  exact ⟨⟨hlow, hhigh⟩, by omega⟩

theorem readByte_last (hn : n < 64) (hlow : low.toNat ≤ n + 128) (hhigh : n + 128 ≤ high.toNat)
    (done : List Char) :
    readByte (some ⟨bits, 1, low, high⟩) (UInt8.ofNat (n + 128)) done =
      (none, Char.ofNat (bits * 64 + n) :: done) := by
  obtain ⟨hmem, hmod⟩ := mem_range hn hlow hhigh
  simp only [readByte, if_pos hmem, hmod]
  rfl

theorem readByte_next (hn : n < 64) (hlow : low.toNat ≤ n + 128) (hhigh : n + 128 ≤ high.toNat)
    (ho : 0 < owed) (done : List Char) :
    readByte (some ⟨bits, owed + 1, low, high⟩) (UInt8.ofNat (n + 128)) done =
      (some ⟨bits * 64 + n, owed, 0x80, 0xBF⟩, done) := by
  obtain ⟨hmem, hmod⟩ := mem_range hn hlow hhigh
  simp only [readByte, if_pos hmem, hmod, Nat.add_sub_cancel]
  rw [if_neg (by omega)]

/-! ## Characters -/

theorem readByte_begun {b : UInt8} {s : Begun} (h : lead b = .begun s) (done : List Char) :
    readByte none b done = (some s, done) := by
  unfold readByte readLead
  rw [h]

/-- An encoded character is read as itself. -/
theorem decodeFrom_char (c : Char) (rest : Bytes) (done : List Char) :
    decodeFrom (String.utf8EncodeChar c ++ rest) none done = decodeFrom rest none (c :: done) := by
  have hc : Char.ofNat c.val.toNat = c := Char.ofNat_toNat c
  have hlow : (0x80 : UInt8).toNat = 128 := rfl
  have hhigh : (0xBF : UInt8).toNat = 191 := rfl
  have hvalid : c.val.toNat < 0xD800 ∨ 0xDFFF < c.val.toNat ∧ c.val.toNat < 0x110000 := c.valid
  unfold String.utf8EncodeChar
  generalize c.val.toNat = v at hc hvalid
  dsimp only
  split_ifs with h₁ h₂ h₃
  · rw [List.singleton_append, decodeFrom_cons]
    simp only [readByte, readLead, lead_one (by omega : v < 0x80), hc]
  · have hbits : v / 64 * 64 + v % 64 = v := by omega
    rw [List.cons_append, List.singleton_append, decodeFrom_cons, decodeFrom_cons,
      readByte_begun (lead_two (by omega) (by omega)),
      readByte_last (by omega) (by omega) (by omega), hbits, hc]
  · obtain ⟨low, high, hlead, hmin, hmax⟩ :=
      lead_three (by omega : 0x800 ≤ v) (by omega) (by omega)
    have hbits : (v / 4096 * 64 + v / 64 % 64) * 64 + v % 64 = v := by omega
    rw [List.cons_append, List.cons_append, List.singleton_append, decodeFrom_cons,
      decodeFrom_cons, decodeFrom_cons, readByte_begun hlead,
      readByte_next (by omega) hmin hmax Nat.one_pos,
      readByte_last (by omega) (by omega) (by omega), hbits, hc]
  · obtain ⟨low, high, hlead, hmin, hmax⟩ := lead_four (by omega : 0x10000 ≤ v) (by omega)
    have hbits : ((v / 262144 * 64 + v / 4096 % 64) * 64 + v / 64 % 64) * 64 + v % 64 = v := by
      omega
    rw [List.cons_append, List.cons_append, List.cons_append, List.singleton_append,
      decodeFrom_cons, decodeFrom_cons, decodeFrom_cons, decodeFrom_cons, readByte_begun hlead,
      readByte_next (by omega) hmin hmax Nat.two_pos,
      readByte_next (by omega) (by omega) (by omega) Nat.one_pos,
      readByte_last (by omega) (by omega) (by omega), hbits, hc]

theorem decodeFrom_chars (cs : List Char) (done : List Char) :
    decodeFrom (cs.flatMap String.utf8EncodeChar) none done = done.reverse ++ cs := by
  induction cs generalizing done with
  | nil => exact (List.append_nil _).symm
  | cons c cs ih =>
    rw [List.flatMap_cons, decodeFrom_char, ih, List.reverse_cons, List.append_assoc,
      List.singleton_append]

theorem lossy_encode (s : String) : lossy (encode s) = s := by
  unfold lossy decode encode
  rw [decodeFrom_chars, List.reverse_nil, List.nil_append, String.ofList_toList]

/-- An encoded text is read as itself, and needs no repair. -/
theorem text?_encode (s : String) : text? (encode s) = some s := by
  unfold text?
  rw [lossy_encode, if_pos rfl]

end LogFollower.Text
