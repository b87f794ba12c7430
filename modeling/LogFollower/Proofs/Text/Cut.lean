import LogFollower.Proofs.Text.Encoded

/-!
# Characters that are cut

Text that is read in parts, each on its own, is read as it was written where no part begins inside a
character. A character that is cut is not: the bytes of it before the cut are a character that was
begun and not finished, and each byte behind the cut is none (`decode_take_char`,
`decode_continuation`). `cutText` says what comes of a text that is cut after every `m` bytes, and
`cutText_eq_self_iff` that this is the text itself only if no cut is inside a character.
-/

namespace LogFollower.Text

/-! ## Bytes of a character -/

/-- A byte that goes on with a character. -/
def Continuation (b : UInt8) : Prop := 0x80 ≤ b.toNat ∧ b.toNat < 0xC0

theorem continuation_ofNat {n : Nat} (h : n < 64) : Continuation (UInt8.ofNat (n + 128)) := by
  unfold Continuation
  rw [toNat_ofNat_of_lt (by omega)]
  omega

theorem continuation_of_mem_tail {c : Char} {b : UInt8} (h : b ∈ (String.utf8EncodeChar c).tail) :
    Continuation b := by
  unfold String.utf8EncodeChar at h
  generalize c.val.toNat = v at h
  dsimp only at h
  split_ifs at h
  · cases h
  · obtain rfl := List.mem_singleton.1 h
    exact continuation_ofNat (by omega)
  · simp only [List.tail_cons, List.mem_cons, List.not_mem_nil, or_false] at h
    rcases h with rfl | rfl <;> exact continuation_ofNat (by omega)
  · simp only [List.tail_cons, List.mem_cons, List.not_mem_nil, or_false] at h
    rcases h with rfl | rfl | rfl <;> exact continuation_ofNat (by omega)

theorem eq_of_mem_char {c : Char} {b : UInt8} (h : b ∈ String.utf8EncodeChar c)
    (hb : b.toNat < 0x80) : c = Char.ofNat b.toNat := by
  have hc : Char.ofNat c.val.toNat = c := Char.ofNat_toNat c
  unfold String.utf8EncodeChar at h
  generalize c.val.toNat = v at h hc
  dsimp only at h
  split_ifs at h
  · obtain rfl := List.mem_singleton.1 h
    rw [toNat_ofNat_of_lt (by omega), hc]
  all_goals
    -- every byte of a longer character is at least 0x80
    simp only [List.mem_cons, List.not_mem_nil, or_false] at h
    rcases h with rfl | rfl | rfl | rfl <;> rw [toNat_ofNat_of_lt (by omega)] at hb <;> omega

/-! ## Reading parts -/

theorem readByte_done (state : Option Begun) (b : UInt8) (done : List Char) :
    readByte state b done = ((readByte state b []).1, (readByte state b []).2 ++ done) := by
  have hlead (done : List Char) :
      readLead b done = ((readLead b []).1, (readLead b []).2 ++ done) := by
    unfold readLead
    cases lead b <;> rfl
  cases state with
  | none => exact hlead done
  | some s =>
    simp only [readByte]
    split_ifs
    · rfl
    · rfl
    · rw [hlead (replacement :: done), hlead [replacement], List.append_assoc]
      rfl

theorem decodeFrom_done (bytes : Bytes) (state : Option Begun) (done : List Char) :
    decodeFrom bytes state done = done.reverse ++ decodeFrom bytes state [] := by
  induction bytes generalizing state done with
  | nil => cases state <;> simp [decodeFrom]
  | cons b bytes ih =>
    rw [decodeFrom_cons, decodeFrom_cons, readByte_done, ih, ih _ (readByte state b []).2]
    simp

theorem decode_nil : decode [] = [] := rfl

theorem decode_char (c : Char) (rest : Bytes) :
    decode (String.utf8EncodeChar c ++ rest) = c :: decode rest := by
  unfold decode
  rw [decodeFrom_char, decodeFrom_done]
  rfl

theorem decode_continuation {b : UInt8} (h : Continuation b) (rest : Bytes) :
    decode (b :: rest) = replacement :: decode rest := by
  have hlead : lead b = .refused := by
    obtain ⟨hlow, hhigh⟩ := h
    unfold lead
    simp only [UInt8.lt_iff_toNat_lt, UInt8.reduceToNat]
    rw [if_neg (by omega), if_pos (by omega)]
  have hread : readByte none b [] = (none, [replacement]) := by
    unfold readByte readLead
    rw [hlead]
  unfold decode
  rw [decodeFrom_cons, hread, decodeFrom_done]
  rfl

/-- A character that ends too early is one that was begun. -/
theorem decode_take_char {c : Char} {i : Nat} (hi : 0 < i) (h : i < c.utf8Size) :
    decode ((String.utf8EncodeChar c).take i) = [replacement] := by
  have hlow : (0x80 : UInt8).toNat = 128 := rfl
  have hhigh : (0xBF : UInt8).toNat = 191 := rfl
  have hvalid : c.val.toNat < 0xD800 ∨ 0xDFFF < c.val.toNat ∧ c.val.toNat < 0x110000 := c.valid
  rw [← String.length_utf8EncodeChar] at h
  unfold decode
  unfold String.utf8EncodeChar at h ⊢
  generalize c.val.toNat = v at hvalid h ⊢
  dsimp only at h ⊢
  split_ifs at h ⊢ with h₁ h₂ h₃
  · simp only [List.length_singleton] at h
    omega
  · simp only [List.length_cons, List.length_nil] at h
    obtain rfl : i = 1 := by omega
    simp only [List.take_succ_cons, List.take_zero]
    rw [decodeFrom_cons, readByte_begun (lead_two (by omega) (by omega))]
    rfl
  · obtain ⟨low, high, hlead, hmin, hmax⟩ :=
      lead_three (by omega : 0x800 ≤ v) (by omega) (by omega)
    simp only [List.length_cons, List.length_nil] at h
    obtain rfl | rfl : i = 1 ∨ i = 2 := by omega
    all_goals simp only [List.take_succ_cons, List.take_zero]
    · rw [decodeFrom_cons, readByte_begun hlead]
      rfl
    · rw [decodeFrom_cons, decodeFrom_cons, readByte_begun hlead,
        readByte_next (by omega) hmin hmax Nat.one_pos]
      rfl
  · obtain ⟨low, high, hlead, hmin, hmax⟩ := lead_four (by omega : 0x10000 ≤ v) (by omega)
    simp only [List.length_cons, List.length_nil] at h
    obtain rfl | rfl | rfl : i = 1 ∨ i = 2 ∨ i = 3 := by omega
    all_goals simp only [List.take_succ_cons, List.take_zero]
    · rw [decodeFrom_cons, readByte_begun hlead]
      rfl
    · rw [decodeFrom_cons, decodeFrom_cons, readByte_begun hlead,
        readByte_next (by omega) hmin hmax Nat.two_pos]
      rfl
    · rw [decodeFrom_cons, decodeFrom_cons, decodeFrom_cons, readByte_begun hlead,
        readByte_next (by omega) hmin hmax Nat.two_pos,
        readByte_next (by omega) (by omega) (by omega) Nat.one_pos]
      rfl

/-! ## Texts with cuts -/

def size (cs : List Char) : Nat := (cs.map Char.utf8Size).sum

theorem add_size_cons (start : Nat) (c : Char) (cs : List Char) :
    start + size (c :: cs) = start + c.utf8Size + size cs := by
  rw [Nat.add_assoc]
  exact congrArg (start + ·) List.sum_cons

/-- What is read of a text that is cut after every `m` bytes, where its first character begins
`start` bytes behind a cut: a character is kept if the `m - start % m` bytes up to the next cut are
enough for it, and else there are two characters or more in its place. -/
def cutText (m : Nat) : (start : Nat) → List Char → List Char
  | _, [] => []
  | start, c :: cs =>
    let room := m - start % m
    let kept := if c.utf8Size ≤ room then [c]
      else List.replicate (1 + (c.utf8Size - room)) replacement
    kept ++ cutText m (start + c.utf8Size) cs

/-- A multiple of `m` lies inside a character of the text that begins at `start`. -/
def CutInside (m start : Nat) (text : List Char) : Prop :=
  ∃ before c after k, text = before ++ c :: after ∧
    start + size before < k * m ∧ k * m < start + size before + c.utf8Size

theorem length_le_cutText (m start : Nat) (cs : List Char) :
    cs.length ≤ (cutText m start cs).length := by
  induction cs generalizing start with
  | nil => exact Nat.le_refl _
  | cons c cs ih =>
    have := ih (start + c.utf8Size)
    simp only [cutText, List.length_append, List.length_cons]
    split_ifs <;> simp <;> omega

theorem exists_multiple_iff {m : Nat} (hm : 0 < m) (start size : Nat) :
    (∃ k, start < k * m ∧ k * m < start + size) ↔ m - start % m < size := by
  have hstart : start / m * m + start % m = start := Nat.div_add_mod' start m
  have hmod : start % m < m := Nat.mod_lt _ hm
  have hnext : (start / m + 1) * m = start / m * m + m := by rw [Nat.add_mul, Nat.one_mul]
  constructor
  · rintro ⟨k, hlow, hhigh⟩
    have hk : start / m < k := (Nat.div_lt_iff_lt_mul hm).2 hlow
    have : (start / m + 1) * m ≤ k * m := Nat.mul_le_mul_right m hk
    omega
  · intro h
    exact ⟨start / m + 1, by omega, by omega⟩

theorem cutInside_cons {m start : Nat} {c : Char} {cs : List Char} (hm : 0 < m) :
    CutInside m start (c :: cs) ↔
      m - start % m < c.utf8Size ∨ CutInside m (start + c.utf8Size) cs := by
  rw [← exists_multiple_iff hm]
  constructor
  · rintro ⟨before, d, after, k, htext, hlow, hhigh⟩
    cases before with
    | nil =>
      obtain ⟨rfl, rfl⟩ := List.cons.inj htext
      exact .inl ⟨k, hlow, hhigh⟩
    | cons b before =>
      obtain ⟨rfl, rfl⟩ := List.cons.inj htext
      rw [add_size_cons] at hlow hhigh
      exact .inr ⟨before, d, after, k, rfl, hlow, hhigh⟩
  · rintro (⟨k, hlow, hhigh⟩ | ⟨before, d, after, k, rfl, hlow, hhigh⟩)
    · exact ⟨[], c, cs, k, rfl, hlow, hhigh⟩
    · rw [← add_size_cons] at hlow hhigh
      exact ⟨c :: before, d, after, k, rfl, hlow, hhigh⟩

/-- A cut text is the text itself only where no cut is inside a character. -/
theorem cutText_eq_self_iff {m : Nat} (hm : 0 < m) (start : Nat) (cs : List Char) :
    cutText m start cs = cs ↔ ¬CutInside m start cs := by
  induction cs generalizing start with
  | nil =>
    refine iff_of_true rfl ?_
    rintro ⟨before, c, after, k, htext, -⟩
    cases before <;> cases htext
  | cons c cs ih =>
    rw [cutInside_cons hm, not_or, ← ih, Nat.not_lt]
    simp only [cutText]
    split_ifs with h
    · rw [List.singleton_append, List.cons_inj_right]
      exact (and_iff_right h).symm
    · -- two characters or more in place of one make the text longer
      refine iff_of_false (fun heq => ?_) fun hboth => h hboth.1
      have hlen := congrArg List.length heq
      have hle := length_le_cutText m (start + c.utf8Size) cs
      rw [List.length_append, List.length_replicate, List.length_cons] at hlen
      omega

end LogFollower.Text
