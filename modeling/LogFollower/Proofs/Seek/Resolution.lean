import LogFollower.Seek
import Mathlib.Tactic

/-!
# Where a position resolves to

A position that was recorded for another file means the beginning. Every other one means its
`target`, the exact sum of its offset and what the offset is measured from: it is refused if the
target lies before the start of the file, and cut down to the largest offset if it lies beyond
(`resolve_of_same`). The numbers that the sum is kept within do not show, since no file is longer
than the largest offset (`resolves_exactly`).
-/

namespace LogFollower.SeekInfo

variable {s : SeekInfo} {current : FileIdentifier} {length : Nat}

/-- The exact sum of the offset and what it is measured from, in a file of a length. -/
def target (s : SeekInfo) (length : Nat) : Int :=
  match s.whence with
  | .start => s.offset
  | .current => s.offset
  | .finish => s.offset + length

def Foreign (s : SeekInfo) (current : FileIdentifier) : Prop :=
  ∃ id, s.identifier = some id ∧ id ≠ current

theorem any_ne_iff : s.identifier.any (· ≠ current) = true ↔ s.Foreign current := by
  unfold Foreign
  rw [Option.any_eq_true]
  simp only [decide_eq_true_eq]

/-- What the offset is added to is not cut down in a file that is not too long. -/
theorem base_add_offset (h : (length : Int) ≤ maxOffset) :
    s.base length + s.offset = s.target length := by
  unfold base target
  cases s.whence with
  | start => exact zero_add _
  | current => exact zero_add _
  | finish =>
    show min (length : Int) maxOffset + s.offset = s.offset + length
    rw [min_eq_left h, add_comm]

theorem target_mono_offset {offset : Int} (h : s.offset ≤ offset) (length : Nat) :
    s.target length ≤ { s with offset }.target length := by
  unfold target
  cases s.whence with
  | start => exact h
  | current => exact h
  | finish => exact Int.add_le_add_right h length

theorem target_mono_length (s : SeekInfo) {length' : Nat} (h : length ≤ length') :
    s.target length ≤ s.target length' := by
  unfold target
  cases s.whence with
  | start => exact le_rfl
  | current => exact le_rfl
  | finish => exact Int.add_le_add_left (Int.ofNat_le.2 h) s.offset

/-- A position resolves to its target, cut down to the largest offset, unless the target lies
before the start. -/
theorem resolve_of_same (hsame : ¬ s.Foreign current) (h : (length : Int) ≤ maxOffset) :
    s.resolve current length =
      if s.target length < 0 then .error (.config (.beforeStart (max minOffset (s.target length))))
      else .ok (min (s.target length) maxOffset).toNat := by
  unfold resolve
  rw [if_neg (any_ne_iff.not.2 hsame), base_add_offset h]
  generalize s.target length = p
  unfold saturate minOffset maxOffset
  by_cases hp : p < 0
  · have hcut : max (-0x8000000000000000) (min 0x7FFFFFFFFFFFFFFF p) =
        max (-0x8000000000000000) p := by omega
    rw [if_pos hp, hcut, if_pos (by omega)]
  · have hcut : max (-0x8000000000000000) (min 0x7FFFFFFFFFFFFFFF p) =
        min p 0x7FFFFFFFFFFFFFFF := by omega
    rw [if_neg hp, hcut, if_neg (by omega)]

theorem resolve_of_foreign (h : s.Foreign current) (length : Nat) :
    s.resolve current length = .ok 0 := by
  obtain ⟨id, hid, hne⟩ := h
  exact resolve_of_ne hid hne length

theorem resolve_mono {s' : SeekInfo} {length' n : Nat}
    (hforeign : s.Foreign current ↔ s'.Foreign current) (h : (length : Int) ≤ maxOffset)
    (h' : (length' : Int) ≤ maxOffset) (hle : s.target length ≤ s'.target length')
    (hn : s.resolve current length = .ok n) :
    ∃ n', s'.resolve current length' = .ok n' ∧ n ≤ n' := by
  by_cases hs : s.Foreign current
  · rw [resolve_of_foreign hs] at hn
    cases hn
    exact ⟨0, resolve_of_foreign (hforeign.1 hs) length', le_rfl⟩
  · rw [resolve_of_same hs h] at hn
    split_ifs at hn with hneg
    cases hn
    refine ⟨_, ?_, Int.toNat_le_toNat (min_le_min_right maxOffset hle)⟩
    rw [resolve_of_same (hforeign.not.1 hs) h', if_neg (by omega)]

/-- Positions resolve exactly. In a file that is no longer than the largest offset, a position of
another file is its beginning, and every other one its target: refused if that is negative, the
largest offset if that is more, and the target itself if it is neither. So what it resolves to is an
offset that can be sought, and it grows with the offset and with the length of the file. -/
theorem resolves_exactly (s : SeekInfo) (current : FileIdentifier) (length : Nat)
    (h : (length : Int) ≤ maxOffset) :
    (s.Foreign current → s.resolve current length = .ok 0) ∧
    (¬ s.Foreign current →
      ((∃ f, s.resolve current length = .error (.config f)) ↔ s.target length < 0) ∧
      (s.target length < 0 → minOffset ≤ s.offset →
        s.resolve current length = .error (.config (.beforeStart (s.target length)))) ∧
      (0 ≤ s.target length → s.target length ≤ maxOffset →
        ∃ n : Nat, s.resolve current length = .ok n ∧ (n : Int) = s.target length) ∧
      (maxOffset < s.target length → s.resolve current length = .ok maxOffset.toNat)) ∧
    (∀ n, s.resolve current length = .ok n →
      (n : Int) ≤ maxOffset ∧
      (∀ offset, s.offset ≤ offset →
        ∃ n', { s with offset }.resolve current length = .ok n' ∧ n ≤ n') ∧
      ∀ length' : Nat, length ≤ length' → (length' : Int) ≤ maxOffset →
        ∃ n', s.resolve current length' = .ok n' ∧ n ≤ n') := by
  have hmax : 0 ≤ maxOffset := by decide
  refine ⟨fun hs => resolve_of_foreign hs length, fun hs => ?_, fun n hn => ⟨?_, ?_, ?_⟩⟩
  · rw [resolve_of_same hs h]
    refine ⟨?_, fun hneg hmin => ?_, fun hpos hle => ?_, fun hlt => ?_⟩
    · by_cases hneg : s.target length < 0
      · simp [hneg]
      · simp [hneg]
    · have hexact : minOffset ≤ s.target length := by
        unfold target
        cases s.whence <;> simp only <;> omega
      rw [if_pos hneg, max_eq_right hexact]
    · rw [if_neg hpos.not_gt, min_eq_left hle]
      exact ⟨_, rfl, Int.toNat_of_nonneg hpos⟩
    · rw [if_neg (hmax.trans hlt.le).not_gt, min_eq_right hlt.le]
  · by_cases hs : s.Foreign current
    · rw [resolve_of_foreign hs] at hn
      cases hn
      exact hmax
    · rw [resolve_of_same hs h] at hn
      split_ifs at hn with hneg
      cases hn
      rw [Int.toNat_of_nonneg (le_min (not_lt.1 hneg) hmax)]
      exact min_le_right _ _
  · exact fun offset hle => resolve_mono (s := s) Iff.rfl h h (target_mono_offset hle length) hn
  · exact fun length' hle h' => resolve_mono Iff.rfl h h' (target_mono_length s hle) hn

theorem resolves_exactly_longest :
    let id : FileIdentifier := ⟨"1:1"⟩
    let back : SeekInfo := ⟨minOffset + 1, .finish, some id⟩
    let length := maxOffset.toNat
    (length : Int) ≤ maxOffset ∧ back.resolve id length = .ok 0 ∧
      { back with offset := maxOffset }.resolve id length = .ok length ∧
      { back with offset := minOffset }.resolve id length =
        .error (.config (.beforeStart (-1))) ∧
      { back with offset := minOffset }.resolve ⟨"1:2"⟩ length = .ok 0 := by
  intro id back length
  have hlength : (length : Int) ≤ maxOffset := by decide
  have hsame (offset : Int) : ¬ { back with offset }.Foreign id := by
    rintro ⟨_, ⟨⟩, hne⟩
    exact hne rfl
  obtain ⟨-, hback, -⟩ := resolves_exactly back id length hlength
  obtain ⟨-, hbeyond, -⟩ := resolves_exactly { back with offset := maxOffset } id length hlength
  obtain ⟨-, hbefore, -⟩ := resolves_exactly { back with offset := minOffset } id length hlength
  obtain ⟨hother, -⟩ :=
    resolves_exactly { back with offset := minOffset } ⟨"1:2"⟩ length hlength
  refine ⟨hlength, ?_, ?_, ?_, hother ⟨id, rfl, by decide⟩⟩
  · obtain ⟨n, hn, htarget⟩ := (hback (hsame _)).2.2.1 (by decide) (by decide)
    have hzero : n = 0 := Int.ofNat_eq_zero.1 (htarget.trans (by decide))
    rw [hn, hzero]
  · exact (hbeyond (hsame _)).2.2.2 (by decide)
  · exact (hbefore (hsame _)).2.1 (by decide) le_rfl

end LogFollower.SeekInfo
