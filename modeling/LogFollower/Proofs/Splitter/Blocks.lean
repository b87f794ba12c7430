import LogFollower.Proofs.Splitter.Lines
import Mathlib.Algebra.Order.Floor.Div

/-!
# The blocks of a long line

A line that is longer than the limit comes out in blocks of as many bytes as the limit, the last one
with what is left (`split_of_not_mem`, `split_lineFeed`). A carriage return before the line feed
belongs to the end of the line when a piece is read as text, but it counts like any other byte when
the line is cut. So a line of one or more full blocks that ends in both is given one more piece, with
no text (`lines_of_ended_line`).
-/

namespace LogFollower

namespace Greedy

/-! ## Blocks -/

/-- The block of a line that begins at a multiple of `m` bytes; the last one may be shorter. -/
def block (m : Nat) (line : Bytes) (i : Nat) : Bytes := (line.drop (i * m)).take m

variable {m : Nat} {line : Bytes}

theorem block_succ (m : Nat) (line : Bytes) (i : Nat) :
    block m line (i + 1) = block m (line.drop m) i := by
  unfold block
  rw [List.drop_drop, Nat.add_mul, Nat.one_mul, Nat.add_comm]

theorem block_last {i : Nat} (h : line.length ≤ (i + 1) * m) :
    block m line i = line.drop (i * m) := by
  rw [Nat.add_mul, Nat.one_mul] at h
  refine List.take_of_length_le ?_
  rw [List.length_drop]
  omega

theorem block_of_le (h : line.length ≤ m) : block m line 0 = line := by
  rw [block_last (by omega), Nat.zero_mul, List.drop_zero]

theorem length_le_blocks (hm : 0 < m) (line : Bytes) :
    line.length ≤ ((line.length - 1) / m + 1) * m := by
  have : line.length - 1 < (line.length - 1) / m * m + m := Nat.lt_div_mul_add hm
  rw [Nat.add_mul, Nat.one_mul]
  omega

/-- A line without a line feed is cut into full blocks, as long as there is a byte behind
them. -/
theorem split_of_not_mem (hm : 0 < m) (hf : lineFeed ∉ line) :
    split (some m) line =
      ((List.range ((line.length - 1) / m)).map (block m line),
        line.drop ((line.length - 1) / m * m)) := by
  have hl : some m ≠ some 0 := fun e => hm.ne' (Option.some.inj e)
  induction line using split_induction hl with
  | rest line h =>
    have hlen := (not_mem_of_cut h).2 m rfl
    have hzero : (line.length - 1) / m = 0 := Nat.div_eq_of_lt (by omega)
    rw [split_of_cut_none h, hzero, Nat.zero_mul]
    rfl
  | piece line k h hk ih =>
    obtain ⟨before, more, rfl, -⟩ | ⟨hlim, hlen, -⟩ := cut_cases h
    · simp at hf
    · obtain rfl := Option.some.inj hlim
      have hcount : (line.length - 1) / m = (line.length - m - 1) / m + 1 := by
        rw [← Nat.add_div_right _ hm]
        congr 1
        omega
      rw [split_of_cut h hk, ih fun hmem => hf (List.mem_of_mem_drop hmem), List.length_drop, hcount,
        List.range_succ_eq_map, List.map_cons, List.map_map, List.drop_drop, Nat.add_mul,
        Nat.one_mul, Nat.add_comm m]
      refine Prod.ext (congrArg₂ List.cons ?_ (List.map_congr_left fun i _ => ?_)) rfl
      · unfold block
        rw [Nat.zero_mul, List.drop_zero]
      · exact (block_succ m line i).symm

theorem split_lineFeed {limit : Option Nat} (hl : limit ≠ some 0) (line : Bytes) :
    split limit (line ++ [lineFeed]) =
      ((split limit line).1 ++ [rest limit line ++ [lineFeed]], []) := by
  obtain ⟨hf, hlen⟩ := not_mem_of_cut (cut_rest hl line)
  rw [split_append hl, split_of_cut (cut_lineFeed hf hlen []) (Nat.succ_ne_zero _),
    List.take_of_length_le (by simp), List.drop_of_length_le (by simp),
    split_of_cut_none (cut_nil limit)]

/-! ## Contents -/

/-- A line without the carriage return at its end, if there is one. -/
def chomp (line : Bytes) : Bytes :=
  if line.getLast? = some carriageReturn then line.dropLast else line

theorem chomp_concat (line : Bytes) : chomp (line ++ [carriageReturn]) = line := by
  unfold chomp
  rw [if_pos List.getLast?_concat, List.dropLast_concat]

theorem chomp_of_ne (h : line.getLast? ≠ some carriageReturn) : chomp line = line := if_neg h

theorem content_lineFeed (line : Bytes) (stop : Nat) :
    (⟨line ++ [lineFeed], stop⟩ : Piece).content = chomp line := by
  unfold Piece.content Piece.terminated chomp
  rw [List.getLast?_concat, List.dropLast_concat]
  rfl

theorem chomp_drop {i : Nat} (h : i < line.length) : chomp (line.drop i) = (chomp line).drop i := by
  unfold chomp
  rw [List.getLast?_drop, if_neg h.not_ge]
  split_ifs
  · rw [List.dropLast_eq_take, List.dropLast_eq_take, List.length_drop, List.drop_take,
      Nat.sub_right_comm]
  · rfl

theorem take_chomp {i : Nat} (h : i < line.length) : (chomp line).take i = line.take i := by
  unfold chomp
  split_ifs
  · rw [List.dropLast_eq_take, List.take_take, min_eq_left (by omega)]
  · rfl

theorem length_chomp_le (line : Bytes) : (chomp line).length ≤ line.length := by
  unfold chomp
  split_ifs
  · exact List.length_dropLast ▸ Nat.sub_le _ _
  · exact Nat.le_refl _

theorem block_chomp {i : Nat} (h : (i + 1) * m < line.length) :
    block m (chomp line) i = block m line i := by
  unfold block
  rw [List.take_drop, List.take_drop, take_chomp (by rwa [Nat.add_mul, Nat.one_mul] at h)]

theorem content_of_not_mem {p : Piece} (h : lineFeed ∉ p.bytes) : p.content = p.bytes := by
  unfold Piece.content Piece.terminated
  rw [decide_eq_false fun hlast => h (List.mem_of_getLast? hlast)]
  rfl

theorem not_mem_of_mem_split {limit : Option Nat} (hl : limit ≠ some 0) (hf : lineFeed ∉ line)
    {bytes : Bytes} (h : bytes ∈ (split limit line).1) : lineFeed ∉ bytes := fun hb =>
  hf (flatten_split hl line ▸ List.mem_append_left _ (List.mem_flatten_of_mem h hb))

theorem map_content_place (offset : Nat) (ps : List Bytes) :
    (place offset ps).map Piece.content = ps.map fun bytes => (⟨bytes, 0⟩ : Piece).content := by
  conv_rhs => rw [← bytes_place offset ps, List.map_map]
  rfl

theorem content_split {limit : Option Nat} (hl : limit ≠ some 0) (hf : lineFeed ∉ line) :
    ((split limit line).1.map fun bytes => (⟨bytes, 0⟩ : Piece).content) = (split limit line).1 := by
  conv_rhs => rw [← List.map_id (split limit line).1]
  exact List.map_congr_left fun bytes h => content_of_not_mem (not_mem_of_mem_split hl hf h)

theorem content_pieces {limit : Option Nat} (hl : limit ≠ some 0) (hf : lineFeed ∉ line)
    (offset : Nat) :
    (pieces limit offset (line ++ [lineFeed])).map Piece.content =
      (split limit line).1 ++ [chomp (rest limit line)] := by
  unfold pieces
  rw [map_content_place, split_lineFeed hl, List.map_append, content_split hl hf,
    List.map_singleton, content_lineFeed]

/-- The lines of a long line are its blocks, with the carriage return counted among its bytes
and left out of the last one. -/
theorem content_blocks (hm : 0 < m) (hf : lineFeed ∉ line) (offset : Nat) :
    (pieces (some m) offset (line ++ [lineFeed])).map Piece.content =
      (List.range ((line.length - 1) / m + 1)).map (block m (chomp line)) := by
  have hl : some m ≠ some 0 := fun e => hm.ne' (Option.some.inj e)
  have hfull : (line.length - 1) / m * m ≤ line.length - 1 := Nat.div_mul_le_self _ _
  rw [content_pieces hl hf]
  unfold rest
  rw [split_of_not_mem hm hf, List.range_succ, List.map_append, List.map_singleton]
  refine congrArg₂ (· ++ [·]) (List.map_congr_left fun i hi => ?_) ?_
  · have hi : (i + 1) * m ≤ (line.length - 1) / m * m :=
      Nat.mul_le_mul_right m (List.mem_range.1 hi)
    have hpos : 0 < (i + 1) * m := Nat.mul_pos i.succ_pos hm
    exact (block_chomp (by omega)).symm
  · rw [block_last ((length_chomp_le line).trans (length_le_blocks hm line))]
    obtain rfl | hne := eq_or_ne line []
    · rw [List.drop_nil]
      exact List.drop_nil.symm
    · have := List.length_pos_iff.2 hne
      exact chomp_drop (by omega)

end Greedy

/-! ## Lines and their ends -/

/-- What a line ends in. -/
inductive Ending
  | lf
  | crlf
  deriving DecidableEq, Repr

namespace Ending

def bytes : Ending → Bytes
  | lf => [lineFeed]
  | crlf => [carriageReturn, lineFeed]

/-- What is cut as one line: the carriage return is counted. -/
def counted (line : Bytes) : Ending → Bytes
  | lf => line
  | crlf => line ++ [carriageReturn]

variable {line : Bytes} (ending : Ending)

theorem counted_lineFeed : ending.counted line ++ [lineFeed] = line ++ ending.bytes := by
  cases ending with
  | lf => rfl
  | crlf => exact List.append_assoc _ _ _

theorem not_mem_counted (hf : lineFeed ∉ line) : lineFeed ∉ ending.counted line := by
  cases ending with
  | lf => exact hf
  | crlf => exact fun h => (List.mem_append.1 h).elim hf (by decide)

theorem chomp_counted (hr : line.getLast? ≠ some carriageReturn) :
    Greedy.chomp (ending.counted line) = line := by
  cases ending with
  | lf => exact Greedy.chomp_of_ne hr
  | crlf => exact Greedy.chomp_concat line

end Ending

namespace Splitter

open Greedy

theorem blocks_eq {m : Nat} (hm : 0 < m) (n : Nat) : (n - 1) / m + 1 = max 1 (n ⌈/⌉ m) := by
  rw [Nat.ceilDiv_eq_add_pred_div]
  cases n with
  | zero => rw [Nat.zero_sub, Nat.zero_div, Nat.zero_add, Nat.div_eq_of_lt (by omega)]; rfl
  | succ n =>
    rw [Nat.add_sub_cancel, Nat.add_right_comm, Nat.add_sub_cancel, Nat.add_div_right _ hm]
    exact (max_eq_right (Nat.le_add_left 1 _)).symm

/-- How many lines come of one. -/
theorem blocks_counted {m : Nat} {line : Bytes} (ending : Ending) (hm : 0 < m) :
    ((ending.counted line).length - 1) / m + 1 =
      max 1 (line.length ⌈/⌉ m) +
        if ending = .crlf ∧ line ≠ [] ∧ m ∣ line.length then 1 else 0 := by
  rw [← blocks_eq hm]
  cases ending with
  | lf => rw [if_neg (fun h => nomatch h.1)]; rfl
  | crlf =>
    simp only [Ending.counted, List.length_append, List.length_singleton, Nat.add_sub_cancel,
      true_and]
    cases line with
    | nil => rw [if_neg (fun h => h.1 rfl)]; rfl
    | cons b line =>
      -- one byte more fills the last block if it did not do so before
      rw [List.length_cons, Nat.add_sub_cancel, Nat.succ_div]
      simp only [ne_eq, reduceCtorEq, not_false_eq_true, true_and]
      exact Nat.add_right_comm _ _ _

theorem fills_iff {m : Nat} {line : Bytes} (hm : 0 < m) (hle : line.length ≤ m) :
    line ≠ [] ∧ m ∣ line.length ↔ line.length = m := by
  constructor
  · rintro ⟨hne, hdvd⟩
    exact le_antisymm hle (Nat.le_of_dvd (List.length_pos_iff.2 hne) hdvd)
  · intro h
    exact ⟨List.ne_nil_of_length_pos (by omega), h ▸ dvd_rfl⟩

/-- A line is cut into as many lines as it has blocks, whatever ends it and however the bytes
come, and each has the text of its block; but one that fills its blocks and ends in a carriage
return and a line feed is followed by a line without text. -/
theorem lines_of_ended_line {m : Nat} {line : Bytes} {chunks : List Bytes} (ending : Ending)
    (hm : 0 < m) (hf : lineFeed ∉ line) (hr : line.getLast? ≠ some carriageReturn)
    (hc : chunks.flatten = line ++ ending.bytes) (offset : Nat) :
    let pushed := (start offset (some m)).pushAll chunks
    let filled := ending = .crlf ∧ line ≠ [] ∧ m ∣ line.length
    pushed.1.length = max 1 (line.length ⌈/⌉ m) + (if filled then 1 else 0) ∧
    (pushed.1.length = max 1 (line.length ⌈/⌉ m) ↔ ¬filled) ∧
    pushed.1.map Piece.text =
      (List.range pushed.1.length).map (fun i => Text.lossy (block m line i)) ∧
    pushed.2.pending = [] ∧
    (line.length ≤ m →
      (pushed.1.map Piece.text = [Text.lossy line] ↔ ¬(ending = .crlf ∧ line.length = m))) := by
  intro pushed filled
  have hl : some m ≠ some 0 := fun e => hm.ne' (Option.some.inj e)
  have hpushed : pushed = _ := pushAll_start hl offset chunks
  rw [hc, ← ending.counted_lineFeed] at hpushed
  have hcontent := content_blocks hm (ending.not_mem_counted hf) offset
  rw [ending.chomp_counted hr, blocks_counted ending hm] at hcontent
  have hlength : pushed.1.length = max 1 (line.length ⌈/⌉ m) + if filled then 1 else 0 := by
    have := congrArg List.length hcontent
    rw [List.length_map, List.length_map, List.length_range] at this
    rw [hpushed, this]
  have htexts : pushed.1.map Piece.text =
      (List.range pushed.1.length).map (fun i => Text.lossy (block m line i)) := by
    have htext : pushed.1.map Piece.text = (pushed.1.map Piece.content).map Text.lossy :=
      List.map_map.symm
    rw [htext, hlength, hpushed, hcontent, List.map_map]
    rfl
  have hexact : pushed.1.length = max 1 (line.length ⌈/⌉ m) ↔ ¬filled := by
    rw [hlength, Nat.add_eq_left, ite_eq_right_iff]
    exact ⟨fun h hfilled => Nat.one_ne_zero (h hfilled), fun h hfilled => absurd hfilled h⟩
  refine ⟨hlength, hexact, htexts, ?_, fun hle => ?_⟩
  · rw [hpushed]
    exact (List.reverse_reverse _).trans (congrArg Prod.snd (split_lineFeed hl _))
  · have hone : max 1 (line.length ⌈/⌉ m) = 1 := by
      rw [← blocks_eq hm, Nat.div_eq_of_lt (by omega)]
    have hfilled : filled ↔ ending = .crlf ∧ line.length = m :=
      and_congr_right fun _ => fills_iff hm hle
    rw [← hfilled, ← hexact, hone]
    constructor
    · intro h
      simpa using congrArg List.length h
    · intro h
      rw [htexts, h, List.range_one, List.map_singleton, block_of_le hle]

theorem lines_of_ended_line_filled :
    let chunks : List Bytes := [[0x61, 0x62, 0x63, 0x64], [carriageReturn], [lineFeed]]
    let pushed := (start 5 (some 2)).pushAll chunks
    let line : Bytes := [0x61, 0x62, 0x63, 0x64]
    let filled := Ending.crlf = .crlf ∧ line ≠ [] ∧ 2 ∣ line.length
    chunks.flatten = line ++ Ending.crlf.bytes ∧
      pushed.1.map Piece.text = ["ab", "cd", ""] ∧
      pushed.1.length = max 1 (line.length ⌈/⌉ 2) + (if filled then 1 else 0) ∧
      (pushed.1.length = max 1 (line.length ⌈/⌉ 2) ↔ ¬filled) ∧
      pushed.1.map Piece.text =
        (List.range pushed.1.length).map (fun i => Text.lossy (block 2 line i)) ∧
      pushed.2.pending = [] ∧
      (line.length ≤ 2 →
        (pushed.1.map Piece.text = [Text.lossy line] ↔
          ¬(Ending.crlf = .crlf ∧ line.length = 2))) := by
  intro chunks pushed line filled
  exact ⟨rfl, by decide, lines_of_ended_line .crlf (by decide) (by decide) (by decide) rfl 5⟩

/-- Not every line within the limit stays whole: one that is as long as the limit does not, if a
carriage return stands before its line feed. -/
theorem not_whole_of_crlf :
    ¬∀ (m offset : Nat) (line : Bytes) (ending : Ending) (chunks : List Bytes), 0 < m →
      lineFeed ∉ line → line.getLast? ≠ some carriageReturn →
      chunks.flatten = line ++ ending.bytes →
      ((start offset (some m)).pushAll chunks).1.length = max 1 (line.length ⌈/⌉ m) := by
  intro h
  have := h 3 0 [0x61, 0x62, 0x63] .crlf [[0x61, 0x62, 0x63, carriageReturn, lineFeed]] (by decide)
    (by decide) (by decide) rfl
  exact absurd this (by decide)

end Splitter
end LogFollower
