import LogFollower.Proofs.Splitter.Blocks
import LogFollower.Proofs.Text.Cut

/-!
# The text of a line that is cut

A limit is counted in bytes, and every piece is read on its own, so a cut that falls inside a
character spoils it. Main statement (`text_of_cut_line`): the texts of the pieces are together the
text of the line with every character inside of which a cut falls replaced, and so they are that
text exactly if no cut does.
-/

namespace LogFollower

namespace Text

open Greedy

variable {m : Nat}

/-! ## Reading blocks -/

/-- What is read of a line in blocks of `m` bytes. There are not more blocks than bytes. -/
def readBlocks (m : Nat) (bytes : Bytes) : List Char :=
  (List.range bytes.length).flatMap fun i => decode (block m bytes i)

theorem flatMap_blocks {bytes : Bytes} {k j : Nat} (hkj : k ≤ j) (h : bytes.length ≤ k * m) :
    ((List.range j).flatMap fun i => decode (block m bytes i)) =
      (List.range k).flatMap fun i => decode (block m bytes i) := by
  induction j, hkj using Nat.le_induction with
  | base => rfl
  | succ j hkj ih =>
    have hlen : bytes.length ≤ j * m := h.trans (Nat.mul_le_mul_right m hkj)
    have hempty : block m bytes j = [] := by
      unfold block
      rw [List.drop_of_length_le hlen, List.take_nil]
    rw [List.range_succ, List.flatMap_append, ih, List.flatMap_singleton, hempty, decode_nil,
      List.append_nil]

theorem readBlocks_eq (hm : 0 < m) {bytes : Bytes} {k : Nat} (h : bytes.length ≤ k * m) :
    ((List.range k).flatMap fun i => decode (block m bytes i)) = readBlocks m bytes := by
  have hall : bytes.length ≤ bytes.length * m := Nat.le_mul_of_pos_right _ hm
  obtain hk | hk := Nat.le_total k bytes.length
  · exact (flatMap_blocks hk h).symm
  · exact flatMap_blocks hk hall

theorem readBlocks_step (hm : 0 < m) (bytes : Bytes) :
    readBlocks m bytes = decode (bytes.take m) ++ readBlocks m (bytes.drop m) := by
  have hall : bytes.length ≤ bytes.length * m := Nat.le_mul_of_pos_right _ hm
  have hmore : bytes.length ≤ (bytes.length + 1) * m := by rw [Nat.add_mul]; omega
  have hfirst : block m bytes 0 = bytes.take m := by
    unfold block
    rw [Nat.zero_mul, List.drop_zero]
  rw [← readBlocks_eq hm hmore, List.range_succ_eq_map, List.flatMap_cons, List.flatMap_map, hfirst]
  simp only [Nat.succ_eq_add_one, block_succ]
  rw [readBlocks_eq hm (by rw [List.length_drop]; omega)]

/-- What is read of bytes the first of which come when `room` bytes are left of a block. -/
def readCut (m room : Nat) (bytes : Bytes) : List Char :=
  decode (bytes.take room) ++ readBlocks m (bytes.drop room)

theorem readCut_zero (hm : 0 < m) (bytes : Bytes) : readCut m 0 bytes = readCut m m bytes := by
  unfold readCut
  rw [List.take_zero, List.drop_zero, decode_nil, List.nil_append, readBlocks_step hm]

theorem readCut_nil (m room : Nat) : readCut m room [] = [] := by
  unfold readCut
  rw [List.take_nil, List.drop_nil]
  rfl

theorem add_room_mod (hm : 0 < m) (start : Nat) : (start + (m - start % m)) % m = 0 := by
  have hmod : start % m < m := Nat.mod_lt _ hm
  have hend : start + (m - start % m) = (start / m + 1) * m := by
    have := Nat.div_add_mod' start m
    rw [Nat.add_mul, Nat.one_mul]
    omega
  rw [hend, Nat.mul_mod_left]

/-- The room that is left behind `n` bytes, as it follows from where they end. -/
theorem readCut_room (hm : 0 < m) {start n : Nat} (h : n ≤ m - start % m) (rest : Bytes) :
    readCut m (m - start % m - n) rest = readCut m (m - (start + n) % m) rest := by
  have hmod : start % m < m := Nat.mod_lt _ hm
  obtain hlt | rfl := Nat.lt_or_eq_of_le h
  · have hn : n % m = n := Nat.mod_eq_of_lt (by omega)
    rw [Nat.add_mod_of_add_mod_lt (by omega), hn, Nat.sub_sub]
  · rw [add_room_mod hm, Nat.sub_self, Nat.sub_zero, readCut_zero hm]

/-! ## Reading characters -/

theorem readCut_whole {c : Char} {room : Nat} (h : c.utf8Size ≤ room) (rest : Bytes) :
    readCut m room (String.utf8EncodeChar c ++ rest) =
      c :: readCut m (room - c.utf8Size) rest := by
  have hlen := String.length_utf8EncodeChar c
  unfold readCut
  rw [List.take_append, List.drop_append, hlen, List.take_of_length_le (hlen.trans_le h),
    List.drop_of_length_le (hlen.trans_le h), decode_char]
  rfl

theorem readCut_continuation {b : UInt8} {room : Nat} (hroom : 0 < room) (hb : Continuation b)
    (rest : Bytes) : readCut m room (b :: rest) = replacement :: readCut m (room - 1) rest := by
  obtain ⟨room, rfl⟩ := Nat.exists_eq_succ_of_ne_zero hroom.ne'
  unfold readCut
  rw [List.take_succ_cons, List.drop_succ_cons, decode_continuation hb]
  rfl

theorem readCut_continuations (hm : 0 < m) (start : Nat) {tail : Bytes}
    (ht : ∀ b ∈ tail, Continuation b) (rest : Bytes) :
    readCut m (m - start % m) (tail ++ rest) =
      List.replicate tail.length replacement ++
        readCut m (m - (start + tail.length) % m) rest := by
  induction tail generalizing start with
  | nil => rfl
  | cons b tail ih =>
    have hroom : 0 < m - start % m := Nat.sub_pos_of_lt (Nat.mod_lt _ hm)
    obtain ⟨hb, ht⟩ := List.forall_mem_cons.1 ht
    rw [List.cons_append, readCut_continuation hroom hb, readCut_room hm hroom, ih _ ht,
      List.length_cons, List.replicate_succ, Nat.add_right_comm, Nat.add_assoc]
    rfl

/-- A character that is cut leaves one replacement for its bytes before the cut, and one for
each byte behind it. -/
theorem readCut_cut (hm : 0 < m) {start : Nat} {c : Char} (h : m - start % m < c.utf8Size)
    (rest : Bytes) :
    readCut m (m - start % m) (String.utf8EncodeChar c ++ rest) =
      List.replicate (1 + (c.utf8Size - (m - start % m))) replacement ++
        readCut m (m - (start + c.utf8Size) % m) rest := by
  have hroom : 0 < m - start % m := Nat.sub_pos_of_lt (Nat.mod_lt _ hm)
  have hlen := String.length_utf8EncodeChar c
  have htail : ∀ b ∈ (String.utf8EncodeChar c).drop (m - start % m), Continuation b := fun b hb =>
    continuation_of_mem_tail (List.drop_one ▸ List.drop_subset_drop_left _ hroom hb)
  -- the bytes behind the cut begin a block
  have hmore := readCut_continuations hm (start + (m - start % m)) htail rest
  rw [add_room_mod hm, Nat.sub_zero, List.length_drop, hlen, Nat.add_assoc,
    Nat.add_sub_cancel' h.le] at hmore
  rw [readCut, List.take_append_of_le_length (by omega), decode_take_char hroom h,
    List.drop_append_of_le_length (by omega), readBlocks_step hm]
  rw [readCut] at hmore
  rw [hmore, List.replicate_add]
  rfl

/-- What is read of a text that is cut. -/
theorem readCut_chars (hm : 0 < m) (start : Nat) (cs : List Char) :
    readCut m (m - start % m) (cs.flatMap String.utf8EncodeChar) = cutText m start cs := by
  induction cs generalizing start with
  | nil => exact readCut_nil _ _
  | cons c cs ih =>
    simp only [List.flatMap_cons, cutText]
    split_ifs with h
    · rw [readCut_whole h, readCut_room hm h, ih]
      rfl
    · rw [readCut_cut hm (Nat.lt_of_not_le h), ih]

theorem readBlocks_chars (hm : 0 < m) (cs : List Char) :
    readBlocks m (cs.flatMap String.utf8EncodeChar) = cutText m 0 cs := by
  rw [← readCut_chars hm, Nat.zero_mod, Nat.sub_zero]
  exact readBlocks_step hm _

/-! ## Text and lines -/

theorem lineFeed_not_mem {cs : List Char} (h : '\n' ∉ cs) :
    lineFeed ∉ cs.flatMap String.utf8EncodeChar := by
  intro hm
  obtain ⟨c, hc, hb⟩ := List.mem_flatMap.1 hm
  exact h (eq_of_mem_char hb (by decide) ▸ hc)

def chomp (cs : List Char) : List Char := if cs.getLast? = some '\r' then cs.dropLast else cs

theorem chomp_chars (cs : List Char) :
    Greedy.chomp (cs.flatMap String.utf8EncodeChar) =
      (chomp cs).flatMap String.utf8EncodeChar := by
  obtain rfl | ⟨cs, c, rfl⟩ := List.eq_nil_or_concat cs
  · rfl
  · unfold chomp
    rw [List.concat_eq_append, List.getLast?_concat, List.dropLast_concat, List.flatMap_append,
      List.flatMap_singleton]
    split_ifs with hr
    · rw [Option.some.inj hr]
      exact chomp_concat _
    · rw [List.flatMap_append, List.flatMap_singleton]
      refine chomp_of_ne fun hlast => hr ?_
      have hne : String.utf8EncodeChar c ≠ [] :=
        List.ne_nil_of_length_pos (String.length_utf8EncodeChar c ▸ c.utf8Size_pos)
      rw [List.getLast?_append_of_ne_nil _ hne] at hlast
      exact congrArg some (eq_of_mem_char (List.mem_of_getLast? hlast) (by decide))

/-- What is read of a line: all of it at once, or block by block. -/
def readLine : Option Nat → Bytes → List Char
  | none => decode
  | some m => readBlocks m

theorem flatMap_leftover (bytes : Bytes) : (leftover bytes).flatMap decode = decode bytes := by
  unfold leftover
  split_ifs with h
  · rw [h]
    rfl
  · exact List.flatMap_singleton _ _

end Text

namespace Splitter

open Greedy

variable {limit : Option Nat}

theorem split_none {line : Bytes} (hf : lineFeed ∉ line) : split none line = ([], line) :=
  split_of_cut_none (cut_eq_none hf nofun)

/-- The texts of all lines of some bytes, joined. -/
def joined (limit : Option Nat) (offset : Nat) (chunks : List Bytes) : List Char :=
  let pushed := (start offset limit).pushAll chunks
  (pushed.1 ++ pushed.2.finish.1.toList).flatMap (·.text.toList)

theorem joined_eq (hl : limit ≠ some 0) (offset : Nat) (chunks : List Bytes) :
    joined limit offset chunks =
      ((pieces limit offset chunks.flatten ++ remainder limit offset chunks.flatten).map
        Piece.content).flatMap Text.decode := by
  unfold joined
  rw [pushAll_start hl]
  dsimp only
  rw [finish_after hl, List.flatMap_map]
  refine congrArg (List.flatMap · _) (funext fun p => ?_)
  exact String.toList_ofList

theorem joined_lineFeed {line : Bytes} {chunks : List Bytes} (hl : limit ≠ some 0)
    (hf : lineFeed ∉ line) (hc : chunks.flatten = line ++ [lineFeed]) (offset : Nat) :
    joined limit offset chunks = Text.readLine limit (chomp line) := by
  have hrest : remainder limit offset (line ++ [lineFeed]) = [] :=
    if_pos (congrArg Prod.snd (split_lineFeed hl line))
  rw [joined_eq hl, hc, hrest, List.append_nil]
  cases limit with
  | none =>
    rw [content_pieces hl hf]
    unfold rest
    rw [split_none hf]
    exact List.flatMap_singleton _ _
  | some m =>
    have hm : 0 < m := Nat.pos_of_ne_zero fun e => hl (congrArg some e)
    rw [content_blocks hm hf, List.flatMap_map]
    exact Text.readBlocks_eq hm ((length_chomp_le line).trans (length_le_blocks hm line))

theorem joined_open {line : Bytes} {chunks : List Bytes} (hl : limit ≠ some 0)
    (hf : lineFeed ∉ line) (hc : chunks.flatten = line) (offset : Nat) :
    joined limit offset chunks = Text.readLine limit line := by
  have hpieces : (pieces limit offset line).map Piece.content = (split limit line).1 := by
    unfold pieces
    rw [map_content_place, content_split hl hf]
  have hremainder : (remainder limit offset line).map Piece.content = leftover (rest limit line) := by
    have hrest : lineFeed ∉ rest limit line := (not_mem_of_cut (cut_rest hl line)).1
    rw [← bytes_remainder limit offset]
    refine List.map_congr_left fun p hp => content_of_not_mem fun hb => hrest ?_
    rw [← flatten_leftover (rest limit line), ← bytes_remainder limit offset]
    exact List.mem_flatten_of_mem (List.mem_map_of_mem hp) hb
  rw [joined_eq hl, hc, List.map_append, hpieces, hremainder, List.flatMap_append,
    Text.flatMap_leftover]
  unfold rest
  cases limit with
  | none =>
    rw [split_none hf]
    rfl
  | some m =>
    have hm : 0 < m := Nat.pos_of_ne_zero fun e => hl (congrArg some e)
    have hlen := length_le_blocks hm line
    rw [split_of_not_mem hm hf, List.flatMap_map, ← block_last hlen]
    have hblocks := Text.readBlocks_eq hm hlen
    rwa [List.range_succ, List.flatMap_append, List.flatMap_singleton] at hblocks

/-- The text of a line that is cut is the text of the line with each character that a cut falls
inside of replaced, however the bytes come and whether or not a line feed ends them; it is the same
text exactly if no cut falls inside a character. -/
theorem text_of_cut_line {m : Nat} {line : String} {chunks : List Bytes} (ended : Bool)
    (hm : 0 < m) (hf : '\n' ∉ line.toList)
    (hc : chunks.flatten = Text.encode line ++ if ended then [lineFeed] else []) (offset : Nat) :
    let whole := joined none offset chunks
    let cut := joined (some m) offset chunks
    whole = (if ended then Text.chomp line.toList else line.toList) ∧
    cut = Text.cutText m 0 whole ∧
    (cut = whole ↔ ¬Text.CutInside m 0 whole) := by
  intro whole cut
  have hl : some m ≠ some 0 := fun e => hm.ne' (Option.some.inj e)
  have hnone : (none : Option Nat) ≠ some 0 := nofun
  have hline : lineFeed ∉ Text.encode line := Text.lineFeed_not_mem hf
  have hread (cs : List Char) : Text.readLine none (cs.flatMap String.utf8EncodeChar) = cs :=
    Text.decodeFrom_chars cs []
  have hcut (cs : List Char) :
      Text.readLine (some m) (cs.flatMap String.utf8EncodeChar) = Text.cutText m 0 cs :=
    Text.readBlocks_chars hm cs
  obtain ⟨hwhole, hcuts⟩ : whole = (if ended then Text.chomp line.toList else line.toList) ∧
      cut = Text.cutText m 0 (if ended then Text.chomp line.toList else line.toList) := by
    cases ended with
    | true =>
      have (limit : Option Nat) (hl : limit ≠ some 0) := joined_lineFeed hl hline hc offset
      unfold Text.encode at this
      simp only [Text.chomp_chars] at this
      exact ⟨(this none hnone).trans (hread _), (this (some m) hl).trans (hcut _)⟩
    | false =>
      rw [if_neg Bool.false_ne_true, List.append_nil] at hc
      exact ⟨(joined_open hnone hline hc offset).trans (hread _),
        (joined_open hl hline hc offset).trans (hcut _)⟩
  rw [← hwhole] at hcuts
  exact ⟨hwhole, hcuts, hcuts ▸ Text.cutText_eq_self_iff hm 0 whole⟩

theorem text_of_cut_line_euro :
    let chunks : List Bytes := [[0x61, 0x62, 0xE2], [0x82, 0xAC, 0x63], [carriageReturn, lineFeed]]
    let line := "ab€c\r"
    let whole := joined none 5 chunks
    let cut := joined (some 3) 5 chunks
    '\n' ∉ line.toList ∧ chunks.flatten = Text.encode line ++ [lineFeed] ∧
      whole = ['a', 'b', '€', 'c'] ∧ cut = ['a', 'b', '\uFFFD', '\uFFFD', '\uFFFD', 'c'] ∧
      whole = Text.chomp line.toList ∧
      cut = Text.cutText 3 0 whole ∧
      (cut = whole ↔ ¬Text.CutInside 3 0 whole) := by
  intro chunks line whole cut
  have hbytes : chunks.flatten = Text.encode line ++ [lineFeed] := by decide
  exact ⟨by decide, hbytes, by decide, by decide,
    text_of_cut_line true (by decide) (by decide) hbytes 5⟩

/-- Not every cut keeps the text: a character of two bytes in pieces of one byte is lost. -/
theorem not_kept_of_cut_inside :
    ¬∀ (m offset : Nat) (line : String) (ended : Bool) (chunks : List Bytes), 0 < m →
      '\n' ∉ line.toList →
      chunks.flatten = Text.encode line ++ (if ended then [lineFeed] else []) →
      joined (some m) offset chunks = joined none offset chunks := by
  intro h
  have := h 1 0 "é" true [[0xC3, 0xA9, lineFeed]] (by decide) (by decide) (by decide)
  exact absurd this (by decide)

end Splitter
end LogFollower
