import LogFollower.Proofs.Splitter.Chunks
import LogFollower.Proofs.Splitter.Content

/-!
# The lines of some bytes

`Divides` says what the pieces of some bytes are: a piece goes through the next line feed where the
limit allows it, takes as many bytes as the limit where it does not, and what is neither is left
over. There is one such division (`divides_iff`), and it is the one that a splitter makes, however
the bytes come: `lines_of_chunks`.
-/

namespace LogFollower

namespace Greedy

/-- The division of some bytes into pieces and what is left over. -/
inductive Divides (limit : Option Nat) : Bytes → List Bytes → Bytes → Prop
  /-- A line feed that comes no later than behind the limit ends the piece. -/
  | line {line more : Bytes} {pieces : List Bytes} {rest : Bytes} (hf : lineFeed ∉ line)
      (hm : ∀ m, limit = some m → line.length ≤ m) (h : Divides limit more pieces rest) :
      Divides limit (line ++ lineFeed :: more) ((line ++ [lineFeed]) :: pieces) rest
  /-- If none does, the piece is as long as the limit, provided that there are more bytes. -/
  | cut {m : Nat} {bytes : Bytes} {pieces : List Bytes} {rest : Bytes} (hl : limit = some m)
      (hm : m < bytes.length) (hf : lineFeed ∉ bytes.take (m + 1))
      (h : Divides limit (bytes.drop m) pieces rest) :
      Divides limit bytes (bytes.take m :: pieces) rest
  /-- Fewer bytes without a line feed are left over. -/
  | rest {bytes : Bytes} (hf : lineFeed ∉ bytes) (hm : ∀ m, limit = some m → bytes.length ≤ m) :
      Divides limit bytes [] bytes

variable {limit : Option Nat}

theorem cut_of_not_mem {m : Nat} {bytes : Bytes} (hm : m < bytes.length)
    (hf : lineFeed ∉ bytes.take (m + 1)) : cut (some m) bytes = some m := by
  have hlen : (bytes.take m).length = m := List.length_take_of_le hm.le
  rw [List.take_succ_eq_append_getElem hm, List.mem_append, List.mem_singleton, not_or] at hf
  have h := cut_limit hf.1 (Ne.symm hf.2) (bytes.drop (m + 1))
  rwa [← List.drop_eq_getElem_cons hm, hlen, List.take_append_drop] at h

theorem not_mem_take {m : Nat} {bytes : Bytes} (h : m < lineLength bytes) :
    lineFeed ∉ bytes.take (m + 1) := by
  have hpre := List.takeWhile_prefix (· ≠ lineFeed) (l := bytes)
  have htake : bytes.take (m + 1) <+: bytes.takeWhile (· ≠ lineFeed) :=
    List.prefix_of_prefix_length_le (List.take_prefix _ _) hpre
      ((List.length_take_le _ _).trans h)
  intro hm
  simpa using List.mem_takeWhile_imp (htake.subset hm)

theorem exists_line {bytes : Bytes} (h : lineLength bytes < bytes.length) :
    ∃ line more, bytes = line ++ lineFeed :: more ∧ line.length = lineLength bytes ∧
      lineFeed ∉ line := by
  have happ := List.takeWhile_append_dropWhile (p := (· ≠ lineFeed)) (l := bytes)
  refine ⟨bytes.takeWhile (· ≠ lineFeed), (bytes.dropWhile (· ≠ lineFeed)).tail, ?_, rfl, ?_⟩
  · cases hd : bytes.dropWhile (· ≠ lineFeed) with
    | nil =>
      rw [hd, List.append_nil] at happ
      unfold lineLength at h
      rw [happ] at h
      omega
    | cons c more =>
      have hc := List.head?_dropWhile_not (· ≠ lineFeed) bytes
      rw [hd] at hc
      have hc : c = lineFeed := by simpa using hc
      rw [hc] at hd
      rw [List.tail_cons, ← hd, happ]
  · intro hm
    simpa using List.mem_takeWhile_imp hm

/-- How a cut comes about: by a line feed, or by the limit. -/
theorem cut_cases {bytes : Bytes} {k : Nat} (h : cut limit bytes = some k) :
    (∃ line more, bytes = line ++ lineFeed :: more ∧ k = line.length + 1 ∧ lineFeed ∉ line ∧
      ∀ m, limit = some m → line.length ≤ m) ∨
    limit = some k ∧ k < bytes.length ∧ lineFeed ∉ bytes.take (k + 1) := by
  have hle := lineLength_le bytes
  cases limit with
  | none =>
    simp only [cut] at h
    split_ifs at h with hf
    obtain ⟨line, more, hb, hlen, hline⟩ := exists_line hf
    refine .inl ⟨line, more, hb, by rw [hlen]; exact (Option.some.inj h).symm, hline, ?_⟩
    rintro _ ⟨⟩
  | some m =>
    simp only [cut] at h
    split_ifs at h with hf hm
    · obtain ⟨line, more, hb, hlen, hline⟩ := exists_line hf.1
      refine .inl ⟨line, more, hb, by rw [hlen]; exact (Option.some.inj h).symm, hline, ?_⟩
      rintro _ ⟨⟩
      exact hlen ▸ hf.2
    · obtain rfl := Option.some.inj h
      refine .inr ⟨rfl, hm, ?_⟩
      by_cases hlt : m < lineLength bytes
      · exact not_mem_take hlt
      · exact fun hmem => not_mem_of_lineLength (by omega) (List.mem_of_mem_take hmem)

/-- The greedy split is the division. -/
theorem divides_iff (hl : limit ≠ some 0) {bytes rest : Bytes} {pieces : List Bytes} :
    Divides limit bytes pieces rest ↔ split limit bytes = (pieces, rest) := by
  constructor
  · intro h
    induction h with
    | @line line more pieces rest hf hm _ ih =>
      have hcons : line ++ lineFeed :: more = (line ++ [lineFeed]) ++ more := by simp
      have hsplit := split_of_cut (cut_lineFeed hf hm more) (Nat.succ_ne_zero _)
      rwa [hcons, List.take_left' (by simp), List.drop_left' (by simp), ih, ← hcons] at hsplit
    | @cut m bytes pieces rest hlim hm hf _ ih =>
      have hzero : m ≠ 0 := fun e => hl (e ▸ hlim)
      have hcut : cut limit bytes = some m := by rw [hlim]; exact cut_of_not_mem hm hf
      have hsplit := split_of_cut hcut hzero
      rwa [ih] at hsplit
    | rest hf hm => exact split_of_cut_none (cut_eq_none hf hm)
  · intro h
    induction bytes using split_induction hl generalizing pieces with
    | rest bytes hc =>
      rw [split_of_cut_none hc] at h
      cases h
      obtain ⟨hf, hm⟩ := not_mem_of_cut hc
      exact .rest hf hm
    | piece bytes k hc hk ih =>
      rw [split_of_cut hc hk] at h
      cases h
      have hmore : Divides limit (bytes.drop k) (split limit (bytes.drop k)).1
          (split limit (bytes.drop k)).2 := ih rfl
      obtain ⟨line, more, rfl, rfl, hf, hm⟩ | ⟨hlim, hm, hf⟩ := cut_cases hc
      · have hcons : line ++ lineFeed :: more = (line ++ [lineFeed]) ++ more := by simp
        rw [hcons, List.drop_left' (by simp)] at hmore ⊢
        rw [List.take_left' (by simp), ← hcons]
        exact .line hf hm hmore
      · exact .cut hlim hm hf hmore

def leftover (rest : Bytes) : List Bytes := if rest = [] then [] else [rest]

theorem flatten_leftover (rest : Bytes) : (leftover rest).flatten = rest := by
  unfold leftover
  split_ifs with h
  · exact h.symm
  · exact List.append_nil rest

namespace Divides

variable {bytes rest : Bytes} {pieces : List Bytes}

theorem flatten (hl : limit ≠ some 0) (h : Divides limit bytes pieces rest) :
    (pieces ++ leftover rest).flatten = bytes := by
  have hsplit := (divides_iff hl).1 h
  have hflat := flatten_split hl bytes
  unfold Greedy.rest at hflat
  rw [hsplit] at hflat
  rw [List.flatten_append, flatten_leftover, hflat]

theorem ne_nil (hl : limit ≠ some 0) (h : Divides limit bytes pieces rest) :
    ∀ p ∈ pieces ++ leftover rest, p ≠ [] := by
  have hsplit := (divides_iff hl).1 h
  have hne := ne_nil_of_mem_split hl bytes
  rw [hsplit] at hne
  refine List.forall_mem_append.2 ⟨hne, fun p hp => ?_⟩
  unfold leftover at hp
  split_ifs at hp with hr
  · cases hp
  · exact List.mem_singleton.1 hp ▸ hr

theorem not_mem_dropLast (h : Divides limit bytes pieces rest) :
    ∀ p ∈ pieces ++ leftover rest, lineFeed ∉ p.dropLast := by
  have sub {p q : Bytes} (hf : lineFeed ∉ q) (hp : p.dropLast ⊆ q) : lineFeed ∉ p.dropLast :=
    fun hm => hf (hp hm)
  induction h with
  | line hf hm _ ih => 
    exact List.forall_mem_cons.2 ⟨by rwa [List.dropLast_concat], ih⟩
  | @cut m bytes pieces rest hlim hm hf _ ih =>
    refine List.forall_mem_cons.2 ⟨sub hf fun b hb => ?_, ih⟩
    exact (List.take_subset_take_left bytes (Nat.le_succ m)) (List.mem_of_mem_dropLast hb)
  | rest hf hm =>
    intro p hp
    unfold leftover at hp
    split_ifs at hp
    · cases hp
    · rw [List.mem_singleton.1 hp]
      exact sub hf fun b hb => List.mem_of_mem_dropLast hb

/-- A carriage return and its line feed stay in one piece. -/
theorem keeps_crlf (hl : limit ≠ some 0) (h : Divides limit bytes pieces rest) :
    (pieces ++ leftover rest).IsChain fun p q =>
      p.getLast? = some carriageReturn → q.head? ≠ some lineFeed := by
  induction h with
  | line hf hm _ ih =>
    refine List.isChain_cons.2 ⟨fun q _ hp => ?_, ih⟩
    rw [List.getLast?_concat] at hp
    cases hp
  | @cut m bytes pieces rest hlim hm hf h ih =>
    refine List.isChain_cons.2 ⟨fun q hq _ hlf => ?_, ih⟩
    -- the next piece begins behind the limit, where no line feed is
    obtain ⟨more, hmore⟩ : ∃ more, pieces ++ leftover rest = q :: more :=
      List.head?_eq_some_iff.1 hq
    obtain ⟨tail, rfl⟩ := List.head?_eq_some_iff.1 hlf
    have hflat := h.flatten hl
    rw [hmore, List.flatten_cons, List.cons_append] at hflat
    refine hf ?_
    rw [List.take_add, ← hflat]
    exact List.mem_append_right _ List.mem_cons_self
  | rest hf hm =>
    unfold leftover
    split_ifs
    · exact .nil
    · exact .singleton _

end Divides

theorem bytes_place (offset : Nat) (ps : List Bytes) :
    (place offset ps).map Piece.bytes = ps := by
  induction ps generalizing offset with
  | nil => rfl
  | cons p ps ih => exact congrArg (p :: ·) (ih _)

theorem stop_place {offset i : Nat} {ps : List Bytes} {p : Piece}
    (h : (place offset ps)[i]? = some p) :
    p.stop = offset + (ps.take (i + 1)).flatten.length := by
  induction ps generalizing offset i with
  | nil => cases h
  | cons q ps ih =>
    cases i with
    | zero =>
      obtain rfl := Option.some.inj h
      simp
    | succ i =>
      rw [ih h, List.take_succ_cons, List.flatten_cons, List.length_append, Nat.add_assoc]

theorem drop_place (offset i : Nat) (ps : List Bytes) :
    (place offset ps).drop i = place (offset + (ps.take i).flatten.length) (ps.drop i) := by
  induction i generalizing offset ps with
  | zero => rfl
  | succ i ih =>
    cases ps with
    | nil => rfl
    | cons p ps =>
      rw [place, List.drop_succ_cons, ih, List.drop_succ_cons, List.take_succ_cons,
        List.flatten_cons, List.length_append, Nat.add_assoc]

/-- From the end of a piece on, or of what is left over, the division goes on as if it had
started there. -/
theorem Divides.drop {bytes rest : Bytes} {pieces : List Bytes}
    (h : Divides limit bytes pieces rest) (i : Nat) :
    ∃ pieces' rest',
      Divides limit (bytes.drop ((pieces ++ leftover rest).take (i + 1)).flatten.length)
        pieces' rest' ∧
      pieces' ++ leftover rest' = (pieces ++ leftover rest).drop (i + 1) := by
  induction h generalizing i with
  | @line line more pieces rest hf hm h ih =>
    have hcons : line ++ lineFeed :: more = (line ++ [lineFeed]) ++ more := by simp
    rw [List.cons_append, List.take_succ_cons, List.flatten_cons, List.length_append, hcons,
      ← List.drop_drop, List.drop_left, List.drop_succ_cons]
    cases i with
    | zero => exact ⟨pieces, rest, h, rfl⟩
    | succ i => exact ih i
  | @cut m bytes pieces rest hl hm hf h ih =>
    rw [List.cons_append, List.take_succ_cons, List.flatten_cons, List.length_append,
      List.length_take_of_le hm.le, ← List.drop_drop, List.drop_succ_cons]
    cases i with
    | zero => exact ⟨pieces, rest, h, rfl⟩
    | succ i => exact ih i
  | @rest bytes hf hm =>
    have hone : (([] : List Bytes) ++ leftover bytes).length ≤ i + 1 := by
      rw [List.nil_append]
      unfold leftover
      split_ifs <;> simp
    rw [List.take_of_length_le hone, List.drop_of_length_le hone, List.nil_append,
      flatten_leftover, List.drop_length]
    exact ⟨[], [], .rest List.not_mem_nil fun m _ => Nat.zero_le m, rfl⟩

theorem pieces_from_stop (hl : limit ≠ some 0) {offset i : Nat} {bytes : Bytes} {p : Piece}
    (h : (pieces limit offset bytes)[i]? = some p) :
    offset ≤ p.stop ∧ pieces limit offset bytes =
      (pieces limit offset bytes).take (i + 1) ++
        pieces limit p.stop (bytes.drop (p.stop - offset)) := by
  have hstop := stop_place h
  refine ⟨hstop ▸ Nat.le_add_right _ _, ?_⟩
  unfold pieces
  rw [take_place, hstop, Nat.add_sub_cancel_left, ← drop_split hl, ← place_append,
    List.take_append_drop]

theorem stop_le (hl : limit ≠ some 0) {offset i : Nat} {bytes : Bytes} {p : Piece}
    (h : (pieces limit offset bytes)[i]? = some p) :
    p.stop ≤ offset + bytes.length := by
  have hflat := congrArg List.length (flatten_split hl bytes)
  have htake := congrArg (fun ps => (List.flatten ps).length)
    (List.take_append_drop (i + 1) (split limit bytes).1)
  simp only [List.flatten_append, List.length_append] at hflat htake
  rw [stop_place h]
  omega

theorem pieces_append_remainder (hl : limit ≠ some 0) (offset : Nat) (bytes : Bytes) :
    pieces limit offset bytes ++ remainder limit offset bytes =
      place offset ((split limit bytes).1 ++ leftover (rest limit bytes)) := by
  have hlen := congrArg List.length (flatten_split hl bytes)
  rw [List.length_append] at hlen
  rw [place_append]
  unfold pieces remainder leftover
  split_ifs with hr
  · rfl
  · rw [← hlen, ← Nat.add_assoc]
    rfl

theorem bytes_remainder (limit : Option Nat) (offset : Nat) (bytes : Bytes) :
    (remainder limit offset bytes).map Piece.bytes = leftover (rest limit bytes) := by
  unfold remainder leftover
  split_ifs <;> rfl

end Greedy

namespace Splitter

open Greedy

variable {limit : Option Nat}

theorem pushAll_start (hl : limit ≠ some 0) (offset : Nat) (chunks : List Bytes) :
    (start offset limit).pushAll chunks =
      (pieces limit offset chunks.flatten, after limit offset chunks.flatten) := by
  rw [pushAll_eq (s := start offset limit) hl (settled_start offset limit), push_start hl]

/-- **The lines of some bytes are those of their division**, however the bytes come. The pieces
that end in a line feed or at the limit come out of the pushes and the rest out of the finish; they
follow one another from the first byte to the last; and the text of each is that of its bytes. -/
theorem lines_of_chunks (hl : limit ≠ some 0) (offset : Nat) (chunks : List Bytes) :
    let pushed := (start offset limit).pushAll chunks
    let lines := pushed.1 ++ pushed.2.finish.1.toList
    (∃ pieces rest, Divides limit chunks.flatten pieces rest ∧
      pushed.1.map Piece.bytes = pieces ∧ pushed.2.pending = rest ∧
      pushed.2.finish.1.toList.map Piece.bytes = leftover rest) ∧
    (lines.map Piece.bytes).flatten = chunks.flatten ∧
    (∀ i p, lines[i]? = some p →
      p.stop = offset + ((lines.take (i + 1)).map Piece.bytes).flatten.length) ∧
    (∀ p ∈ lines, (∃ line, Strips p.bytes line ∧ p.text = Text.lossy line) ∧
      '\n' ∉ p.text.toList) ∧
    (lines.map Piece.bytes).IsChain fun p q =>
      p.getLast? = some carriageReturn → q.head? ≠ some lineFeed := by
  intro pushed lines
  have hdiv : Divides limit chunks.flatten _ (rest limit chunks.flatten) := (divides_iff hl).2 rfl
  have hpushed : pushed = _ := pushAll_start hl offset chunks
  have hfinish : pushed.2.finish.1.toList = remainder limit offset chunks.flatten := by
    rw [hpushed, finish_after hl]
  have hlines : lines = place offset ((split limit chunks.flatten).1 ++
      leftover (rest limit chunks.flatten)) := by
    rw [← pieces_append_remainder hl, ← hfinish]
    exact congrArg (·.1 ++ pushed.2.finish.1.toList) hpushed
  have hbytes : lines.map Piece.bytes =
      (split limit chunks.flatten).1 ++ leftover (rest limit chunks.flatten) := by
    rw [hlines, bytes_place]
  refine ⟨⟨_, _, hdiv, ?_, ?_, ?_⟩, ?_, fun i p hp => ?_, fun p hp => ?_, ?_⟩
  · rw [hpushed]
    exact bytes_place _ _
  · rw [hpushed]
    exact List.reverse_reverse _
  · rw [hfinish]
    exact bytes_remainder _ _ _
  · rw [hbytes]
    exact hdiv.flatten hl
  · rw [List.map_take, hbytes]
    exact stop_place (hlines ▸ hp)
  · have hmem := List.mem_map_of_mem (f := Piece.bytes) hp
    rw [hbytes] at hmem
    have hstrips := strips_content p
    exact ⟨⟨p.content, hstrips, rfl⟩,
      Text.not_mem_lossy (hstrips.not_mem (hdiv.not_mem_dropLast _ hmem))⟩
  · rw [hbytes]
    exact hdiv.keeps_crlf hl

theorem lines_of_chunks_crlf :
    let chunks : List Bytes := [[0x61, 0x62, carriageReturn], [lineFeed, 0x61, 0x62, 0x63],
      [carriageReturn, lineFeed, 0xE2], [0x82]]
    let pushed := (start 5 (some 3)).pushAll chunks
    let lines := pushed.1 ++ pushed.2.finish.1.toList
    lines = [⟨[0x61, 0x62, carriageReturn, lineFeed], 9⟩, ⟨[0x61, 0x62, 0x63], 12⟩,
        ⟨[carriageReturn, lineFeed], 14⟩, ⟨[0xE2, 0x82], 16⟩] ∧
      (∃ pieces rest, Divides (some 3) chunks.flatten pieces rest ∧
        pushed.1.map Piece.bytes = pieces ∧ pushed.2.pending = rest ∧
        pushed.2.finish.1.toList.map Piece.bytes = leftover rest) ∧
      (lines.map Piece.bytes).flatten = chunks.flatten ∧
      (∀ i p, lines[i]? = some p →
        p.stop = 5 + ((lines.take (i + 1)).map Piece.bytes).flatten.length) ∧
      (∀ p ∈ lines, (∃ line, Strips p.bytes line ∧ p.text = Text.lossy line) ∧
        '\n' ∉ p.text.toList) ∧
      (lines.map Piece.bytes).IsChain fun p q =>
        p.getLast? = some carriageReturn → q.head? ≠ some lineFeed := by
  intro chunks pushed lines
  exact ⟨by decide, lines_of_chunks (by decide) 5 chunks⟩

end Splitter
end LogFollower
