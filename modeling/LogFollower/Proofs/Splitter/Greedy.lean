import LogFollower.Splitter
import Mathlib.Data.List.TakeWhile
import Mathlib.Tactic

/-!
# The greedy split

`Greedy.split` says what the lines of some bytes are without a scanner: the next piece goes through
the next line feed if that comes within the limit, and else takes as many bytes as the limit allows
if there are more of them. What is left over is the `rest`.

1. A cut is decided by the bytes it has seen (`cut_append`), so the split of more bytes begins with
   the split of fewer (`split_append`).
2. `Splitter.after` is the splitter that has taken some bytes since its start, computed from those
   bytes alone. Pushing takes `after` of the bytes before to `after` of the bytes with them
   (`push_after`), however they were cut into pushes.
-/

namespace LogFollower

namespace Greedy

/-! ## Pieces of bytes -/

/-- How many bytes stand before the next line feed. -/
def lineLength (bytes : Bytes) : Nat := (bytes.takeWhile (· ≠ lineFeed)).length

/-- How many bytes the next piece takes: through the next line feed if that is within the limit,
and as many as the limit if there are more. -/
def cut (limit : Option Nat) (bytes : Bytes) : Option Nat :=
  match limit with
  | none => if lineLength bytes < bytes.length then some (lineLength bytes + 1) else none
  | some m =>
    if lineLength bytes < bytes.length ∧ lineLength bytes ≤ m then some (lineLength bytes + 1)
    else if m < bytes.length then some m
    else none

theorem cut_nil (limit : Option Nat) : cut limit [] = none := by
  cases limit <;> simp [cut]

/-- The pieces of some bytes, and what is left over. -/
def split (limit : Option Nat) (bytes : Bytes) : List Bytes × Bytes :=
  match h : cut limit bytes with
  | some (n + 1) =>
    let more := split limit (bytes.drop (n + 1))
    (bytes.take (n + 1) :: more.1, more.2)
  | _ => ([], bytes)
termination_by bytes.length
decreasing_by
  cases bytes with
  | nil => rw [cut_nil] at h; cases h
  | cons b bytes => simp only [List.length_drop, List.length_cons]; omega

/-- What is left over behind the last piece. -/
def rest (limit : Option Nat) (bytes : Bytes) : Bytes := (split limit bytes).2

/-- Pieces with the offsets they end at, the first beginning at an offset. -/
def place (offset : Nat) : List Bytes → List Piece
  | [] => []
  | p :: more => ⟨p, offset + p.length⟩ :: place (offset + p.length) more

def pieces (limit : Option Nat) (offset : Nat) (bytes : Bytes) : List Piece :=
  place offset (split limit bytes).1

/-- The rest as a last piece, if there is any. -/
def remainder (limit : Option Nat) (offset : Nat) (bytes : Bytes) : List Piece :=
  if rest limit bytes = [] then [] else [⟨rest limit bytes, offset + bytes.length⟩]

/-! ## Lengths of lines -/

theorem lineLength_le (bytes : Bytes) : lineLength bytes ≤ bytes.length :=
  (List.takeWhile_sublist _).length_le

theorem lineLength_eq {bytes : Bytes} (h : lineFeed ∉ bytes) : lineLength bytes = bytes.length := by
  unfold lineLength
  rw [List.takeWhile_eq_self_iff.2]
  intro b hb
  simpa using fun e : b = lineFeed => h (e ▸ hb)

theorem lineLength_append {a : Bytes} (h : lineLength a < a.length) (b : Bytes) :
    lineLength (a ++ b) = lineLength a := by
  unfold lineLength at h ⊢
  rw [List.takeWhile_append, if_neg (by omega)]

theorem lineLength_append_of_eq {a : Bytes} (h : lineLength a = a.length) (b : Bytes) :
    lineLength (a ++ b) = a.length + lineLength b := by
  unfold lineLength at h ⊢
  rw [List.takeWhile_append, if_pos h, List.length_append]

theorem not_mem_of_lineLength {bytes : Bytes} (h : lineLength bytes = bytes.length) :
    lineFeed ∉ bytes := by
  intro hm
  have hw := (List.takeWhile_sublist (· ≠ lineFeed)).eq_of_length h
  have := List.takeWhile_eq_self_iff.1 hw lineFeed hm
  simp at this

/-! ## Cuts -/

/-- A cut is decided by the bytes it has seen. -/
theorem cut_append {limit : Option Nat} {a : Bytes} {k : Nat} (h : cut limit a = some k)
    (b : Bytes) : cut limit (a ++ b) = some k := by
  have hle := lineLength_le a
  cases limit with
  | none =>
    simp only [cut] at h ⊢
    by_cases hl : lineLength a < a.length
    · rw [if_pos hl] at h
      rw [lineLength_append hl, if_pos (by rw [List.length_append]; omega), h]
    · rw [if_neg hl] at h; cases h
  | some m =>
    simp only [cut] at h ⊢
    by_cases hl : lineLength a < a.length
    · rw [lineLength_append hl]
      by_cases hm : lineLength a ≤ m
      · rw [if_pos ⟨hl, hm⟩] at h
        rw [if_pos ⟨by rw [List.length_append]; omega, hm⟩, h]
      · rw [if_neg (fun hc => hm hc.2), if_pos (by omega)] at h
        rw [if_neg (fun hc => hm hc.2), if_pos (by rw [List.length_append]; omega), h]
    · rw [if_neg (fun hc => hl hc.1)] at h
      split_ifs at h with hm
      rw [lineLength_append_of_eq (by omega), if_neg (by omega),
        if_pos (by rw [List.length_append]; omega), h]

theorem cut_le_length {limit : Option Nat} {bytes : Bytes} {k : Nat}
    (h : cut limit bytes = some k) : k ≤ bytes.length := by
  cases limit with
  | none =>
    simp only [cut] at h
    split_ifs at h
    simp only [Option.some.injEq] at h; omega
  | some m =>
    simp only [cut] at h
    split_ifs at h <;> simp only [Option.some.injEq] at h <;> omega

theorem cut_ne_zero {limit : Option Nat} (hl : limit ≠ some 0) (bytes : Bytes) :
    cut limit bytes ≠ some 0 := by
  cases limit with
  | none => simp only [cut]; split_ifs <;> simp
  | some m =>
    have : m ≠ 0 := fun e => hl (e ▸ rfl)
    simp only [cut]; split_ifs <;> simp [this]

theorem cut_eq_none {limit : Option Nat} {a : Bytes} (hf : lineFeed ∉ a)
    (hm : ∀ m, limit = some m → a.length ≤ m) : cut limit a = none := by
  have h := lineLength_eq hf
  cases limit with
  | none => simp [cut, h]
  | some m => simp [cut, h, hm m rfl]

theorem not_mem_of_cut {limit : Option Nat} {a : Bytes} (h : cut limit a = none) :
    lineFeed ∉ a ∧ ∀ m, limit = some m → a.length ≤ m := by
  have hle := lineLength_le a
  cases limit with
  | none =>
    simp only [cut] at h
    split_ifs at h with hl
    exact ⟨not_mem_of_lineLength (by omega), by simp⟩
  | some m =>
    simp only [cut] at h
    split_ifs at h with hl hm
    refine ⟨not_mem_of_lineLength (by omega), ?_⟩
    rintro _ ⟨⟩
    omega

theorem cut_lineFeed {limit : Option Nat} {a : Bytes} (hf : lineFeed ∉ a)
    (hm : ∀ m, limit = some m → a.length ≤ m) (b : Bytes) :
    cut limit (a ++ lineFeed :: b) = some (a.length + 1) := by
  have h : lineLength (a ++ lineFeed :: b) = a.length := by
    rw [lineLength_append_of_eq (lineLength_eq hf)]
    simp [lineLength]
  cases limit with
  | none => simp [cut, h]
  | some m => simp [cut, h, hm m rfl]

theorem cut_limit {a : Bytes} (hf : lineFeed ∉ a) {c : UInt8} (hc : c ≠ lineFeed) (b : Bytes) :
    cut (some a.length) (a ++ c :: b) = some a.length := by
  have h : lineLength (a ++ c :: b) = a.length + (1 + lineLength b) := by
    rw [lineLength_append_of_eq (lineLength_eq hf)]
    simp [lineLength, hc, Nat.add_comm]
  simp only [cut, h]
  rw [if_neg (by omega), if_pos (by simp)]

/-! ## Splits -/

theorem split_of_cut {limit : Option Nat} {bytes : Bytes} {k : Nat}
    (h : cut limit bytes = some k) (hk : k ≠ 0) :
    split limit bytes =
      (bytes.take k :: (split limit (bytes.drop k)).1, (split limit (bytes.drop k)).2) := by
  obtain ⟨n, rfl⟩ := Nat.exists_eq_succ_of_ne_zero hk
  rw [split]
  split
  · next n' h' =>
    rw [h] at h'
    simp only [Option.some.injEq, Nat.succ_eq_add_one, Nat.add_right_cancel_iff] at h'
    rw [h']
  · next hne => exact absurd h (hne n)

theorem split_of_cut_none {limit : Option Nat} {bytes : Bytes} (h : cut limit bytes = none) :
    split limit bytes = ([], bytes) := by
  rw [split]
  split
  · next h' => rw [h] at h'; cases h'
  · rfl

/-- An induction along the pieces of some bytes. -/
theorem split_induction {limit : Option Nat} (hl : limit ≠ some 0) {motive : Bytes → Prop}
    (rest : ∀ bytes, cut limit bytes = none → motive bytes)
    (piece : ∀ bytes k, cut limit bytes = some k → k ≠ 0 → motive (bytes.drop k) → motive bytes)
    (bytes : Bytes) : motive bytes := by
  induction h : bytes.length using Nat.strong_induction_on generalizing bytes with
  | _ n ih =>
    cases hc : cut limit bytes with
    | none => exact rest bytes hc
    | some k =>
      have hk : k ≠ 0 := fun e => cut_ne_zero hl bytes (e ▸ hc)
      have hle := cut_le_length hc
      exact piece bytes k hc hk (ih _ (by rw [List.length_drop]; omega) _ rfl)

theorem flatten_split {limit : Option Nat} (hl : limit ≠ some 0) (bytes : Bytes) :
    (split limit bytes).1.flatten ++ rest limit bytes = bytes := by
  unfold rest
  induction bytes using split_induction hl with
  | rest bytes h => rw [split_of_cut_none h]; rfl
  | piece bytes k h hk ih =>
    rw [split_of_cut h hk, List.flatten_cons, List.append_assoc, ih, List.take_append_drop]

theorem ne_nil_of_mem_split {limit : Option Nat} (hl : limit ≠ some 0) (bytes : Bytes) :
    ∀ p ∈ (split limit bytes).1, p ≠ [] := by
  induction bytes using split_induction hl with
  | rest bytes h => rw [split_of_cut_none h]; simp
  | piece bytes k h hk ih =>
    rw [split_of_cut h hk]
    intro p hp
    rcases List.mem_cons.1 hp with rfl | hp
    · have := cut_le_length h
      exact List.ne_nil_of_length_pos (by rw [List.length_take]; omega)
    · exact ih p hp

theorem cut_rest {limit : Option Nat} (hl : limit ≠ some 0) (bytes : Bytes) :
    cut limit (rest limit bytes) = none := by
  unfold rest
  induction bytes using split_induction hl with
  | rest bytes h => rw [split_of_cut_none h]; exact h
  | piece bytes k h hk ih => rw [split_of_cut h hk]; exact ih

/-- The split of more bytes begins with the split of fewer and goes on with what was left. -/
theorem split_append {limit : Option Nat} (hl : limit ≠ some 0) (a b : Bytes) :
    split limit (a ++ b) =
      ((split limit a).1 ++ (split limit (rest limit a ++ b)).1,
        (split limit (rest limit a ++ b)).2) := by
  unfold rest
  induction a using split_induction hl with
  | rest a h => rw [split_of_cut_none h]; rfl
  | piece a k h hk ih =>
    have hle := cut_le_length h
    rw [split_of_cut (cut_append h b) hk, split_of_cut h hk, List.take_append_of_le_length hle,
      List.drop_append_of_le_length hle, ih]
    rfl

/-- A split has no memory: the pieces behind some of them are those of the bytes behind
them. -/
theorem drop_split {limit : Option Nat} (hl : limit ≠ some 0) (bytes : Bytes) (i : Nat) :
    (split limit bytes).1.drop i =
      (split limit (bytes.drop ((split limit bytes).1.take i).flatten.length)).1 := by
  induction bytes using split_induction hl generalizing i with
  | rest bytes h => simp [split_of_cut_none h]
  | piece bytes k h hk ih =>
    cases i with
    | zero => simp
    | succ i =>
      have hlen : (bytes.take k).length = k := List.length_take_of_le (cut_le_length h)
      rw [split_of_cut h hk, List.drop_succ_cons, ih, List.take_succ_cons, List.flatten_cons,
        List.length_append, hlen, List.drop_drop]

/-! ## Placed pieces -/

theorem place_append (offset : Nat) (ps qs : List Bytes) :
    place offset (ps ++ qs) = place offset ps ++ place (offset + ps.flatten.length) qs := by
  induction ps generalizing offset with
  | nil => rfl
  | cons p ps ih =>
    simp only [List.cons_append, place, ih, List.flatten_cons, List.length_append, Nat.add_assoc]

theorem take_place (offset i : Nat) (ps : List Bytes) :
    (place offset ps).take i = place offset (ps.take i) := by
  induction ps generalizing offset i with
  | nil => simp [place]
  | cons p ps ih =>
    cases i with
    | zero => rfl
    | succ i => simp only [place, List.take_succ_cons, ih]

theorem pieces_append {limit : Option Nat} (hl : limit ≠ some 0) (offset : Nat) (a b : Bytes) :
    pieces limit offset (a ++ b) =
      pieces limit offset a ++
        pieces limit (offset + (split limit a).1.flatten.length) (rest limit a ++ b) := by
  unfold pieces
  rw [split_append hl, place_append]

end Greedy

/-! ## The splitter -/

namespace Splitter

open Greedy

/-- The splitter that has taken some bytes since it started at an offset. -/
def after (limit : Option Nat) (offset : Nat) (bytes : Bytes) : Splitter :=
  ⟨limit, offset + (split limit bytes).1.flatten.length, (rest limit bytes).reverse⟩

theorem after_nil (limit : Option Nat) (offset : Nat) :
    after limit offset [] = start offset limit := by
  unfold after rest
  rw [split_of_cut_none (cut_nil limit)]
  rfl

theorem consumed_after {limit : Option Nat} (hl : limit ≠ some 0) (offset : Nat) (bytes : Bytes) :
    (after limit offset bytes).consumed = offset + bytes.length := by
  have h := congrArg List.length (flatten_split hl bytes)
  rw [List.length_append] at h
  show offset + (split limit bytes).1.flatten.length + (rest limit bytes).reverse.length = _
  rw [List.length_reverse]
  omega

/-- Scanning from some held bytes splits them together with what follows. -/
theorem scan_eq_split {limit : Option Nat} (hl : limit ≠ some 0) (bytes : Bytes) (offset : Nat)
    (held : Bytes) (hh : cut limit held.reverse = none) :
    scan limit bytes offset held held.length [] =
      (pieces limit offset (held.reverse ++ bytes), after limit offset (held.reverse ++ bytes)) := by
  -- the held bytes are what was left over, so each byte either stays with them or makes a cut
  induction bytes generalizing offset held with
  | nil =>
    unfold scan pieces after rest
    rw [List.append_nil, split_of_cut_none hh]
    simp [place]
  | cons b bytes ih =>
    obtain ⟨hf, hm⟩ := not_mem_of_cut hh
    simp only [scan]
    split_ifs with hb hs
    · subst hb
      have hc := cut_lineFeed hf hm bytes
      have hcons : held.reverse ++ lineFeed :: bytes = (lineFeed :: held).reverse ++ bytes := by simp
      have hsplit := split_of_cut hc (by omega)
      rw [hcons, List.length_reverse, List.take_left' (by simp), List.drop_left' (by simp)] at hsplit
      have hnext := ih (offset + held.length + 1) [] (cut_nil limit)
      rw [List.length_nil, List.reverse_nil, List.nil_append] at hnext
      rw [scan_done, hnext, hcons]
      unfold pieces after rest
      rw [hsplit]
      simp [place, Nat.add_assoc, Nat.add_comm]
    · have hc : cut limit (held.reverse ++ b :: bytes) = some held.length := by
        have h := cut_limit hf hb bytes
        rw [List.length_reverse] at h
        rw [hs.2]
        exact h
      have hsplit := split_of_cut hc hs.1
      rw [List.take_left' (by simp), List.drop_left' (by simp)] at hsplit
      have hone : cut limit [b].reverse = none :=
        cut_eq_none (by simpa using Ne.symm hb) (fun m e => by
          have : m ≠ 0 := fun e' => hl (e' ▸ e)
          simp; omega)
      have := ih (offset + held.length) [b] hone
      simp only [List.length_singleton, List.reverse_singleton, List.singleton_append] at this
      rw [scan_done, this]
      unfold pieces after rest
      rw [hsplit]
      simp [place, Nat.add_assoc]
    · have hcons : held.reverse ++ b :: bytes = (b :: held).reverse ++ bytes := by simp
      have hmore : cut limit (b :: held).reverse = none := by
        refine cut_eq_none (by simpa [Ne.symm hb] using hf) (fun m e => ?_)
        have h := hm m e
        have : held.length ≠ m := fun e' => hs ⟨fun e₀ => hl (by rw [e, ← e', e₀]), e' ▸ e⟩
        rw [List.length_reverse] at h ⊢
        rw [List.length_cons]
        omega
      rw [hcons, ← ih offset (b :: held) hmore, List.length_cons]

/-- Pushing takes the splitter after some bytes to the splitter after those and the pushed
ones. -/
theorem push_after {limit : Option Nat} (hl : limit ≠ some 0) (offset : Nat) (a b : Bytes) :
    (after limit offset a).push b =
      (pieces limit (offset + (split limit a).1.flatten.length) (rest limit a ++ b),
        after limit offset (a ++ b)) := by
  have hr : cut limit (rest limit a).reverse.reverse = none := by
    rw [List.reverse_reverse]; exact cut_rest hl a
  unfold push
  rw [show (after limit offset a).held = (rest limit a).reverse from rfl,
    show (after limit offset a).limit = limit from rfl,
    show (after limit offset a).committed = offset + (split limit a).1.flatten.length from rfl,
    scan_eq_split hl _ _ _ hr, List.reverse_reverse]
  have hs := split_append hl a b
  unfold after rest
  unfold rest at hs
  rw [hs, List.flatten_append, List.length_append, Nat.add_assoc]

theorem push_start {limit : Option Nat} (hl : limit ≠ some 0) (offset : Nat) (bytes : Bytes) :
    (start offset limit).push bytes = (pieces limit offset bytes, after limit offset bytes) := by
  rw [← after_nil, push_after hl, rest, split_of_cut_none (cut_nil limit)]
  rfl

theorem finish_after {limit : Option Nat} (hl : limit ≠ some 0) (offset : Nat) (bytes : Bytes) :
    (after limit offset bytes).finish.1.toList = remainder limit offset bytes := by
  have hc := consumed_after hl offset bytes
  unfold finish remainder
  by_cases h : rest limit bytes = []
  · rw [if_pos (by simp [after, h]), if_pos h]; rfl
  · rw [if_neg (by simp [after, h]), if_neg h, hc]
    simp [pending, after]

end Splitter
end LogFollower
