import LogFollower.Proofs.Splitter.Chunks
import Mathlib.Logic.Relation

/-!
# Cutting by turns

`push` takes its bytes one by one. The same pieces come out if the held bytes and the new ones are
put one behind the other and cut by turns, until there is no cut left; only then is dropped what
the cuts took.

1. A turn looks for the next line feed and at the limit (`nextCut`). What it takes is what
   `Greedy.cut` says of the bytes in front of the cursor (`turn_eq`).
2. With a limit other than zero every turn takes at least one byte (`behind_lt_of_turn`), so the
   turns end. They end with the pieces of `push` and with what it holds (`cuts_iff`).
3. With a limit of zero a turn takes nothing of a line, and the turns never end: they always end if
   and only if the limit is not zero (`always_cuts_iff`).
-/

namespace LogFollower.Splitter

open Greedy

/-- A place among bytes that are cut by turns. -/
structure Cursor where
  /-- How many of the bytes were taken. -/
  behind : Nat
  /-- The offset in the file of the next of them. -/
  offset : Nat
  /-- The pieces that were taken. -/
  done : List Piece
  deriving DecidableEq, Repr

/-- Where the piece that begins at an index stops: at its line feed, or at the limit if that comes
first. -/
def nextCut (limit : Option Nat) (bytes : Bytes) (behind : Nat) : Option Nat :=
  let rest := bytes.drop behind
  match rest.idxOf? lineFeed, limit with
  | some n, some m => if m < n then some (behind + m) else some (behind + n)
  | some n, none => some (behind + n)
  | none, some m => if m < rest.length then some (behind + m) else none
  | none, none => none

namespace Cursor

def front (offset : Nat) : Cursor := ⟨0, offset, []⟩

/-- One turn takes the next piece, and with it the line feed that it may stop at. -/
def turn (limit : Option Nat) (bytes : Bytes) (c : Cursor) : Option Cursor :=
  (nextCut limit bytes c.behind).map fun stop =>
    let next := if bytes[stop]? = some lineFeed then stop + 1 else stop
    let offset := c.offset + (next - c.behind)
    ⟨next, offset, c.done ++ [⟨(bytes.take next).drop c.behind, offset⟩]⟩

/-- The next turn looks only at bytes that are there, and takes at least one of them. -/
structure Advances (limit : Option Nat) (bytes : Bytes) (c : Cursor) : Prop where
  behind_le : c.behind ≤ bytes.length
  stop_lt : ∀ stop, nextCut limit bytes c.behind = some stop → c.behind ≤ stop ∧ stop < bytes.length
  behind_lt : ∀ d, c.turn limit bytes = some d → c.behind < d.behind

end Cursor

/-- Turns one after another. -/
def Turns (limit : Option Nat) (bytes : Bytes) : Cursor → Cursor → Prop :=
  Relation.ReflTransGen fun c d => c.turn limit bytes = some d

/-- The turns over what is held and what comes have an end, and then these pieces were taken, and
the splitter holds what was not. -/
def Cuts (s : Splitter) (bytes : Bytes) (r : List Piece × Splitter) : Prop :=
  ∃ d : Cursor, Turns s.limit (s.pending ++ bytes) (.front s.committed) d ∧
    d.turn s.limit (s.pending ++ bytes) = none ∧
    r = (d.done, ⟨s.limit, d.offset, ((s.pending ++ bytes).drop d.behind).reverse⟩)

variable {limit : Option Nat} {bytes : Bytes} {c d : Cursor} {base : Nat}

/-! ## What a turn takes -/

theorem idxOf?_lineFeed (bytes : Bytes) :
    bytes.idxOf? lineFeed =
      if lineLength bytes < bytes.length then some (lineLength bytes) else none := by
  induction bytes with
  | nil => simp [lineLength]
  | cons b bytes ih =>
    by_cases hb : b = lineFeed
    · simp [hb, lineLength, List.idxOf?_cons]
    · have hcons : lineLength (b :: bytes) = lineLength bytes + 1 := by simp [lineLength, hb]
      rw [List.idxOf?_cons, ih, hcons]
      by_cases hl : lineLength bytes < bytes.length <;> simp [hb, hl]

theorem getElem?_eq_lineFeed_iff {n : Nat} (h : n ≤ lineLength bytes) :
    bytes[n]? = some lineFeed ↔ n = lineLength bytes ∧ lineLength bytes < bytes.length := by
  induction bytes generalizing n with
  | nil => simp
  | cons b bytes ih =>
    by_cases hb : b = lineFeed
    · subst hb
      have hzero : lineLength (lineFeed :: bytes) = 0 := by simp [lineLength]
      obtain rfl : n = 0 := by omega
      simp [hzero]
    · have hcons : lineLength (b :: bytes) = lineLength bytes + 1 := by simp [lineLength, hb]
      rw [hcons] at h ⊢
      cases n with
      | zero => simp [hb]
      | succ n => simp [ih (Nat.le_of_succ_le_succ h)]

/-- Where the greedy cut takes some bytes, the turn stops behind them, or at the line feed that is
the last of them. -/
theorem nextCut_of_cut {behind k : Nat} (h : cut limit (bytes.drop behind) = some k) :
    ∃ n, nextCut limit bytes behind = some (behind + n) ∧ n < (bytes.drop behind).length ∧
      k = if (bytes.drop behind)[n]? = some lineFeed then n + 1 else n := by
  simp only [nextCut, idxOf?_lineFeed]
  generalize bytes.drop behind = rest at h ⊢
  have hline := getElem?_eq_lineFeed_iff (Nat.le_refl (lineLength rest))
  have hbefore : ∀ m, m < lineLength rest → rest[m]? ≠ some lineFeed := by
    intro m hm hlf
    have := (getElem?_eq_lineFeed_iff hm.le).1 hlf
    omega
  have hle := lineLength_le rest
  cases limit with
  | none =>
    simp only [cut] at h
    split_ifs at h with hl
    refine ⟨lineLength rest, by simp [hl], hl, ?_⟩
    rw [if_pos (hline.2 ⟨rfl, hl⟩), Option.some.inj h]
  | some m =>
    simp only [cut] at h
    split_ifs at h with hl hm
    · refine ⟨lineLength rest, by simp [hl.1, hl.2], hl.1, ?_⟩
      rw [if_pos (hline.2 ⟨rfl, hl.1⟩), Option.some.inj h]
    · obtain rfl := Option.some.inj h
      have hlt : m < lineLength rest := by omega
      refine ⟨m, ?_, hm, (if_neg (hbefore m hlt)).symm⟩
      by_cases hfeed : lineLength rest < rest.length <;> simp [hfeed, hlt, hm]

theorem nextCut_of_cut_none {behind : Nat} (h : cut limit (bytes.drop behind) = none) :
    nextCut limit bytes behind = none := by
  simp only [nextCut, idxOf?_lineFeed]
  obtain ⟨hf, hm⟩ := not_mem_of_cut h
  rw [if_neg (by rw [lineLength_eq hf]; exact Nat.lt_irrefl _)]
  cases limit with
  | none => rfl
  | some m => exact if_neg (hm m rfl).not_gt

theorem nextCut_lt {behind stop : Nat} (h : nextCut limit bytes behind = some stop) :
    behind ≤ stop ∧ stop < bytes.length := by
  cases hcut : cut limit (bytes.drop behind) with
  | none =>
    rw [nextCut_of_cut_none hcut] at h
    cases h
  | some k =>
    obtain ⟨n, hstop, hlt, -⟩ := nextCut_of_cut hcut
    obtain rfl := Option.some.inj (h.symm.trans hstop)
    rw [List.length_drop] at hlt
    omega

/-- A turn takes what the greedy cut takes of the bytes in front of the cursor. -/
theorem turn_eq (limit : Option Nat) (bytes : Bytes) (c : Cursor) :
    c.turn limit bytes = (cut limit (bytes.drop c.behind)).map fun k =>
      ⟨c.behind + k, c.offset + k, c.done ++ [⟨(bytes.drop c.behind).take k, c.offset + k⟩]⟩ := by
  cases hcut : cut limit (bytes.drop c.behind) with
  | none => simp [Cursor.turn, nextCut_of_cut_none hcut]
  | some k =>
    obtain ⟨n, hstop, -, rfl⟩ := nextCut_of_cut hcut
    have hnext : (if bytes[c.behind + n]? = some lineFeed then c.behind + n + 1 else c.behind + n) =
        c.behind + if (bytes.drop c.behind)[n]? = some lineFeed then n + 1 else n := by
      rw [List.getElem?_drop]
      split_ifs <;> rfl
    simp [Cursor.turn, hstop, hnext, List.drop_take]

/-- Every turn takes at least one byte, and none that is not there. -/
theorem behind_lt_of_turn (hl : limit ≠ some 0) (h : c.turn limit bytes = some d) :
    c.behind < d.behind ∧ d.behind ≤ bytes.length := by
  rw [turn_eq] at h
  obtain ⟨k, hcut, rfl⟩ := Option.map_eq_some_iff.1 h
  have hzero : k ≠ 0 := fun e => cut_ne_zero hl _ (e ▸ hcut)
  have hle := cut_le_length hcut
  rw [List.length_drop] at hle
  dsimp only
  omega

theorem exists_last_turn (hl : limit ≠ some 0) (bytes : Bytes) (c : Cursor) :
    ∃ d, Turns limit bytes c d ∧ d.turn limit bytes = none := by
  -- what is in front of the cursor gets less with each turn
  induction h : bytes.length - c.behind using Nat.strong_induction_on generalizing c with
  | _ n ih =>
    cases hturn : c.turn limit bytes with
    | none => exact ⟨c, .refl, hturn⟩
    | some c' =>
      have hlt := behind_lt_of_turn hl hturn
      obtain ⟨d, hd, hend⟩ := ih _ (by omega) c' rfl
      exact ⟨d, .head hturn hd, hend⟩

/-! ## What the turns give -/

namespace Cursor

/-- The pieces that were taken and those in front of the cursor are the pieces of all the bytes. -/
structure Among (limit : Option Nat) (bytes : Bytes) (base : Nat) (c : Cursor) : Prop where
  behind_le : c.behind ≤ bytes.length
  offset_eq : c.offset = base + c.behind
  pieces_eq : c.done ++ pieces limit c.offset (bytes.drop c.behind) = pieces limit base bytes
  rest_eq : rest limit (bytes.drop c.behind) = rest limit bytes

theorem among_front (limit : Option Nat) (bytes : Bytes) (base : Nat) :
    (front base).Among limit bytes base where
  behind_le := Nat.zero_le _
  offset_eq := rfl
  pieces_eq := rfl
  rest_eq := rfl

theorem Among.turn (hl : limit ≠ some 0) (h : c.Among limit bytes base)
    (hturn : c.turn limit bytes = some d) : d.Among limit bytes base := by
  have hbounds := behind_lt_of_turn hl hturn
  rw [turn_eq] at hturn
  obtain ⟨k, hcut, rfl⟩ := Option.map_eq_some_iff.1 hturn
  have hsplit := split_of_cut hcut fun e => cut_ne_zero hl _ (e ▸ hcut)
  rw [List.drop_drop] at hsplit
  have hlen : ((bytes.drop c.behind).take k).length = k :=
    List.length_take_of_le (cut_le_length hcut)
  refine ⟨hbounds.2, ?_, ?_, ?_⟩
  · rw [h.offset_eq, Nat.add_assoc]
  · rw [← h.pieces_eq]
    unfold pieces
    rw [hsplit, place, hlen, List.append_assoc]
    rfl
  · rw [← h.rest_eq]
    unfold rest
    rw [hsplit]

theorem Among.turns (hl : limit ≠ some 0) (h : c.Among limit bytes base)
    (hturns : Turns limit bytes c d) : d.Among limit bytes base := by
  induction hturns with
  | refl => exact h
  | tail _ hturn ih => exact ih.turn hl hturn

theorem Among.ended (hl : limit ≠ some 0) (h : d.Among limit bytes base)
    (hend : d.turn limit bytes = none) :
    (d.done, (⟨limit, d.offset, (bytes.drop d.behind).reverse⟩ : Splitter)) =
      (pieces limit base bytes, after limit base bytes) := by
  rw [turn_eq] at hend
  have hsplit := split_of_cut_none (Option.map_eq_none_iff.1 hend)
  have hdone : d.done = pieces limit base bytes := by
    have hpieces := h.pieces_eq
    unfold pieces at hpieces
    rw [hsplit, place, List.append_nil] at hpieces
    exact hpieces
  have hrest : bytes.drop d.behind = rest limit bytes := by
    rw [← h.rest_eq, rest, hsplit]
  have hoffset : d.offset = (after limit base bytes).committed := by
    have hconsumed := consumed_after hl base bytes
    have hlen : (rest limit bytes).length = bytes.length - d.behind := by
      rw [← hrest, List.length_drop]
    unfold consumed at hconsumed
    rw [after, List.length_reverse, hlen] at hconsumed
    rw [after, h.offset_eq]
    have hle := h.behind_le
    dsimp only at hconsumed ⊢
    omega
  rw [hdone, hrest, hoffset]
  rfl

theorem Among.advances (hl : limit ≠ some 0) (h : c.Among limit bytes base) :
    c.Advances limit bytes where
  behind_le := h.behind_le
  stop_lt _ hstop := nextCut_lt hstop
  behind_lt _ hturn := (behind_lt_of_turn hl hturn).1

end Cursor

theorem advances_of_turns (hl : limit ≠ some 0) (h : Turns limit bytes (.front base) c) :
    c.Advances limit bytes :=
  ((Cursor.among_front limit bytes base).turns hl h).advances hl

/-- The turns give what a push gives, and nothing else. -/
theorem cuts_iff {s : Splitter} (hl : s.limit ≠ some 0) (hs : s.Settled) (bytes : Bytes)
    (r : List Piece × Splitter) : s.Cuts bytes r ↔ r = s.push bytes := by
  have hfront := Cursor.among_front s.limit (s.pending ++ bytes) s.committed
  rw [push_eq hl hs]
  constructor
  · rintro ⟨d, hturns, hend, rfl⟩
    exact (hfront.turns hl hturns).ended hl hend
  · rintro rfl
    obtain ⟨d, hturns, hend⟩ := exists_last_turn hl (s.pending ++ bytes) (.front s.committed)
    exact ⟨d, hturns, hend, ((hfront.turns hl hturns).ended hl hend).symm⟩

/-! ## A limit of zero -/

/-- A turn takes nothing of a line, so the next one finds the same bytes. -/
theorem turn_of_zero {b : UInt8} (hb : b ≠ lineFeed) (bytes : Bytes) (hc : c.behind = 0) :
    c.turn (some 0) (b :: bytes) = some ⟨0, c.offset, c.done ++ [⟨[], c.offset⟩]⟩ := by
  have hcut : cut (some 0) (b :: bytes) = some 0 := by simp [cut, lineLength, hb]
  simp [turn_eq, hc, hcut]

theorem not_cuts_of_zero {b : UInt8} (hb : b ≠ lineFeed) (offset : Nat) (bytes : Bytes)
    (r : List Piece × Splitter) : ¬ (start offset (some 0)).Cuts (b :: bytes) r := by
  have stays : ∀ d, Turns (some 0) (b :: bytes) (.front offset) d → d.behind = 0 := by
    intro d hturns
    induction hturns with
    | refl => rfl
    | tail _ hturn ih =>
      rw [turn_of_zero hb bytes ih] at hturn
      exact (congrArg Cursor.behind (Option.some.inj hturn)).symm
  rintro ⟨d, hturns, hend, -⟩
  have hmore := turn_of_zero hb bytes (stays d hturns)
  exact Option.some_ne_none _ (hmore.symm.trans hend)

/-- The turns end on whatever comes if and only if the limit is not zero. -/
theorem always_cuts_iff (limit : Option Nat) :
    (∀ offset bytes, ∃ r, (start offset limit).Cuts bytes r) ↔ limit ≠ some 0 := by
  constructor
  · rintro h rfl
    obtain ⟨r, hr⟩ := h 0 [carriageReturn]
    exact not_cuts_of_zero (by decide) 0 [] r hr
  · intro hl offset bytes
    exact ⟨_, (cuts_iff (s := start offset limit) hl (settled_start offset limit) bytes _).2 rfl⟩

end LogFollower.Splitter
