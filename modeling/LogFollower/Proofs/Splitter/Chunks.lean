import LogFollower.Proofs.Splitter.Greedy

/-!
# Pushing in chunks

A splitter is pushed to, finished and reset in any order. Whatever was done to it, the bytes that it
holds are not cut (`Settled`), so they and the bytes that come next are cut together as if they came
at once (`push_eq`). A cut that was made stays made when more bytes come, and one that was not made
waits for them: pushing in parts is pushing at once (`push_append`, `pushAll_eq`).
-/

namespace LogFollower.Splitter

open Greedy

/-- What is done to a splitter. -/
inductive Call
  | push (bytes : Bytes)
  | finish
  | reset (offset : Nat)
  deriving DecidableEq, Repr

/-- The pieces that a call gives back, and the splitter after it. -/
def call (s : Splitter) : Call → List Piece × Splitter
  | .push bytes => s.push bytes
  | .finish => (s.finish.1.toList, s.finish.2)
  | .reset offset => ([], s.reset offset)

/-- Calls one after another: all pieces that they give back, and the splitter after them. -/
def calls (s : Splitter) : List Call → List Piece × Splitter
  | [] => ([], s)
  | c :: more => ((s.call c).1 ++ ((s.call c).2.calls more).1, ((s.call c).2.calls more).2)

def pushAll (s : Splitter) (chunks : List Bytes) : List Piece × Splitter :=
  s.calls (chunks.map .push)

/-- The splitters that calls lead to. -/
def Reached (limit : Option Nat) (s : Splitter) : Prop :=
  ∃ offset done, s = ((start offset limit).calls done).2

/-- The held bytes are not cut. -/
def Settled (s : Splitter) : Prop := cut s.limit s.pending = none

variable {s : Splitter} {limit : Option Nat}

theorem pushAll_cons (s : Splitter) (chunk : Bytes) (chunks : List Bytes) :
    s.pushAll (chunk :: chunks) =
      ((s.push chunk).1 ++ ((s.push chunk).2.pushAll chunks).1,
        ((s.push chunk).2.pushAll chunks).2) := rfl

/-! ## What calls keep -/

theorem settled_start (offset : Nat) (limit : Option Nat) : (start offset limit).Settled :=
  cut_nil limit

theorem settled_reset (s : Splitter) (offset : Nat) : (s.reset offset).Settled := cut_nil s.limit

theorem settled_after (hl : limit ≠ some 0) (offset : Nat) (bytes : Bytes) :
    (after limit offset bytes).Settled := by
  have h := cut_rest hl bytes
  rwa [← (rest limit bytes).reverse_reverse] at h

/-- A settled splitter is the one that took what it holds. -/
theorem after_pending (hs : s.Settled) : after s.limit s.committed s.pending = s := by
  have hsplit := split_of_cut_none hs
  unfold after rest
  rw [hsplit, pending, List.reverse_reverse]
  rfl

/-- A push cuts the held bytes and those that come as if they came at once. -/
theorem push_eq (hl : s.limit ≠ some 0) (hs : s.Settled) (bytes : Bytes) :
    s.push bytes = (pieces s.limit s.committed (s.pending ++ bytes),
      after s.limit s.committed (s.pending ++ bytes)) := by
  have hsplit := split_of_cut_none hs
  have h := push_after hl s.committed s.pending bytes
  unfold rest at h
  rwa [after_pending hs, hsplit] at h

theorem limit_call (s : Splitter) (c : Call) : (s.call c).2.limit = s.limit := by
  cases c with
  | push bytes => exact limit_push s bytes
  | finish => unfold call finish; split_ifs <;> rfl
  | reset offset => rfl

theorem settled_call (hl : s.limit ≠ some 0) (hs : s.Settled) (c : Call) :
    (s.call c).2.Settled := by
  cases c with
  | push bytes =>
    show (s.push bytes).2.Settled
    rw [push_eq hl hs]
    exact settled_after hl _ _
  | finish =>
    unfold call finish
    split_ifs
    · exact hs
    · exact settled_reset s _
  | reset offset => exact settled_reset s offset

theorem limit_calls (s : Splitter) (done : List Call) : (s.calls done).2.limit = s.limit := by
  induction done generalizing s with
  | nil => rfl
  | cons c done ih => exact (ih _).trans (limit_call s c)

theorem settled_calls (hl : s.limit ≠ some 0) (hs : s.Settled) (done : List Call) :
    (s.calls done).2.Settled := by
  induction done generalizing s with
  | nil => exact hs
  | cons c done ih => exact ih (by rw [limit_call]; exact hl) (settled_call hl hs c)

/-! ## Parts -/

theorem push_append (hl : s.limit ≠ some 0) (hs : s.Settled) (a b : Bytes) :
    s.push (a ++ b) = ((s.push a).1 ++ ((s.push a).2.push b).1, ((s.push a).2.push b).2) := by
  rw [push_eq hl hs, push_eq hl hs, push_after hl, ← List.append_assoc, pieces_append hl]

theorem pushAll_eq (hl : s.limit ≠ some 0) (hs : s.Settled) (chunks : List Bytes) :
    s.pushAll chunks = s.push chunks.flatten := by
  induction chunks generalizing s with
  | nil => exact (push_nil s).symm
  | cons chunk chunks ih =>
    have hnext : (s.push chunk).2.Settled := settled_call hl hs (.push chunk)
    rw [pushAll_cons, ih (by rw [limit_push]; exact hl) hnext, List.flatten_cons,
      push_append hl hs]

theorem Reached.limit_eq (h : Reached limit s) : s.limit = limit := by
  obtain ⟨offset, done, rfl⟩ := h
  exact limit_calls _ done

theorem Reached.settled (hl : limit ≠ some 0) (h : Reached limit s) : s.Settled := by
  obtain ⟨offset, done, rfl⟩ := h
  exact settled_calls hl (settled_start offset limit) done

/-- **How bytes are cut into pushes does not show**, whatever was done to the splitter before:
neither in the pieces given back nor in the splitter after them. -/
theorem push_in_parts (hl : limit ≠ some 0) (hs : Reached limit s) :
    (∀ a b, (s.push a).1 ++ ((s.push a).2.push b).1 = (s.push (a ++ b)).1 ∧
      ((s.push a).2.push b).2.committed = (s.push (a ++ b)).2.committed ∧
      ((s.push a).2.push b).2.consumed = (s.push (a ++ b)).2.consumed ∧
      ((s.push a).2.push b).2.pending = (s.push (a ++ b)).2.pending) ∧
    ∀ chunks chunks' : List Bytes, chunks.flatten = chunks'.flatten →
      s.pushAll chunks = s.pushAll chunks' := by
  have hlimit : s.limit ≠ some 0 := hs.limit_eq ▸ hl
  have hsettled := hs.settled hl
  constructor
  · intro a b
    rw [push_append hlimit hsettled a b]
    exact ⟨rfl, rfl, rfl, rfl⟩
  · intro chunks chunks' h
    rw [pushAll_eq hlimit hsettled, pushAll_eq hlimit hsettled, h]

theorem push_in_parts_crlf :
    let s : Splitter := ((start 0 (some 2)).calls [.push [0x61, 0x62, 0x63], .reset 7]).2
    let line : Bytes := [0x64, carriageReturn]
    Reached (some 2) s ∧
      (s.pushAll [line, [lineFeed, 0x65]]).1 = [⟨[0x64, carriageReturn, lineFeed], 10⟩] ∧
      (s.push line).1 ++ ((s.push line).2.push [lineFeed, 0x65]).1 =
        (s.push (line ++ [lineFeed, 0x65])).1 ∧
      s.pushAll [line, [lineFeed, 0x65]] = s.pushAll [[0x64], [carriageReturn, lineFeed, 0x65]] := by
  intro s line
  have hs : Reached (some 2) s := ⟨0, _, rfl⟩
  exact ⟨hs, by decide, ((push_in_parts (by decide) hs).1 line [lineFeed, 0x65]).1,
    (push_in_parts (by decide) hs).2 _ _ rfl⟩

end LogFollower.Splitter
