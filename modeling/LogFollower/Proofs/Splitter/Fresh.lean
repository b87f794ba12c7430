import LogFollower.Proofs.Splitter.Turns
import Mathlib.Data.List.DropRight

/-!
# Fresh starts

A splitter that was flushed is the one that starts at the offset consumed by then
(`finish_eq_start`), and one that was reset is the one that starts there. So what calls show behind
a flush or a reset does not depend on what was done before (`shown_of_fresh`).

What is consumed is told by the calls alone: it is the offset of the last reset and the number of
bytes pushed since (`consumed_calls`). With the bounds on what is held, and with the turns that a
push takes, this makes `fresh_and_bounded`.
-/

namespace LogFollower.Splitter

open Greedy

/-! ## What calls say -/

/-- The offset that a call goes on at, if it is a reset. -/
def Call.target? : Call → Option Nat
  | .reset offset => some offset
  | _ => none

def Call.bytes : Call → Bytes
  | .push bytes => bytes
  | _ => []

/-- The offset of the last reset, or of the start if there was none. -/
def origin (offset : Nat) (done : List Call) : Nat := (done.filterMap Call.target?).getLastD offset

/-- The calls behind the last reset, or all of them if there was none. -/
def sinceReset (done : List Call) : List Call := done.rtakeWhile fun c => c.target? = none

def pushed (done : List Call) : Bytes := done.flatMap Call.bytes

/-- What calls show: the pieces that each of them gives back, and the offsets committed and consumed
after it. -/
def shown (s : Splitter) : List Call → List (List Piece × Nat × Nat)
  | [] => []
  | c :: more =>
    ((s.call c).1, (s.call c).2.committed, (s.call c).2.consumed) :: (s.call c).2.shown more

variable {s : Splitter} {limit : Option Nat}

theorem calls_append (s : Splitter) (done more : List Call) :
    s.calls (done ++ more) =
      ((s.calls done).1 ++ ((s.calls done).2.calls more).1, ((s.calls done).2.calls more).2) := by
  induction done generalizing s with
  | nil => rfl
  | cons c done ih => simp [calls, ih]

theorem shown_append (s : Splitter) (done more : List Call) :
    s.shown (done ++ more) = s.shown done ++ (s.calls done).2.shown more := by
  induction done generalizing s with
  | nil => rfl
  | cons c done ih => simp [shown, calls, ih]

/-! ## Where a splitter stands -/

theorem finish_eq_start (s : Splitter) : s.finish.2 = start s.consumed s.limit := by
  unfold finish
  split_ifs with h
  · have hconsumed : s.consumed = s.committed := by
      rw [consumed, h]
      rfl
    show s = ⟨s.limit, s.consumed, []⟩
    rw [hconsumed, ← h]
  · rfl

theorem consumed_call (s : Splitter) (c : Call) :
    (s.call c).2.consumed = c.target?.getD s.consumed + c.bytes.length := by
  cases c with
  | push bytes => exact consumed_push s bytes
  | finish =>
    show s.finish.2.consumed = s.consumed
    rw [finish_eq_start, consumed_start]
  | reset offset => rfl

/-- What is consumed was pushed since the last reset, and is counted from where that went. -/
theorem consumed_calls (offset : Nat) (limit : Option Nat) (done : List Call) :
    ((start offset limit).calls done).2.consumed =
      origin offset done + (pushed (sinceReset done)).length := by
  -- the calls are taken from the end, where the last reset is
  induction done using List.reverseRecOn with
  | nil => rfl
  | append_singleton done c ih =>
    rw [calls_append]
    show (((start offset limit).calls done).2.call c).2.consumed = _
    rw [consumed_call, ih]
    cases c <;> simp [origin, sinceReset, pushed, Call.target?, Call.bytes, Nat.add_assoc]

/-- Behind a call that leaves a splitter as it starts, what is shown is what that one shows. -/
theorem shown_of_fresh {done : List Call} {c : Call} {offset : Nat}
    (h : ((s.calls done).2.call c).2 = start offset limit) (more : List Call) :
    s.shown (done ++ c :: more) = s.shown (done ++ [c]) ++ (start offset limit).shown more := by
  have hlast : (s.calls (done ++ [c])).2 = start offset limit := by
    rw [calls_append]
    exact h
  rw [List.append_cons, shown_append, hlast]

/-- Each flush and each reset is a fresh start, and what is held is bounded, whatever was done
to a splitter before.

A push cuts by turns that advance, so it ends, and nothing else comes of the turns. What is consumed
is the offset of the last reset and the bytes pushed since. What is held has no line feed and no
more bytes than the limit. After a flush the splitter is a new one at the offset consumed by then,
and after a reset a new one at its offset, and so is everything that later calls show; a second
flush gives nothing. -/
theorem fresh_and_bounded (hl : limit ≠ some 0) (offset : Nat) (done : List Call) :
    let s := ((start offset limit).calls done).2
    (∀ bytes,
      (∀ c, Turns limit (s.pending ++ bytes) (.front s.committed) c →
        c.Advances limit (s.pending ++ bytes)) ∧
      ∀ r, s.Cuts bytes r ↔ r = s.push bytes) ∧
    s.consumed = origin offset done + (pushed (sinceReset done)).length ∧
    lineFeed ∉ s.pending ∧ (∀ m, limit = some m → s.pending.length ≤ m) ∧
    (s.finish.2 = start s.consumed limit ∧ s.finish.2.finish = (none, s.finish.2) ∧
      ∀ more, (start offset limit).shown (done ++ .finish :: more) =
        (start offset limit).shown (done ++ [.finish]) ++ (start s.consumed limit).shown more) ∧
    ∀ o, s.reset o = start o limit ∧
      ∀ more, (start offset limit).shown (done ++ .reset o :: more) =
        (start offset limit).shown (done ++ [.reset o]) ++ (start o limit).shown more := by
  intro s
  have hlimit : s.limit = limit := limit_calls _ done
  have hs : s.Settled := settled_calls hl (settled_start offset limit) done
  have hfinish : s.finish.2 = start s.consumed limit := hlimit ▸ finish_eq_start s
  have hreset : ∀ o, s.reset o = start o limit := by
    intro o
    rw [← hlimit]
    rfl
  obtain ⟨hf, hm⟩ := not_mem_of_cut hs
  refine ⟨?_, consumed_calls offset limit done, hf, ?_, ⟨hfinish, ?_, ?_⟩, ?_⟩
  · intro bytes
    exact ⟨fun c hturns => advances_of_turns hl hturns, cuts_iff (hlimit ▸ hl) hs bytes⟩
  · intro m h
    exact hm m (hlimit.trans h)
  · rw [hfinish]
    rfl
  · exact shown_of_fresh hfinish
  · intro o
    exact ⟨hreset o, shown_of_fresh (hreset o)⟩

theorem fresh_and_bounded_flushed :
    let done : List Call :=
      [.push [0x61, 0x62, 0x63], .finish, .reset 7, .push [0x64, carriageReturn]]
    let s := ((start 0 (some 2)).calls done).2
    s.pending = [0x64, carriageReturn] ∧ s.pending.length ≤ 2 ∧
      s.consumed = 9 ∧ s.consumed = origin 0 done + (pushed (sinceReset done)).length ∧
      s.Cuts [lineFeed] ([⟨[0x64, carriageReturn, lineFeed], 10⟩], start 10 (some 2)) ∧
      (start 0 (some 2)).shown (done ++ [.finish, .finish, .push [lineFeed]]) =
        (start 0 (some 2)).shown (done ++ [.finish]) ++
          [([], 9, 9), ([⟨[lineFeed], 10⟩], 10, 10)] := by
  intro done s
  obtain ⟨hpush, hconsumed, -, hbound, ⟨-, -, hshown⟩, -⟩ :=
    fresh_and_bounded (by decide : some 2 ≠ some 0) 0 done
  refine ⟨by decide, hbound 2 rfl, by decide, hconsumed, ((hpush _).2 _).2 (by decide), ?_⟩
  exact hshown [.finish, .push [lineFeed]]

end LogFollower.Splitter
