import LogFollower.Proofs.Reports

/-!
# Errors come an interval apart

Each line is put into the channel at some time: `World.posts` are the lines that some moves put
there, with their times. Whatever fails, and however long the consumer lets a report wait, there is
at least the poll interval from one report to the next (`errors_apart`).

An error is in the engine's hand alone (`Phase.ErrorAlone`). Once it is handed over the engine
rests, and there is nothing to report until the rest is over (`Phase.SilentUntil`). Only the error
that ends the task has no rest behind it, and no other error either.
-/

namespace LogFollower

namespace Phase

/-- An error is handed over alone, and then the engine rests or ends. -/
def ErrorAlone (p : Phase) : Prop :=
  ∀ l ∈ p.inHand, l.isError = true →
    ∃ rest next, p = .handing [l] rest next ∧ (rest = false → next = .finish)

/-- No error is put into the channel before a deadline: it has come, or the engine will have rested
up to it, or no more errors are met. -/
inductive SilentUntil (interval now deadline : Nat) : Phase → Prop
  | due {p : Phase} (h : deadline ≤ now) : SilentUntil interval now deadline p
  | rests {next : Stage} (h : deadline ≤ now + interval) :
      SilentUntil interval now deadline (.handing [] true next)
  | asleep {due : Nat} {next : Stage} (h : deadline ≤ due) :
      SilentUntil interval now deadline (.asleep due false next)
  | told : SilentUntil interval now deadline (.handing [] false .finish)
  | finish : SilentUntil interval now deadline (.ready .finish)
  | ended : SilentUntil interval now deadline .ended

namespace SilentUntil

variable {interval now deadline : Nat}

theorem of_handing {line : Line} {lines : List Line} {rest : Bool} {next : Stage}
    (h : SilentUntil interval now deadline (.handing (line :: lines) rest next)) :
    deadline ≤ now := by
  cases h
  assumption

theorem of_ready {stage : Stage} (h : SilentUntil interval now deadline (.ready stage))
    (hs : stage ≠ .finish) : deadline ≤ now := by
  cases h with
  | due h => exact h
  | finish => exact absurd rfl hs

theorem mono {now' : Nat} {p : Phase} (h : SilentUntil interval now deadline p) (hle : now ≤ now') :
    SilentUntil interval now' deadline p := by
  cases h with
  | due h => exact .due (h.trans hle)
  | rests h => exact .rests (by omega)
  | asleep h => exact .asleep h
  | told => exact .told
  | finish => exact .finish
  | ended => exact .ended

end SilentUntil

end Phase

namespace Tailer

open Engine Phase

variable {fs : FileSystem} {now deadline : Nat} {t t' : Tailer}

theorem Turn.errorAlone (h : Turn fs now t t') (hs : t.engine.phase.ErrorAlone) :
    t'.engine.phase.ErrorAlone := by
  have empty {p : Phase} (hp : p.inHand = []) : p.ErrorAlone := by
    intro l hl
    rw [hp] at hl
    cases hl
  have texts {lines : List Line} {next : Stage} (hl : ∀ l ∈ lines, l.isError = false) :
      (Phase.handing lines false next).ErrorAlone :=
    fun l hm he => absurd ((hl l hm).symm.trans he) nofun
  cases h with
  | idle => exact hs
  | @hand line lines rest next hp =>
    intro l hl he
    obtain ⟨rest', next', hone, -⟩ := hs l (by rw [hp]; exact List.mem_cons_of_mem _ hl) he
    rw [hp] at hone
    cases hone
    cases hl
  | fail =>
    intro l hl _
    obtain rfl := List.mem_singleton.1 hl
    exact ⟨true, _, rfl, nofun⟩
  | last =>
    intro l hl _
    obtain rfl := List.mem_singleton.1 hl
    exact ⟨false, _, rfl, fun _ => rfl⟩
  | read => exact texts (List.forall_mem_map.2 fun _ _ => rfl)
  | flush => exact texts (List.forall_mem_singleton.2 rfl)
  | _ => exact empty rfl

/-- A step keeps to a deadline. -/
theorem Turn.silentUntil (h : Turn fs now t t')
    (hs : t.engine.phase.SilentUntil t.engine.config.pollInterval now deadline) :
    t'.engine.phase.SilentUntil t.engine.config.pollInterval now deadline := by
  have works {stage : Stage} {p : Phase} (hw : t.Works stage) (hne : stage ≠ .finish) :
      p.SilentUntil t.engine.config.pollInterval now deadline := by
    rw [hw.1] at hs
    exact .due (hs.of_ready hne)
  cases h with
  | idle => exact hs
  | quit => exact .ended
  | hand hp =>
    rw [hp] at hs
    exact .due hs.of_handing
  | rest hp =>
    rw [hp] at hs
    cases hs with
    | due h => exact .due h
    | rests h => exact .asleep h
  | resume hp =>
    rw [hp] at hs
    cases hs with
    | due h => exact .due h
    | told => exact .finish
  | wake hp why =>
    rw [hp] at hs
    cases hs with
    | due h => exact .due h
    | asleep h =>
      -- a rest is not ended by an event
      obtain ⟨hdue, -⟩ | ⟨hwatching, -⟩ := why
      · exact .due (h.trans hdue)
      · cases hwatching
  | pass hw hp => exact works hw (by rintro rfl; cases hp)
  | fail hw he => exact works hw (by rintro rfl; cases he)
  | wait hw hp => exact works hw (by rintro rfl; cases hp)
  | «open» hw | rewind hw | read hw | flush hw | leave hw | last hw => exact works hw nofun
  | finish => exact .ended

/-- An error that is handed over sets a deadline for the next. -/
theorem Turn.posts (h : Turn fs now t t') (hs : t.engine.phase.ErrorAlone)
    (hd : t.engine.phase.SilentUntil t.engine.config.pollInterval now deadline) :
    (∃ new, t'.queue = t.queue ++ new ∧ ∀ l ∈ new, l.isError = false) ∨
    ∃ l, t'.queue = t.queue ++ [l] ∧ l.isError = true ∧ deadline ≤ now ∧
      t'.engine.phase.SilentUntil t.engine.config.pollInterval now
        (now + t.engine.config.pollInterval) := by
  have none {queue : List Line} (hq : queue = t.queue) :
      ∃ new, queue = t.queue ++ new ∧ ∀ l ∈ new, l.isError = false :=
    ⟨[], by rw [hq, List.append_nil], List.forall_mem_nil _⟩
  cases h with
  | @hand line lines rest next hp =>
    cases he : line.isError with
    | false => exact .inl ⟨[line], rfl, List.forall_mem_singleton.2 he⟩
    | true =>
      obtain ⟨rest', next', hone, hlast⟩ := hs line (by rw [hp]; exact List.mem_cons_self) he
      rw [hp] at hone hd
      cases hone
      refine .inr ⟨line, rfl, he, hd.of_handing, ?_⟩
      cases rest with
      | true => exact .rests le_rfl
      | false =>
        obtain rfl := hlast rfl
        exact .told
  | _ => exact .inl (none rfl)

end Tailer

namespace World

open Tailer

variable {w : World}

def puts (w : World) : Move → List Line
  | .work => w.work.tailer.queue.drop w.tailer.queue.length
  | _ => []

/-- The lines that moves put into the channel, each with the time at which it is put there. -/
def posts (w : World) : List Move → List (Nat × Line)
  | [] => []
  | m :: more => (w.puts m).map (Prod.mk w.now) ++ (w.move m).posts more

def reports (w : World) (moves : List Move) : List (Nat × Line) :=
  (w.posts moves).filter (·.2.isError)

theorem puts_work {new : List Line}
    (hq : (w.tailer.step w.fs w.now).queue = w.tailer.queue ++ new) : w.puts .work = new := by
  show (w.tailer.step w.fs w.now).queue.drop w.tailer.queue.length = new
  rw [hq, List.drop_left]

theorem given_move (ha : w.Accounted) (m : Move) : (w.move m).given = w.given ++ w.puts m := by
  cases m with
  | work =>
    obtain ⟨new, hq, -⟩ := (turn_step ha.sound.fits w.fs w.now).sent
    show w.taken ++ (w.tailer.step w.fs w.now).queue = w.taken ++ w.tailer.queue ++ _
    rw [puts_work hq, hq, List.append_assoc]
  | receive max =>
    have hq := w.tailer.queue_receive max
    show w.taken ++ (w.tailer.receive max).1 ++ (w.tailer.receive max).2.2.queue = w.given ++ []
    rw [List.append_assoc, hq, List.append_nil]
    rfl
  | _ => exact (List.append_nil _).symm

theorem given_run (ha : w.Accounted) (moves : List Move) :
    (w.run moves).given = w.given ++ (w.posts moves).map Prod.snd := by
  induction moves generalizing w with
  | nil => exact (List.append_nil _).symm
  | cons m more ih =>
    have hsnd : ((w.puts m).map (Prod.mk w.now)).map Prod.snd = w.puts m := by
      rw [List.map_map]
      exact List.map_id _
    rw [posts, List.map_append, hsnd, ← List.append_assoc, ← given_move ha]
    exact ih (ha.move m)

/-- What a move means for a deadline: either it puts no error into the channel, or one that kept to
the deadline and sets the next. -/
theorem silentUntil_move (ha : w.Accounted) (hs : w.tailer.engine.phase.ErrorAlone) {deadline : Nat}
    (hd : w.tailer.engine.phase.SilentUntil w.tailer.engine.config.pollInterval w.now deadline)
    (m : Move) :
    (∀ l ∈ w.puts m, l.isError = false) ∧ (w.move m).tailer.engine.phase.SilentUntil
        w.tailer.engine.config.pollInterval (w.move m).now deadline ∨
    ∃ l, w.puts m = [l] ∧ l.isError = true ∧ deadline ≤ w.now ∧
      (w.move m).tailer.engine.phase.SilentUntil w.tailer.engine.config.pollInterval (w.move m).now
        (w.now + w.tailer.engine.config.pollInterval) := by
  cases m with
  | work =>
    have ht := turn_step ha.sound.fits w.fs w.now
    obtain ⟨new, hq, hnew⟩ | ⟨l, hq, he, hle, hnext⟩ := ht.posts hs hd
    · exact .inl ⟨by rw [puts_work hq]; exact hnew, ht.silentUntil hd⟩
    · exact .inr ⟨l, puts_work hq, he, hle, hnext⟩
  | wait ms => exact .inl ⟨List.forall_mem_nil _, hd.mono (Nat.le_add_right _ _)⟩
  | _ => exact .inl ⟨List.forall_mem_nil _, hd⟩

theorem errorAlone_move (ha : w.Accounted) (hs : w.tailer.engine.phase.ErrorAlone) (m : Move) :
    (w.move m).tailer.engine.phase.ErrorAlone := by
  cases m with
  | work => exact (turn_step ha.sound.fits w.fs w.now).errorAlone hs
  | _ => exact hs

/-- The reports of a run keep to a deadline, and to those that they set one another. -/
theorem reports_apart (ha : w.Accounted) (hs : w.tailer.engine.phase.ErrorAlone) {deadline : Nat}
    (hd : w.tailer.engine.phase.SilentUntil w.tailer.engine.config.pollInterval w.now deadline)
    (moves : List Move) :
    (∀ p ∈ w.reports moves, deadline ≤ p.1) ∧
      (w.reports moves).Pairwise fun p q =>
        p.1 + w.tailer.engine.config.pollInterval ≤ q.1 := by
  -- along the moves, with the deadline that the last error set
  induction moves generalizing w deadline with
  | nil => exact ⟨List.forall_mem_nil _, .nil⟩
  | cons m more ih =>
    have hconfig := (ha.setup_move m).1
    have hcons : w.reports (m :: more) =
        ((w.puts m).map (Prod.mk w.now)).filter (·.2.isError) ++ (w.move m).reports more :=
      List.filter_append ..
    rw [hcons]
    obtain ⟨hnone, hnext⟩ | ⟨l, hputs, he, hle, hnext⟩ := silentUntil_move ha hs hd m
    · have hfilter : ((w.puts m).map (Prod.mk w.now)).filter (·.2.isError) = [] := by
        rw [List.filter_eq_nil_iff]
        refine List.forall_mem_map.2 fun l hl => ?_
        rw [hnone l hl]
        exact Bool.false_ne_true
      rw [← hconfig] at hnext ⊢
      rw [hfilter]
      exact ih (ha.move m) (errorAlone_move ha hs m) hnext
    · have hfilter : ((w.puts m).map (Prod.mk w.now)).filter (·.2.isError) = [(w.now, l)] := by
        rw [hputs]
        exact List.filter_cons_of_pos he
      have hmore := ih (ha.move m) (errorAlone_move ha hs m) (hconfig ▸ hnext)
      rw [hconfig] at hmore
      rw [hfilter, List.singleton_append]
      refine ⟨List.forall_mem_cons.2 ⟨hle, fun p hp => ?_⟩, .cons hmore.1 hmore.2⟩
      exact (hle.trans (Nat.le_add_right _ _)).trans (hmore.1 p hp)

end World

/-- Reports of errors come an interval apart, in every run and whatever it is that fails: from
the time at which one is put into the channel to that of any later one, the poll interval passes at
least. -/
theorem errors_apart {fs : FileSystem} {path : Path} {config : Config} {t : Tailer}
    (h : Tailer.start fs path config = .ok t) (moves : List Move) :
    0 < config.pollInterval ∧
    ((World.start fs t).posts moves).map Prod.snd = ((World.start fs t).run moves).given ∧
    ((World.start fs t).reports moves).Pairwise fun p q => p.1 + config.pollInterval ≤ q.1 := by
  have ha := World.accounted_start h
  have hconfig : (World.start fs t).tailer.engine.config = config := Tailer.engine_config_start h
  have halone : (World.start fs t).tailer.engine.phase.ErrorAlone := by
    obtain ⟨-, ⟨n, offset, -, -, rfl⟩ | ⟨f, -, -, -, rfl⟩⟩ := Tailer.start_cases h <;>
      exact fun _ hl => absurd hl List.not_mem_nil
  have hnone : (World.start fs t).given = [] := by
    obtain ⟨-, ⟨n, offset, -, -, rfl⟩ | ⟨f, -, -, -, rfl⟩⟩ := Tailer.start_cases h <;> rfl
  refine ⟨hconfig ▸ ha.sound.pollInterval_pos, ?_, ?_⟩
  · rw [World.given_run ha, hnone, List.nil_append]
  · have hreports := (World.reports_apart ha halone (.due (Nat.zero_le _)) moves).2
    rwa [hconfig] at hreports

namespace Sample

/-- The file is removed and something comes that cannot be opened; after that, a link that leads to
itself. -/
def obstructions : List Move :=
  List.replicate 3 Move.work ++ [Move.edit (.remove name), Move.edit (.socket name)] ++
    List.replicate 16 Move.work ++
    [Move.edit (.remove name), Move.edit (.symlink name name), Move.wait 250] ++
    List.replicate 4 Move.work

end Sample

theorem errors_apart_obstructed :
    ((World.start Sample.files Sample.tailer).reports Sample.obstructions).map
        (fun p => (p.1, p.2.error)) =
      [(0, some (.file (.system .noDevice))), (250, some (.file (.system .tooManyLinks)))] ∧
    (((World.start Sample.files Sample.tailer).posts Sample.obstructions).map Prod.snd =
      ((World.start Sample.files Sample.tailer).run Sample.obstructions).given) ∧
    ((World.start Sample.files Sample.tailer).reports Sample.obstructions).Pairwise
      fun p q => p.1 + 250 ≤ q.1 := by
  obtain ⟨-, hgiven, happart⟩ := errors_apart Sample.start_eq Sample.obstructions
  exact ⟨by decide, hgiven, happart⟩

end LogFollower
