import LogFollower.Proofs.Watching.Again
import LogFollower.Proofs.Watching.Schedule

/-!
# The lines of a script are determined

Events decide when a tailer works, and not what it does. `Owes` says that it comes to a certain rest
and that certain lines of text were given out then; no step and no event changes that, and neither
does taking lines (`Owes.work`, `Owes.taken`). After a change of the files the tailer owes what it
did not owe before as soon as it wakes (`Dormant`), and it wakes within a second.

Before the first change a tailer on a regular file is known exactly: it stops where it has to, with
the lines in the channel that there is room for (`Elapses.stops`).
-/

namespace LogFollower

open FileSystem

namespace Engine

variable {fs : FileSystem} {halt : Halt} {e r : Engine} {given all : List Line}

/-- A rest to come to, and to come back to. -/
structure Home (fs : FileSystem) (r : Engine) : Prop where
  founded : Founded fs r
  bare : r.bare = r
  resting : r.Resting

theorem Home.rests (h : Home fs r) : Rests fs r := h.founded.rests h.resting

theorem Comes.home (h : Comes fs halt e given r all) (hf : Founded fs e) (hb : e.bare = e)
    (hr : r.Resting) : Home fs r where
  founded := h.keeps (P := Founded fs) (fun _ => Founded.beat) hf
  bare := h.keeps (P := fun e => e.bare = e) (fun e _ => bare_beat fs e) hb
  resting := hr

end Engine

namespace Tailer

open Engine

variable {fs fs' : FileSystem} {halt : Halt} {r x : Engine} {text out given : List Line}
  {n now later target deadline : Nat} {t t' : Tailer}

/-! ## Where a tailer stops -/

theorem stops_of_blocked (on : t.On) (hb : t.blocked now = true) :
    t.engine.bare.Stops (.full t.capacity) t.queue := by
  unfold blocked at hb
  split at hb
  · next hp =>
    left
    left
    exact congrArg Phase.timeless hp
  · cases hb
  · cases hb
  · next line lines rest next hp =>
    right
    constructor
    · exact ⟨line, lines, rest, next, congrArg Phase.timeless hp⟩
    · simpa [on.1, on.2] using hb
  · next due watching next hp =>
    left
    right
    exact ⟨0, watching, next, congrArg Phase.timeless hp⟩

theorem asleep_of_resting (on : t.On) (hb : t.blocked now = false)
    (hr : t.engine.bare.Resting) :
    ∃ due watching next, t.engine.phase = .asleep due watching next ∧
      (watching = false → due ≤ now) := by
  cases hp : t.engine.phase with
  | asleep due watching next =>
    refine ⟨due, watching, next, rfl, ?_⟩
    rintro rfl
    unfold blocked at hb
    rw [hp] at hb
    simpa [on.1] using hb
  | ended =>
    unfold blocked at hb
    rw [hp] at hb
    cases hb
  | ready stage =>
    rcases hr with hp' | ⟨due, watching, next, hp'⟩
    · cases (congrArg Phase.timeless hp).symm.trans hp'
    · cases (congrArg Phase.timeless hp).symm.trans hp'
  | handing lines rest next =>
    rcases hr with hp' | ⟨due, watching, next, hp'⟩
    · cases (congrArg Phase.timeless hp).symm.trans hp'
    · cases (congrArg Phase.timeless hp).symm.trans hp'

theorem resting_of_stops (on : t.On) (hb : t.blocked now = false)
    (hs : t.engine.bare.Stops (.full t.capacity) t.queue) : t.engine.bare.Resting := by
  rcases hs with hrest | ⟨⟨line, lines, rest, next, hp⟩, hfull⟩
  · exact hrest
  · exfalso
    unfold blocked at hb
    rw [handing_of_bare hp] at hb
    have hroom : t.queue.length < t.capacity := by simpa [on.1, on.2] using hb
    omega

theorem gives_of_asleep {due : Nat} {watching : Bool} {next : Stage}
    (hp : t.engine.phase = .asleep due watching next) : t.engine.gives = [] := by
  unfold gives
  rw [hp]

theorem resting_of_blocked (h : Timely now t) (hb : t.blocked later = true) (hq : t.queue = []) :
    t.engine.bare.Resting := by
  rcases stops_of_blocked h.on hb with hrest | ⟨-, hfull⟩
  · exact hrest
  · have hcapacity := h.sound.capacity
    rw [hq, List.length_nil] at hfull
    omega

theorem lt_due_of_step (ht : Timely now t) (hb : t.blocked now = false) {due : Nat} {next : Stage}
    (hp : (t.step fs now).engine.phase = .asleep due false next) : now < due := by
  have hturn := turn_step ht.sound.fits fs now
  generalize t.step fs now = t' at hp hturn
  cases hturn with
  | idle hb' => rw [hb] at hb'; cases hb'
  | rest =>
    cases hp
    rw [ht.pace]
    exact Nat.lt_add_of_pos_right (by decide)
  | _ => cases hp

/-! ## What a tailer owes -/

/-- The tailer comes to a rest without a stop, and certain lines of text were given out then, with
those that were taken before. -/
def Owes (fs : FileSystem) (halt : Halt) (r : Engine) (text out : List Line) (t : Tailer) : Prop :=
  ∃ all, Comes fs halt t.engine.bare (out ++ t.queue) r all ∧ texts all = text

theorem Owes.taken (h : Owes fs .never r text out t) (max : Option Nat) :
    Owes fs .never r text (out ++ (t.receive max).1) (t.receive max).2.2 := by
  have hall := t.queue_receive max
  obtain ⟨all, hcomes, htext⟩ := h
  refine ⟨all, ?_, htext⟩
  rw [List.append_assoc, hall]
  exact hcomes

/-- A step does not change what is owed. -/
theorem Owes.work (h : Owes fs halt r text out t) (hr : Home fs r)
    (hreports : ∀ given, Reports halt given) (ht : Timely now t) (hb : t.blocked now = false) :
    Owes fs halt r text out (t.step fs now) := by
  obtain ⟨all, hcomes, htext⟩ := h
  obtain ⟨hbare, hqueue⟩ : (t.step fs now).engine.bare = t.engine.bare.beat fs ∧
      (t.step fs now).queue = t.queue ++ t.engine.gives := step_bare ht.on hb
  unfold Owes
  rw [hbare, hqueue]
  by_cases hs : t.engine.bare.Stops halt (out ++ t.queue)
  · obtain ⟨rfl, rfl⟩ := hcomes.eq_of_stops hs
    obtain ⟨due, watching, next, hp, -⟩ := asleep_of_resting ht.on hb hr.resting
    obtain ⟨errors, hagain, herrors, -⟩ :=
      hr.rests.again hr.bare (congrArg Phase.timeless hp) (.inr (hreports (out ++ t.queue)))
    refine ⟨(out ++ t.queue) ++ errors, ?_, ?_⟩
    · rw [gives_of_asleep hp, List.append_nil]
      exact hagain
    · rw [texts_append, herrors, List.append_nil, htext]
  · refine ⟨all, ?_, htext⟩
    rw [← List.append_assoc, ← gives_bare]
    exact hcomes.tail hs

/-- Whatever events come, what is owed stays owed. -/
theorem Elapses.owes (h : Elapses fs target now t t') (hr : Home fs r)
    (hreports : ∀ given, Reports halt given) (ht : Timely now t)
    (howes : Owes fs halt r text out t) : Owes fs halt r text out t' := by
  have hstable : Stable fs target fun now t => Timely now t ∧ Owes fs halt r text out t := by
    constructor
    · rintro now t ⟨ht, howes⟩ hb
      exact ⟨ht.step fs, howes.work hr hreports ht hb⟩
    · rintro now t event ⟨ht, howes⟩
      exact ⟨ht.notify event, howes⟩
    · rintro now later t ⟨ht, howes⟩ hle -
      exact ⟨ht.mono hle, howes⟩
  obtain ⟨last, -, ⟨-, howes'⟩, -⟩ := h.keeps hstable ⟨ht, howes⟩
  exact howes'

/-- The files have changed while the tailer slept. What it owes, it owes when it wakes, and that is
not later than a deadline. -/
structure Dormant (fs : FileSystem) (r : Engine) (text : List Line) (deadline : Nat)
    (t : Tailer) : Prop where
  asleep : ∃ due watching next, t.engine.phase = .asleep due watching next ∧ due ≤ deadline
  owes : ∃ all, Comes fs .never (t.engine.bare.beat fs) t.queue r all ∧ texts all = text

theorem Dormant.work (h : Dormant fs r text deadline t) (ht : Timely now t)
    (hb : t.blocked now = false) : Owes fs .never r text [] (t.step fs now) := by
  obtain ⟨due, watching, next, hp, -⟩ := h.asleep
  obtain ⟨hbare, hqueue⟩ : (t.step fs now).engine.bare = t.engine.bare.beat fs ∧
      (t.step fs now).queue = t.queue ++ t.engine.gives := step_bare ht.on hb
  unfold Owes
  rw [hbare, hqueue, gives_of_asleep hp, List.append_nil]
  exact h.owes

/-- After a second the tailer has woken. -/
theorem Elapses.wakes (h : Elapses fs target now t t') (hr : Home fs r) (ht : Timely now t)
    (hd : Dormant fs r text deadline t) (hlt : deadline < target) :
    Owes fs .never r text [] t' := by
  have hstable : Stable fs target fun now t => Timely now t ∧
      (Dormant fs r text deadline t ∨ Owes fs .never r text [] t) := by
    constructor
    · rintro now t ⟨ht, hd | howes⟩ hb
      · exact ⟨ht.step fs, .inr (hd.work ht hb)⟩
      · exact ⟨ht.step fs, .inr (howes.work hr reports_never ht hb)⟩
    · rintro now t event ⟨ht, hd | howes⟩
      · exact ⟨ht.notify event, .inl ⟨hd.asleep, hd.owes⟩⟩
      · exact ⟨ht.notify event, .inr howes⟩
    · rintro now later t ⟨ht, h⟩ hle -
      exact ⟨ht.mono hle, h⟩
  obtain ⟨last, -, ⟨-, hd' | howes⟩, -, hdue⟩ := h.keeps hstable ⟨ht, .inl hd⟩
  · obtain ⟨due, watching, next, hp, hle⟩ := hd'.asleep
    have := hdue due (by unfold wakeTime; rw [hp])
    omega
  · exact howes

/-! ## A millisecond at rest -/

/-- A tailer that came to its rest, and has reported a failure at most once since. -/
def Idles (fs : FileSystem) (r : Engine) (now : Nat) (t : Tailer) : Prop :=
  ∃ all, Comes fs .never t.engine.bare t.queue r all ∧ texts all = [] ∧ all.length ≤ 1 ∧
    ∀ due next, t.engine.phase = .asleep due false next → t.queue = [] ∨ now < due

theorem Idles.work (h : Idles fs r now t) (hr : Home fs r) (ht : Timely now t)
    (hb : t.blocked now = false) : Idles fs r now (t.step fs now) := by
  obtain ⟨all, hcomes, htext, hlength, hdue⟩ := h
  obtain ⟨hbare, hqueue⟩ : (t.step fs now).engine.bare = t.engine.bare.beat fs ∧
      (t.step fs now).queue = t.queue ++ t.engine.gives := step_bare ht.on hb
  by_cases hrest : t.engine.bare.Resting
  · obtain ⟨rfl, rfl⟩ := hcomes.eq_of_stops (.inl hrest)
    obtain ⟨due, watching, next, hp, hwake⟩ := asleep_of_resting ht.on hb hrest
    obtain ⟨errors, hagain, herrors, hone, hnone⟩ :=
      hr.rests.again hr.bare (congrArg Phase.timeless hp) (.inr (reports_never t.queue))
    refine ⟨t.queue ++ errors, ?_, ?_, ?_, fun _ _ hp' => .inr (lt_due_of_step ht hb hp')⟩
    · rw [hbare, hqueue, gives_of_asleep hp, List.append_nil]
      exact hagain
    · rw [texts_append, htext, herrors, List.append_nil]
    · cases watching with
      | true =>
        rw [hnone rfl, List.append_nil]
        exact hlength
      | false =>
        -- an engine that reports anew was not watching, and then its last report was taken
        have hempty : t.queue = [] := (hdue due next hp).resolve_right (Nat.not_lt.2 (hwake rfl))
        rw [hempty]
        exact hone
  · refine ⟨all, ?_, htext, hlength, fun _ _ hp' => .inr (lt_due_of_step ht hb hp')⟩
    rw [hbare, hqueue, ← gives_bare]
    exact hcomes.tail fun hs => hrest hs.resting

theorem idles_at_rest (hr : Home fs r) (hbare : t.engine.bare = r) (hq : t.queue = []) :
    Idles fs r now t := by
  refine ⟨[], ?_, rfl, Nat.zero_le _, fun _ _ _ => .inl hq⟩
  rw [hbare, hq]
  exact .stop (.inl hr.resting)

/-- A tailer that comes to its rest is at its rest after a millisecond, and gives out no
text. -/
theorem Elapses.rests (h : Elapses fs (now + 1) now t t') (hr : Home fs r) (ht : Timely now t)
    (hidles : Idles fs r now t) : t'.engine.bare = r ∧ texts t'.queue = [] := by
  have hstable : Stable fs (now + 1) fun later t =>
      later = now ∧ Timely now t ∧ Idles fs r now t := by
    constructor
    · rintro _ t ⟨rfl, ht, hidles⟩ hb
      exact ⟨rfl, ht.step fs, hidles.work hr ht hb⟩
    · rintro _ t event ⟨rfl, ht, hidles⟩
      exact ⟨rfl, ht.notify event, hidles⟩
    · rintro _ later t ⟨rfl, ht, hidles⟩ hle hlt
      exact ⟨by omega, ht, hidles⟩
  obtain ⟨_, -, ⟨rfl, ht', all, hcomes, htext, hlength, -⟩, hb, -⟩ :=
    h.keeps hstable ⟨rfl, ht, hidles⟩
  rcases stops_of_blocked ht'.on hb with hrest | ⟨⟨line, lines, rest, next, hp⟩, hfull⟩
  · obtain ⟨rfl, rfl⟩ := hcomes.eq_of_stops (.inl hrest)
    exact ⟨rfl, htext⟩
  · exfalso
    -- a full channel and a line before it are two lines
    have hawake : ¬ t'.engine.bare.Stops .never t'.queue := by
      intro hs
      rcases hs.resting with hp' | ⟨due, watching, next, hp'⟩
      · cases hp.symm.trans hp'
      · cases hp.symm.trans hp'
    have hgives : t'.engine.bare.gives = [line] := by
      unfold gives
      rw [hp]
    have hmore := (hcomes.tail hawake).grows.length_le
    rw [hgives, List.length_append, List.length_singleton] at hmore
    have hcapacity := ht'.sound.capacity
    omega

/-! ## Before the first change -/

/-- Over a regular file a tailer stops just where it has to, whatever events come. -/
theorem Elapses.stops (h : Elapses fs target now t t') (ht : Timely now t) (hx : Plain fs n x)
    (hb : x.bare = x) (hcomes : Comes fs (.full t.capacity) t.engine.bare t.queue x given) :
    t'.engine.bare = x ∧ t'.queue = given ∧ t'.capacity = t.capacity := by
  have hstable : Stable fs target fun now t' => Timely now t' ∧ t'.capacity = t.capacity ∧
      Comes fs (.full t.capacity) t'.engine.bare t'.queue x given := by
    constructor
    · rintro now u ⟨hu, hcapacity, hcomes⟩ hblocked
      have hturn := turn_step hu.sound.fits fs now
      refine ⟨hu.step fs, hturn.capacity_eq.trans hcapacity, ?_⟩
      obtain ⟨hbare, hqueue⟩ : (u.step fs now).engine.bare = u.engine.bare.beat fs ∧
          (u.step fs now).queue = u.queue ++ u.engine.gives := step_bare hu.on hblocked
      rw [hbare, hqueue]
      by_cases hs : u.engine.bare.Stops (.full t.capacity) u.queue
      · obtain ⟨rfl, rfl⟩ := hcomes.eq_of_stops hs
        have hrest := resting_of_stops hu.on hblocked (hcapacity ▸ hs)
        obtain ⟨due, watching, next, hp, -⟩ := asleep_of_resting hu.on hblocked hrest
        have hp' : u.engine.bare.phase = .asleep 0 watching next := congrArg Phase.timeless hp
        have hwatching : watching = true := by
          cases hx.founded.rests hrest with
          | ended h => cases hp'.symm.trans h
          | same h | missing h => exact (Phase.asleep.inj (hp'.symm.trans h)).2.1
          | failing h hstalls => exact (not_stalls hx.opens hx.file hstalls).elim
        obtain ⟨errors, hagain, -, -, hnone⟩ :=
          (hx.founded.rests hrest).again hb hp' (.inl hwatching)
        rw [hnone hwatching, List.append_nil] at hagain
        rw [gives_of_asleep hp, List.append_nil]
        exact hagain
      · rw [← gives_bare]
        exact hcomes.tail hs
    · rintro now u event ⟨hu, hrest⟩
      exact ⟨hu.notify event, hrest⟩
    · rintro now later u ⟨hu, hrest⟩ hle -
      exact ⟨hu.mono hle, hrest⟩
  obtain ⟨last, -, ⟨ht', hcapacity, hcomes'⟩, hblocked, -⟩ := h.keeps hstable ⟨ht, rfl, hcomes⟩
  obtain ⟨rfl, rfl⟩ := hcomes'.eq_of_stops (hcapacity ▸ stops_of_blocked ht'.on hblocked)
  exact ⟨rfl, rfl, hcapacity⟩

end Tailer

end LogFollower
