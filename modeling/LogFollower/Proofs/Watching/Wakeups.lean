import LogFollower.Proofs.Progress
import LogFollower.Proofs.Standing
import LogFollower.Proofs.Watching.Again
import Mathlib.Logic.Relation

/-!
# No wake-up is lost

A watcher that is notified forgets the events in its queue before it looks, and passes over those
that do not concern the file. What it forgets was there before the look, so the look covers it. What
comes after the look stays in the queue until the engine takes it.

`Signalled` is a world with the events that are on their way. A step that changes what the path
leads to, or its length, puts an event that names the path on its way (`Signalled.Step.edit`); it
comes at any time after that, among any others. While the engine waits, either a look would tell it
nothing new, or an event that names the path has yet to come or is in the queue (`Signalled.Heeds`).
So `no_wakeup_lost`: with no such event left there is nothing new, an event in the queue ends the
wait, and nothing but a look that tells something new, or a stop, leads out of it.
-/

namespace LogFollower

/-- An event names a path: it has a path with the same last name. -/
def Event.names (e : Event) (p : Path) : Prop :=
  ∃ q ∈ e.paths, ∃ s, q.fileName = some s ∧ p.fileName = some s

theorem Event.names.concerns {e : Event} {p : Path} (h : e.names p) :
    e.concerns (Watcher.watchedName p) = true := by
  obtain ⟨q, hq, s, hqs, hps⟩ := h
  refine List.any_eq_true.2 ⟨q, hq, ?_⟩
  rw [hqs, Watcher.watchedName, hps]
  simp

namespace Watcher

variable {fs : FileSystem} {p : Path} {config : Config} {name : String} {watcher : Watcher}

/-- A watcher compares events with a name, if it is notified. -/
def Named (name : String) : Watcher → Prop
  | polling _ => True
  | notified name' _ _ => name' = name

theorem named_start : (start fs p config).Named (watchedName p) := by
  unfold start
  split_ifs
  · trivial
  · rfl

theorem Named.attach (h : watcher.Named name) : (watcher.attach fs p).Named name := by
  cases watcher <;> exact h

theorem Named.forget (h : watcher.Named name) : watcher.forget.Named name := by
  cases watcher <;> exact h

theorem Named.deliver (h : watcher.Named name) (e : Event) : (watcher.deliver e).Named name := by
  cases watcher <;> exact h

theorem Named.awaken {woken : Watcher} (h : watcher.Named name) (ha : watcher.awaken = some woken) :
    woken.Named name := by
  cases watcher with
  | polling interval => cases ha
  | notified name' onFile queue =>
    unfold Watcher.awaken at ha
    cases hq : queue.dropWhile (!·.concerns name') with
    | nil => simp [hq] at ha
    | cons e rest =>
      simp only [hq, Option.some.injEq] at ha
      subst ha
      exact h

/-- An event that concerns the file wakes, whatever stands before it in the queue. -/
theorem isSome_awaken {onFile : Bool} {queue : List Event} {e : Event} (he : e ∈ queue)
    (hc : e.concerns name = true) : (notified name onFile queue).awaken.isSome = true := by
  unfold Watcher.awaken
  cases hq : queue.dropWhile (!·.concerns name) with
  | nil => simpa [hc] using List.dropWhile_eq_nil_iff.1 hq e he
  | cons => simp [hq]

theorem notified_of_deliver {onFile : Bool} {queue : List Event} {e : Event}
    (h : watcher.deliver e = .notified name onFile queue) :
    ∃ earlier, watcher = .notified name onFile earlier ∧ queue = earlier ++ [e] := by
  cases watcher with
  | polling interval => cases h
  | notified name' onFile' earlier =>
    cases h
    exact ⟨earlier, rfl, rfl⟩

end Watcher

/-! ## The wait -/

/-- Whether a phase is part of the wait for a change of the open file. -/
def Phase.awaits : Phase → Bool
  | .ready .clear => true
  | .ready .check => true
  | .asleep _ true .clear => true
  | _ => false

theorem Phase.awaits_cases {p : Phase} (h : p.awaits = true) :
    p = .ready .clear ∨ p = .ready .check ∨ ∃ due, p = .asleep due true .clear := by
  unfold Phase.awaits at h
  split at h
  · exact .inl rfl
  · exact .inr (.inl rfl)
  · next due => exact .inr (.inr ⟨due, rfl⟩)
  · cases h

/-- Whether a phase puts another watcher in the place of the one there is. -/
def Phase.rewatches : Phase → Bool
  | .ready .arm => true
  | .ready .reopen => true
  | _ => false

namespace Engine

/-- What the engine goes on with when it is told of a change, or of an error. -/
def react (e : Engine) (s : Session) : Except TailError Change → Engine
  | .error error => e.report error (.read .catchUp)
  | .ok .none => e
  | .ok .modified => e.goto (.read .catchUp)
  | .ok .truncated => (e.rewind s).goto (.read .catchUp)
  | .ok .deleted => e.goto (.read .drain)

variable {fs : FileSystem} {e : Engine} {s : Session}

/-- A look that tells something new ends the wait with it. -/
theorem check_eq_react (hs : e.source = .opened s) (now : Nat)
    (hc : classify (fs.look e.path) s.identifier e.splitter.consumed ≠ .ok .none) :
    e.check fs now =
      e.react s (classify (fs.look e.path) s.identifier e.splitter.consumed) := by
  cases hr : classify (fs.look e.path) s.identifier e.splitter.consumed with
  | error error => exact check_of_error hs hr now
  | ok change =>
    unfold check
    rw [hs]
    simp only [hr]
    cases change with
    | none => exact absurd hr hc
    | modified | truncated | deleted => rfl

end Engine

namespace Tailer

open Engine

variable {fs : FileSystem} {now : Nat} {t t' : Tailer}

theorem sleep_cases (hstop : ¬ t.stopRequested = true) (now due : Nat) (watching : Bool)
    (next : Stage) :
    (t.sleep now due watching next).engine.phase = .ready next ∨
      t.sleep now due watching next = t := by
  unfold sleep
  rw [if_neg hstop]
  split
  · exact .inl rfl
  · split_ifs
    · exact .inl rfl
    · exact .inr rfl

/-- How the wait for a change ends: by a stop, or by a look that tells something new. -/
theorem leaves_wait (hf : t.engine.Fits) (hw : t.engine.phase.awaits = true)
    (hl : (t.step fs now).engine.phase.awaits = false) :
    t.stopRequested = true ∧ (t.step fs now).ended = true ∨
    ∃ s, t.engine.source = .opened s ∧ t.engine.phase = .ready .check ∧
      classify (fs.look t.engine.path) s.identifier t.engine.splitter.consumed ≠ .ok .none ∧
      (t.step fs now).engine = t.engine.react s
        (classify (fs.look t.engine.path) s.identifier t.engine.splitter.consumed) := by
  obtain hp | hp | ⟨due, hp⟩ := Phase.awaits_cases hw
  · have hworks : t.Works .clear := ⟨hp, fun h => Bool.false_ne_true h.2⟩
    rw [step_works hworks] at hl
    cases hl
  · by_cases hstop : t.stopRequested = true
    · refine .inl ⟨hstop, ?_⟩
      unfold step
      rw [hp]
      simp [hstop, Stage.observesStop, quit, ended, withPhase]
    · have hworks : t.Works .check := ⟨hp, fun h => hstop h.1⟩
      obtain ⟨s, hs⟩ := opened_of_fits hf hworks.stage_eq rfl
      rw [step_works hworks] at hl ⊢
      have hnew : classify (fs.look t.engine.path) s.identifier t.engine.splitter.consumed ≠
          .ok .none := by
        intro hc
        have hawaits : (t.engine.check fs now).phase.awaits = true := by
          rw [check_of_none hs hc now]
          rfl
        exact Bool.false_ne_true (hl.symm.trans hawaits)
      exact .inr ⟨s, hs, hp, hnew, check_eq_react hs now hnew⟩
  · have hstep : t.step fs now = t.sleep now due true .clear := by
      unfold step
      rw [hp]
    rw [hstep] at hl ⊢
    by_cases hstop : t.stopRequested = true
    · exact .inl ⟨hstop, by simp [sleep, hstop, quit, ended, withPhase]⟩
    · obtain hwoken | hsame := sleep_cases hstop now due true .clear
      · rw [hwoken] at hl
        cases hl
      · rw [hsame, hw] at hl
        cases hl

theorem step_of_awaken {due : Nat} {next : Stage} (hp : t.engine.phase = .asleep due true next)
    (hstop : t.stopRequested = false) (ha : t.engine.watcher.awaken.isSome = true) :
    (t.step fs now).engine.phase = .ready next := by
  obtain ⟨watcher, hw⟩ := Option.isSome_iff_exists.1 ha
  unfold step
  simp only [hp, sleep, hstop, Bool.false_eq_true, if_false, if_true, hw]

theorem Turn.sleeps (h : Turn fs now t t') {due : Nat}
    (hp : t'.engine.phase = .asleep due true .clear) :
    t' = t ∨ ∃ s, t'.engine.source = .opened s ∧
      classify (fs.look t'.engine.path) s.identifier t'.engine.splitter.consumed = .ok .none := by
  cases h with
  | idle => exact .inl rfl
  | wait hw hwaits =>
    cases hwaits with
    | missing => cases hp
    | same hs hc => exact .inr ⟨_, hs, hc⟩
  | _ => cases hp

theorem Turn.named (h : Turn fs now t t')
    (hn : t.engine.watcher.Named (Watcher.watchedName t.engine.path)) :
    t'.engine.watcher.Named (Watcher.watchedName t'.engine.path) := by
  cases h with
  | wake hp why =>
    obtain ⟨-, rfl⟩ | ⟨-, ha⟩ := why
    · exact hn
    · exact hn.awaken ha
  | pass hw hp =>
    cases hp with
    | arm => exact Watcher.named_start
    | found => exact hn.attach
    | clear => exact hn.forget
    | _ => exact hn
  | «open» => exact Watcher.named_start
  | _ => exact hn

end Tailer

/-! ## Events on their way -/

/-- Whether a move is one of the consumer or of the clock. -/
def Move.aside : Move → Bool
  | .wait _ => true
  | .receive _ => true
  | .stop => true
  | .cleanup => true
  | _ => false

/-- What a look at the path says of a file that was opened, at the position it was read up to. -/
def World.found (w : World) (s : Session) : Except TailError Change :=
  classify (w.fs.look w.tailer.engine.path) s.identifier w.tailer.engine.splitter.consumed

/-- A look would tell the engine nothing new. -/
def World.Unchanged (w : World) : Prop :=
  ∃ s, w.tailer.engine.source = .opened s ∧ w.found s = .ok .none

/-- A world with the events of changes that are on their way. -/
structure Signalled where
  world : World
  underway : List Event

namespace Signalled

def path (u : Signalled) : Path := u.world.tailer.engine.path

/-- What can happen in a world with events on their way. -/
inductive Step (u : Signalled) : Signalled → Prop
  /-- Files change. If a look at the path gives something else after that, an event that names the
  path is on its way. -/
  | edit (change : Edit) (events : List Event)
      (h : (u.world.fs.edit change).look u.path ≠ u.world.fs.look u.path →
        ∃ e ∈ events, e.names u.path) :
      Step u ⟨u.world.move (.edit change), u.underway ++ events⟩
  /-- One of the events comes. -/
  | arrive {before behind : List Event} {e : Event} (h : u.underway = before ++ e :: behind) :
      Step u ⟨u.world.move (.notify e), before ++ behind⟩
  /-- Any other event comes. -/
  | stray (e : Event) : Step u ⟨u.world.move (.notify e), u.underway⟩
  /-- The engine takes a step. What is on its way to a watcher may never come to the one that takes
  its place. -/
  | work {underway : List Event}
      (h : underway = u.underway ∨ u.world.tailer.engine.phase.rewatches = true) :
      Step u ⟨u.world.move .work, underway⟩
  | aside {m : Move} (h : m.aside = true) : Step u ⟨u.world.move m, u.underway⟩

/-- The engine waits for a change, with some events in the queue of its watcher. -/
def Listens (u : Signalled) (queue : List Event) : Prop :=
  ∃ due name onFile, u.world.tailer.engine.phase = .asleep due true .clear ∧
    u.world.tailer.engine.watcher = .notified name onFile queue

/-- The watcher compares events with the name of the path; and while the engine waits, a look would
tell nothing new unless an event that names the path is in the queue or on its way. -/
structure Heeds (u : Signalled) : Prop where
  accounted : u.world.Accounted
  named : u.world.tailer.engine.watcher.Named (Watcher.watchedName u.path)
  heeds : ∀ queue, u.Listens queue →
    u.world.Unchanged ∨ ∃ e ∈ queue ++ u.underway, e.names u.path

variable {u v : Signalled}

theorem Step.move (h : u.Step v) : ∃ m, v.world = u.world.move m := by
  cases h with
  | edit change => exact ⟨.edit change, rfl⟩
  | arrive => exact ⟨.notify _, rfl⟩
  | stray e => exact ⟨.notify e, rfl⟩
  | work => exact ⟨.work, rfl⟩
  | @aside m => exact ⟨m, rfl⟩

theorem listens_notify {e : Event} {underway queue : List Event}
    (h : Listens ⟨u.world.move (.notify e), underway⟩ queue) :
    ∃ earlier, u.Listens earlier ∧ queue = earlier ++ [e] := by
  obtain ⟨due, name, onFile, hp, hw⟩ := h
  obtain ⟨earlier, hw, hq⟩ := Watcher.notified_of_deliver hw
  exact ⟨earlier, ⟨due, name, onFile, hp, hw⟩, hq⟩

theorem Heeds.notify (h : u.Heeds) {e : Event} {underway : List Event}
    (hsub : u.underway ⊆ e :: underway) : Heeds ⟨u.world.move (.notify e), underway⟩ := by
  refine ⟨h.accounted.move (.notify e), h.named.deliver e, fun queue hl => ?_⟩
  obtain ⟨earlier, hearlier, rfl⟩ := listens_notify hl
  refine (h.heeds earlier hearlier).imp id ?_
  rintro ⟨e', he', hn⟩
  have hmem : e' ∈ earlier ++ e :: underway :=
    (List.mem_append.1 he').elim (List.mem_append_left _) fun h => List.mem_append_right _ (hsub h)
  exact ⟨e', by simpa using hmem, hn⟩

theorem Heeds.work (h : u.Heeds) {underway : List Event}
    (hunder : underway = u.underway ∨ u.world.tailer.engine.phase.rewatches = true) :
    Heeds ⟨u.world.move .work, underway⟩ := by
  have ht := Tailer.turn_step h.accounted.sound.fits u.world.fs u.world.now
  refine ⟨h.accounted.move .work, ht.named h.named, fun queue hl => ?_⟩
  obtain ⟨due, name, onFile, hp, hw⟩ := hl
  obtain hsame | hlooked := ht.sleeps hp
  · have htailer : (u.world.move .work).tailer = u.world.tailer := hsame
    have hasleep : u.world.tailer.engine.phase = .asleep due true .clear := htailer ▸ hp
    have hkept : underway = u.underway := by
      refine hunder.resolve_right fun hr => ?_
      rw [hasleep] at hr
      exact absurd hr nofun
    have hold := h.heeds queue ⟨due, name, onFile, hasleep, htailer ▸ hw⟩
    rw [← hkept] at hold
    unfold World.Unchanged World.found path at hold ⊢
    rw [htailer]
    exact hold
  · exact .inl hlooked

/-- Every step keeps to the events. -/
theorem Heeds.step (h : u.Heeds) (hs : u.Step v) : v.Heeds := by
  cases hs with
  | edit change events hnames =>
    refine ⟨h.accounted.move (.edit change), h.named, fun queue hl => ?_⟩
    by_cases hlook : (u.world.fs.edit change).look u.path = u.world.fs.look u.path
    · refine (h.heeds queue hl).imp ?_ ?_
      · rintro ⟨s, hs, hc⟩
        exact ⟨s, hs, (congrArg (classify · _ _) hlook).trans hc⟩
      · rintro ⟨e, he, hn⟩
        exact ⟨e, by simpa [or_assoc] using Or.inl (List.mem_append.1 he), hn⟩
    · obtain ⟨e, he, hn⟩ := hnames hlook
      exact .inr ⟨e, List.mem_append_right _ (List.mem_append_right _ he), hn⟩
  | arrive hunder =>
    refine h.notify ?_
    rw [hunder]
    exact List.perm_middle.subset
  | stray e => exact h.notify (List.subset_cons_self _ _)
  | work hunder => exact h.work hunder
  | @aside m hm =>
    -- neither the engine nor the files change
    have hframe : (u.world.move m).tailer.engine = u.world.tailer.engine ∧
        (u.world.move m).fs = u.world.fs := by
      cases m <;> first | exact ⟨rfl, rfl⟩ | cases hm
    refine ⟨h.accounted.move m, ?_, ?_⟩
    · unfold path
      rw [hframe.1]
      exact h.named
    · unfold Listens World.Unchanged World.found path
      rw [hframe.1, hframe.2]
      exact h.heeds

theorem heeds_of_steps (h : u.Heeds) (hs : Relation.ReflTransGen Step u v) : v.Heeds := by
  induction hs with
  | refl => exact h
  | tail _ hstep ih => exact ih.step hstep

theorem heeds_start {fs : FileSystem} {path : Path} {config : Config} {t : Tailer}
    (h : Tailer.start fs path config = .ok t) : Heeds ⟨World.start fs t, []⟩ := by
  refine ⟨World.accounted_start h, ?_, ?_⟩
  · obtain ⟨-, ⟨n, offset, -, -, rfl⟩ | ⟨f, -, -, -, rfl⟩⟩ := Tailer.start_cases h <;>
      exact Watcher.named_start
  · rintro queue ⟨due, name, onFile, hp, -⟩
    obtain ⟨-, ⟨n, offset, -, -, rfl⟩ | ⟨f, -, -, -, rfl⟩⟩ := Tailer.start_cases h <;> cases hp

theorem reaches_of_steps (h : Relation.ReflTransGen Step u v) :
    u.world.Reaches World.anyMove v.world := by
  induction h with
  | refl => exact .here
  | tail _ hstep ih =>
    obtain ⟨m, hm⟩ := hstep.move
    rw [hm]
    exact ih.move trivial

theorem steps_works (u : Signalled) (count : Nat) :
    Relation.ReflTransGen Step u ⟨u.world.works count, u.underway⟩ := by
  induction count generalizing u with
  | zero => exact .refl
  | succ count ih => exact .head (.work (.inl rfl)) (ih ⟨u.world.move .work, u.underway⟩)

end Signalled

/-- No wake-up is lost. Events come some time after what they tell of, in any order and among
any others. Still, when the engine waits and no event that names the path is in the queue or on its
way, a look would tell nothing new; an event in the queue that names the path ends the wait; and
what leads out of the loop of waits and looks is a stop, or a look that tells something new, and
the engine acts on what it tells. -/
theorem no_wakeup_lost {fs : FileSystem} {path : Path} {config : Config} {t : Tailer}
    (h : Tailer.start fs path config = .ok t) {u : Signalled}
    (hu : Relation.ReflTransGen Signalled.Step ⟨World.start fs t, []⟩ u) :
    u.path = path ∧
    (∀ queue, u.Listens queue → (∀ e ∈ queue ++ u.underway, ¬ e.names path) →
      u.world.Unchanged) ∧
    (∀ queue, u.Listens queue → (∃ e ∈ queue, e.names path) →
      u.world.tailer.stopRequested = false →
      u.world.work.tailer.engine.phase = .ready .clear) ∧
    (u.world.tailer.engine.phase.awaits = true →
      u.world.work.tailer.engine.phase.awaits = false →
      u.world.tailer.stopRequested = true ∧ u.world.work.tailer.ended = true ∨
      ∃ s, u.world.tailer.engine.source = .opened s ∧
        u.world.tailer.engine.phase = .ready .check ∧ u.world.found s ≠ .ok .none ∧
        u.world.work.tailer.engine = u.world.tailer.engine.react s (u.world.found s)) := by
  have hstart := World.accounted_start h
  have hheeds := Signalled.heeds_of_steps (Signalled.heeds_start h) hu
  have hpath : u.path = path :=
    ((Signalled.reaches_of_steps hu).setup_eq hstart).2.trans (Tailer.engine_path_start h)
  refine ⟨hpath, fun queue hl hnone => ?_, fun queue hl hsome hstop => ?_, fun hw hl => ?_⟩
  · refine (hheeds.heeds queue hl).resolve_right ?_
    rintro ⟨e, he, hn⟩
    exact hnone e he (hpath ▸ hn)
  · obtain ⟨due, name, onFile, hp, hwatcher⟩ := hl
    obtain ⟨e, he, hn⟩ := hsome
    have hname : name = Watcher.watchedName u.path := by
      have hnamed := hheeds.named
      rw [hwatcher] at hnamed
      exact hnamed
    refine Tailer.step_of_awaken hp hstop ?_
    rw [hwatcher, hname, hpath]
    exact Watcher.isSome_awaken he hn.concerns
  · exact Tailer.leaves_wait hheeds.accounted.sound.fits hw hl

namespace Sample

def listening : Signalled := ⟨(World.start files notified).works 6, []⟩

/-- The file was cut short, and the event of that has come behind another. -/
def warned : Signalled := ⟨alarmed, []⟩

def heeding : Signalled := ⟨alarmed.works 2, []⟩

theorem names_name : (⟨[name]⟩ : Event).names name :=
  ⟨name, List.mem_singleton_self _, name.bytes, by decide, by decide⟩

theorem steps_listening :
    Relation.ReflTransGen Signalled.Step ⟨World.start files notified, []⟩ listening :=
  Signalled.steps_works ⟨World.start files notified, []⟩ 6

theorem steps_warned : Relation.ReflTransGen Signalled.Step listening warned := by
  have hcut := Signalled.Step.edit (u := listening) (.truncate name 1) [⟨[name]⟩] fun _ =>
    ⟨_, List.mem_singleton_self _, names_name⟩
  have hcomes : Signalled.Step ⟨(listening.world.move (.edit (.truncate name 1))).move
      (.notify ⟨[other]⟩), [⟨[name]⟩]⟩ warned := @Signalled.Step.arrive _ [] [] _ rfl
  exact .tail (.tail (.single hcut) (.stray ⟨[other]⟩)) hcomes

end Sample

theorem no_wakeup_lost_alarmed :
    Sample.listening.Listens [] ∧ Sample.listening.world.Unchanged ∧
    Sample.warned.Listens [⟨[Sample.other]⟩, ⟨[Sample.name]⟩] ∧
    Sample.warned.world.work.tailer.engine.phase = .ready .clear ∧
    ∃ s, Sample.heeding.world.tailer.engine.source = .opened s ∧
      Sample.heeding.world.found s ≠ .ok .none ∧
      Sample.heeding.world.work.tailer.engine =
        Sample.heeding.world.tailer.engine.react s (Sample.heeding.world.found s) := by
  have hheeding := (Sample.steps_listening.trans Sample.steps_warned).trans
    (Signalled.steps_works Sample.warned 2)
  have hlistening : Sample.listening.Listens [] := ⟨1000, "a", true, by decide +kernel⟩
  have hwarned : Sample.warned.Listens [⟨[Sample.other]⟩, ⟨[Sample.name]⟩] :=
    ⟨1000, "a", true, by decide +kernel⟩
  obtain ⟨-, hquiet, -, -⟩ := no_wakeup_lost Sample.start_notified Sample.steps_listening
  obtain ⟨-, -, hwakes, -⟩ := no_wakeup_lost Sample.start_notified
    (Sample.steps_listening.trans Sample.steps_warned)
  obtain ⟨-, -, -, hleaves⟩ := no_wakeup_lost Sample.start_notified hheeding
  obtain ⟨hstop, -⟩ | ⟨s, hs, -, hnew, hreacts⟩ :=
    hleaves (by decide +kernel) (by decide +kernel)
  · exact absurd hstop (by decide +kernel)
  · exact ⟨hlistening, hquiet [] hlistening nofun, hwarned,
      hwakes _ hwarned ⟨_, List.mem_cons_of_mem _ (List.mem_singleton_self _), Sample.names_name⟩
        (by decide +kernel), s, hs, hnew, hreacts⟩

end LogFollower
