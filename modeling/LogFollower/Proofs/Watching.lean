import LogFollower.Proofs.Watching.Answers
import LogFollower.Proofs.Watching.Alike

/-!
# Both ways of watching give the same lines

A tailer looks at its path every second, or as soon as an event names the file. Events can be
missed, can come late and can come for nothing: they only wake the engine, and what it finds then it
finds by a look at the path. So in a script that leaves three seconds for every change of the files,
each step returns the same text, whichever way the tailer watches and whatever events come
(`same_answers`). The path may be missing for a while, may lead through links, or may be of a kind
that cannot be read.

There is one exception. While a path cannot be opened, a report comes every second. If nobody takes
them the channel is full after a while, and sooner for a tailer that met the failure sooner. A file
that is changed then may be found during the poll, or only after it (`answers_differ`).
-/

namespace LogFollower

namespace Tailer

variable {fs : FileSystem} {path : Path} {config : Config} {poll : Bool} {t : Tailer}

theorem start_poll (fs : FileSystem) (path : Path) (config : Config) (poll : Bool) :
    (start fs path { config with poll }).map (fun _ => ()) =
      (start fs path config).map fun _ => () := by
  have hfault : ({ config with poll } : Config).fault? = config.fault? := rfl
  have hwaits : ({ config with poll } : Config).waitsForFile = config.waitsForFile := rfl
  unfold start Engine.start
  rw [hfault, hwaits]
  cases config.fault? with
  | some f => rfl
  | none =>
    cases fs.openFile path with
    | error f =>
      cases hn : f.notFound with
      | false => simp only [hn]; rfl
      | true =>
        simp only [hn]
        cases config.waitsForFile <;> rfl
    | ok n =>
      cases config.location with
      | none => rfl
      | some seek =>
        cases hr : seek.resolve (FileSystem.identify n) (fs.length n) with
        | ok offset => simp only [hr]; rfl
        | error e => simp only [hr]

theorem wakeTime_start (h : start fs path config = .ok t) : t.wakeTime = none := by
  obtain ⟨-, ⟨n, offset, -, -, rfl⟩ | ⟨f, -, -, -, rfl⟩⟩ := start_cases h
  · rfl
  · rfl

theorem alone_start (h : start fs path config = .ok t)
    (hpace : config.pollInterval = Watcher.recheck) : Alone 0 t := by
  refine ⟨timely_start h hpace 0, ?_, persists_start h⟩
  obtain ⟨-, ⟨n, offset, -, -, rfl⟩ | ⟨f, -, -, -, rfl⟩⟩ := start_cases h
  · exact Watcher.calm_start
  · exact Watcher.calm_start

end Tailer

open Tailer

variable {fs : FileSystem} {path : Path} {config : Config} {steps : List Step}

theorem launch_answer (fs : FileSystem) (path : Path) (config : Config) :
    ((Scenario.start fs).launch 0 path config).1 =
      (Tailer.start fs path config).map fun _ => () := by
  have hfs : (Scenario.start fs).fs = fs := rfl
  unfold Scenario.launch
  rw [hfs]
  cases Tailer.start fs path config <;> rfl

theorem launched {s : Scenario} (h : (Scenario.start fs).launch 0 path config = (.ok (), s)) :
    ∃ t, Tailer.start fs path config = .ok t ∧ s.fs = fs ∧ s.now = 1 ∧
      s.tailer? 0 = some (t.runTo fs 0 1) := by
  unfold Scenario.launch at h
  cases ht : Tailer.start (Scenario.start fs).fs path config with
  | error e => rw [ht] at h; cases h
  | ok t =>
    rw [ht] at h
    cases h
    refine ⟨t, ht, rfl, rfl, ?_⟩
    rw [Scenario.tailer?_pass]
    rfl

theorem alone_launch {s : Scenario} {t : Tailer} (hpace : config.pollInterval = Watcher.recheck)
    (ht : Tailer.start fs path config = .ok t) (hnow : s.now = 1) :
    Alone s.now (t.runTo fs 0 1) := by
  rw [hnow]
  exact runTo_of (alone_lasting fs) (Nat.zero_le 1) (alone_start ht hpace)

theorem returned_answers {s : Scenario} {free : Bool}
    (hpace : config.pollInterval = Watcher.recheck)
    (h : (Scenario.start fs).launch 0 path config = (.ok (), s))
    (hfree : free = true → s.unhindered true steps = true) :
    Returned free fs path config steps (s.answers steps) := by
  obtain ⟨t, ht, hfs, hnow, htailer⟩ := launched h
  have hruns := Scenario.runs_answers htailer (alone_launch hpace ht hnow) hfree
  rw [hfs, hnow] at hruns
  exact ⟨t, _, ht, elapses_runTo (Nat.zero_le 1) (alone_start ht hpace), hruns⟩

/-- Tailers that are launched with both ways of watching go alike while no events come. -/
theorem alike_launch {s s' : Scenario} {poll : Bool} (hpace : config.pollInterval = Watcher.recheck)
    (h : (Scenario.start fs).launch 0 path { config with poll } = (.ok (), s))
    (h' : (Scenario.start fs).launch 0 path config = (.ok (), s')) : s.Alike s' := by
  obtain ⟨t, ht, hfs, hnow, htailer⟩ := launched h
  obtain ⟨t', ht', hfs', hnow', htailer'⟩ := launched h'
  have hpace' : ({ config with poll } : Config).pollInterval = Watcher.recheck := hpace
  have ha := alone_launch hpace' ht hnow
  have ha' := alone_launch hpace ht' hnow
  refine ⟨hfs.trans hfs'.symm, hnow.trans hnow'.symm, _, _, htailer, htailer', ha, ha', ?_⟩
  obtain ⟨hbare, hroom⟩ := bare_start ht' ht
  refine Alike.runTo ⟨hbare, ?_, ?_, hroom⟩ (alone_start ht hpace') (alone_start ht' hpace)
  · rw [wakeTime_start ht, wakeTime_start ht']
  · rw [(outer_start ht).2, (outer_start ht').2]

/-- **Both ways of watching give the same lines.** In a script in which every change of the files is
followed by a poll of three seconds at least, each step returns the same text whichever way the
tailer watches, and whatever events come. No file is changed while a report waits for room, unless
all lines were just taken. A tailer starts with both ways or with none.

A scenario, to which no events come, returns the same lines for both ways even then, reports of
errors too. -/
theorem same_answers (fs : FileSystem) (path : Path) (hpace : config.pollInterval = 1000)
    (h : Polled steps) :
    ∃ text : List (List Line), ∀ poll : Bool,
      (∀ answers, Returned true fs path { config with poll } steps answers →
        answers.map texts = text) ∧
      ((Scenario.start fs).launch 0 path { config with poll }).1 =
        ((Scenario.start fs).launch 0 path config).1 ∧
      ∀ s s', (Scenario.start fs).launch 0 path { config with poll } = (.ok (), s) →
        (Scenario.start fs).launch 0 path config = (.ok (), s') →
          s.answers steps = s'.answers steps ∧
            (s.unhindered true steps = true →
              Returned true fs path { config with poll } steps (s.answers steps)) := by
  have htext : ∃ text, ∀ (poll : Bool) answers,
      Returned true fs path { config with poll } steps answers → answers.map texts = text := by
    cases hstart : Tailer.start fs path config with
    | ok t => exact exists_text hstart hpace h
    | error e =>
      refine ⟨[], ?_⟩
      rintro poll answers ⟨t, t', ht, -⟩
      have hboth := start_poll fs path config poll
      rw [ht, hstart] at hboth
      cases hboth
  obtain ⟨text, htext⟩ := htext
  refine ⟨text, ?_⟩
  intro poll
  refine ⟨htext poll, ?_, ?_⟩
  · rw [launch_answer, launch_answer, start_poll]
  · intro s s' hs hs'
    exact ⟨Scenario.answers_alike (alike_launch hpace hs hs') steps, fun hfree =>
      returned_answers hpace hs fun _ => hfree⟩

namespace Sample

/-- Follow the name from its beginning, and look every second. -/
def everySecond : Config := { Sample.config with pollInterval := 1000 }

/-- The file grows and is moved away, and after a while another comes to its name. -/
def comings : List Step :=
  .drain :: .edit (.append name [0x7A, lineFeed]) :: (Step.poll 3 ++
    .edit (.rename name other) :: (Step.poll 3 ++
      .tick 2 :: .edit (.create name) :: (Step.poll 4 ++
        .edit (.append name [0x77, lineFeed]) :: (Step.poll 3 ++ [.receive none]))))

def watched (poll : Bool) : Scenario :=
  ((Scenario.start files).launch 0 name { everySecond with poll }).2

theorem polled_comings : Polled comings :=
  .drain (.edit _ le_rfl (.edit _ le_rfl (.tick 2 (.edit _ (by decide) (.edit _ le_rfl
    (.receive none .done))))))

end Sample

theorem same_answers_comings :
    Sample.everySecond.pollInterval = 1000 ∧ Polled Sample.comings ∧
      ∀ (poll : Bool) answers,
        Returned true Sample.files Sample.name { Sample.everySecond with poll } Sample.comings
            answers →
        (answers.map texts).map (List.map Line.offset) =
          [[3], [], [], [6], [], [], [], [], [], [], [], [], [], [2], []] := by
  obtain ⟨text, htext⟩ := same_answers Sample.files Sample.name
    (rfl : Sample.everySecond.pollInterval = 1000) Sample.polled_comings
  have hown : Returned true Sample.files Sample.name { Sample.everySecond with poll := true }
      Sample.comings ((Sample.watched true).answers Sample.comings) :=
    ((htext true).2.2 (Sample.watched true) (Sample.watched true) (by decide +kernel)
      (by decide +kernel)).2 (by decide +kernel)
  have hsame := (htext true).1 _ hown
  refine ⟨rfl, Sample.polled_comings, ?_⟩
  intro poll answers h
  rw [(htext poll).1 answers h, ← hsame]
  decide +kernel

namespace Sample

/-- Follow the name as soon as there is something, with room for three lines. -/
def roomForThree : Config :=
  { Config.followName with pollInterval := 1000, channelCapacity := 3, poll := false }

def vacant : FileSystem :=
  ⟨[.directory [(other.bytes, .object 1)], .regular firstBytes]⟩

/-- The name leads to itself for a while, and for three seconds nobody takes the reports of that.
Then the file comes to the name. -/
def overrun : List Step :=
  .edit (.symlink name name) :: (Step.poll 3 ++
    .tick 3 :: .edit (.rename other name) :: (Step.poll 3 ++ []))

def expectant : Tailer :=
  ⟨⟨name, roomForThree, .away none, .start 0 none, .notified "a" false [], .asleep 1000 true .look⟩,
    [], 3, false, false⟩

def woken : Tailer := expectant.withPhase (.ready .look)

/-- The scenario after three seconds, if an event comes in the first milliseconds. -/
def roused : Scenario :=
  ⟨vacant.edit (.symlink name name), 3001,
    [⟨some (woken.runTo (vacant.edit (.symlink name name)) 2 3001), none⟩]⟩

def rousedAnswers : List (List Line) :=
  [] :: [] :: roused.answers
    (.drain :: .tick 3 :: .edit (.rename other name) :: (Step.poll 3 ++ []))

theorem polled_overrun : Polled overrun :=
  .edit _ le_rfl (.tick 3 (.edit _ le_rfl .done))

theorem start_vacant : ∃ t, Tailer.start vacant name roomForThree = .ok t ∧
    t.runTo vacant 0 1 = expectant :=
  ⟨_, rfl, by decide +kernel⟩

theorem alone_expectant : Alone 1 expectant := by
  obtain ⟨t, ht, hrun⟩ := start_vacant
  rw [← hrun]
  exact runTo_of (alone_lasting vacant) (Nat.zero_le 1) (alone_start ht rfl)

theorem wakes_expectant : (expectant.engine.watcher.deliver ⟨[name]⟩).awaken =
    some (.notified "a" false []) := by decide +kernel

theorem returned_roused :
    Returned false vacant name { roomForThree with poll := false } overrun rousedAnswers := by
  obtain ⟨t, ht, hrun⟩ := start_vacant
  have hstart : Elapses vacant 1 0 t expectant := by
    rw [← hrun]
    exact elapses_runTo (Nat.zero_le 1) (alone_start ht rfl)
  have hevent : Elapses roused.fs 3001 1 expectant (woken.runTo roused.fs 2 3001) :=
    elapses_woken alone_expectant rfl wakes_expectant (by decide) (by decide) (by decide)
  have hlater : Alone 2 expectant := (alone_lasting vacant).later _ _ _ (by decide) alone_expectant
  have hwoken : Alone 2 woken := hlater.wake rfl wakes_expectant
  have halone : Alone roused.now (woken.runTo roused.fs 2 3001) :=
    runTo_of (alone_lasting roused.fs) (by decide) hwoken
  refine ⟨t, expectant, ht, hstart, .edit nofun (.tick hevent ?_)⟩
  exact Scenario.runs_answers (s := roused) rfl halone nofun

end Sample

/-- The text of a script may depend on the events where a file is changed while a report waits. An
event lets the tailer meet the failure sooner, so the channel is full of reports sooner, and the
poll after the change is over before the tailer comes to the file. -/
theorem answers_differ :
    Sample.roomForThree.pollInterval = 1000 ∧ Polled Sample.overrun ∧
      ∃ answers answers',
        Returned false Sample.vacant Sample.name { Sample.roomForThree with poll := true }
          Sample.overrun answers ∧
        Returned false Sample.vacant Sample.name { Sample.roomForThree with poll := false }
          Sample.overrun answers' ∧
        (answers.map texts).flatten.map Line.offset = [3] ∧ (answers'.map texts).flatten = [] := by
  have hpolling : Returned false Sample.vacant Sample.name
      { Sample.roomForThree with poll := true } Sample.overrun
      (((Scenario.start Sample.vacant).launch 0 Sample.name
        { Sample.roomForThree with poll := true }).2.answers Sample.overrun) :=
    returned_answers rfl (by decide +kernel) nofun
  exact ⟨rfl, Sample.polled_overrun, _, _, hpolling, Sample.returned_roused, by decide +kernel,
    by decide +kernel⟩

end LogFollower
