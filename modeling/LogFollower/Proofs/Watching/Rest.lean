import LogFollower.Proofs.Tailer.Beat
import LogFollower.Proofs.Tailer.Effort
import LogFollower.Proofs.Tailer.Kept
import LogFollower.Proofs.World

/-!
# Where an engine rests

An engine that nothing holds up comes to a rest: it has ended, it waits for a change, or a failure
keeps it from going on. Over files that stay as they are, a rest is one for ever: `Rests` says what
an engine finds when it wakes. `Poised` says that an engine is on its way to such a rest, and every
step leaves it so (`Poised.turn`).

`Comes` is the way from where a bare engine stands to its next rest, or to a line that there is no
room for. There always is one (`exists_comes`).
-/

namespace LogFollower

open FileSystem

namespace Engine

/-- The failures that come again when the engine goes on at a stage. -/
inductive Stalls (fs : FileSystem) (e : Engine) : Stage → Prop
  | unread {s : Session} {f : Fault} (hs : e.source = .opened s)
      (h : fs.read s.object s.position chunkSize = .error f) : Stalls fs e (.read .catchUp)
  | unseen {s : Session} {error : TailError} (hs : e.source = .opened s)
      (h : fs.read s.object s.position chunkSize = .ok []) (hf : e.config.follow = true)
      (hc : classify (fs.look e.path) s.identifier e.splitter.consumed = .error error) :
      Stalls fs e (.read .catchUp)
  | unfound {f : Fault} (h : fs.find e.path = .error f) (hf : f.notFound = false) :
      Stalls fs e .arm
  | unopened {n : Nat} {f : Fault} (hn : fs.find e.path = .ok n)
      (h : fs.openFile e.path = .error f) (hf : f.notFound = false) : Stalls fs e .arm

/-- The rests that an engine comes back to. -/
inductive Rests (fs : FileSystem) (e : Engine) : Prop
  | ended (hp : e.phase = .ended)
  | same {due : Nat} {s : Session} (hp : e.phase = .asleep due true .clear)
      (hs : e.source = .opened s)
      (hc : classify (fs.look e.path) s.identifier e.splitter.consumed = .ok .none)
  | missing {due : Nat} {f : Fault} (hp : e.phase = .asleep due true .look)
      (h : fs.find e.path = .error f) (hf : f.notFound = true)
  | failing {due : Nat} {next : Stage} (hp : e.phase = .asleep due false next)
      (h : Stalls fs e next)

/-- The engine follows, and a look at the path finds something or there is nothing to read. -/
def Sees (fs : FileSystem) (e : Engine) : Prop :=
  e.config.follow = true ∧ ((∃ n, fs.find e.path = .ok n) ∨
    ∀ s, e.source = .opened s → fs.read s.object s.position chunkSize = .ok [])

/-- An engine on its way to a rest that it will come back to. -/
structure Poised (fs : FileSystem) (e : Engine) : Prop where
  file : ∀ s, e.source = .opened s → fs.kind? s.object = some .regular ∨
    fs.kind? s.object = some .directory ∧
      ∀ stage, e.phase.stage? = some stage → stage = .read .catchUp
  sees : ∀ stage, e.phase.stage? = some stage → stage = .clear ∨ stage = .check → Sees fs e
  /-- Lines of text come of reading and of the end of a file. -/
  plain : ∀ lines next, e.phase = .handing lines false next → next ≠ .clear ∧ next ≠ .check
  failing : ∀ lines next, e.phase = .handing lines true next → Stalls fs e next
  rests : ∀ due watching next, e.phase = .asleep due watching next → Rests fs e

section Poised

open Tailer

variable {fs : FileSystem} {now : Nat} {t t' : Tailer} {e : Engine}

theorem poised_ready {stage : Stage} (hp : e.phase = .ready stage)
    (hfile : ∀ s, e.source = .opened s → fs.kind? s.object = some .regular ∨
      fs.kind? s.object = some .directory ∧
        ∀ stage, e.phase.stage? = some stage → stage = .read .catchUp)
    (hsees : stage = .clear ∨ stage = .check → Sees fs e) : Poised fs e where
  file := hfile
  sees := by
    intro stage' hstage hwhich
    rw [hp] at hstage
    exact hsees (Option.some.inj hstage ▸ hwhich)
  plain := by rw [hp]; exact nofun
  failing := by rw [hp]; exact nofun
  rests := by rw [hp]; exact nofun

theorem poised_handing {lines : List Line} {rest : Bool} {next : Stage}
    (hp : e.phase = .handing lines rest next)
    (hfile : ∀ s, e.source = .opened s → fs.kind? s.object = some .regular ∨
      fs.kind? s.object = some .directory ∧
        ∀ stage, e.phase.stage? = some stage → stage = .read .catchUp)
    (hplain : next ≠ .clear ∧ next ≠ .check) (hfails : rest = true → Stalls fs e next) :
    Poised fs e where
  file := hfile
  sees := by
    intro stage hstage hwhich
    rw [hp] at hstage
    obtain rfl := Option.some.inj hstage
    exact (hwhich.elim hplain.1 hplain.2).elim
  plain := by
    intro lines' next' hp'
    obtain ⟨-, -, rfl⟩ := Phase.handing.inj (hp.symm.trans hp')
    exact hplain
  failing := by
    intro lines' next' hp'
    obtain ⟨-, rfl, rfl⟩ := Phase.handing.inj (hp.symm.trans hp')
    exact hfails rfl
  rests := by rw [hp]; exact nofun

theorem Stalls.congr {e' : Engine} {next : Stage} (h : Stalls fs e next)
    (hpath : e'.path = e.path) (hsource : e'.source = e.source)
    (hfollow : e'.config.follow = e.config.follow)
    (hconsumed : e'.splitter.consumed = e.splitter.consumed) : Stalls fs e' next := by
  cases h with
  | unread hs h => exact .unread (hsource.trans hs) h
  | unseen hs h hf hc =>
    exact .unseen (hsource.trans hs) h (hfollow.trans hf) (by rw [hpath, hconsumed]; exact hc)
  | unfound h hf => exact .unfound (by rw [hpath]; exact h) hf
  | unopened hn h hf => exact .unopened (by rw [hpath]; exact hn) (by rw [hpath]; exact h) hf

theorem Stalls.plain {next : Stage} (h : Stalls fs e next) : next ≠ .clear ∧ next ≠ .check := by
  cases h <;> exact ⟨nofun, nofun⟩

theorem Poised.plain_handing (h : Poised fs e) {lines : List Line} {rest : Bool} {next : Stage}
    (hp : e.phase = .handing lines rest next) : next ≠ .clear ∧ next ≠ .check := by
  cases rest with
  | false => exact h.plain lines next hp
  | true => exact (h.failing lines next hp).plain

theorem Poised.stalls (h : Poised fs t.engine) {stage next : Stage}
    {error : TailError} (hw : t.Works stage) (he : Fails fs t.engine stage error next) :
    Stalls fs t.engine next := by
  cases he with
  | look hf hn => exact .unfound hf hn
  | reopen ho hn =>
    cases hf : fs.find t.engine.path with
    | ok n => exact .unopened hf ho hn
    | error f =>
      unfold openFile at ho
      simp only [hf] at ho
      cases ho
      exact .unfound hf hn
  | @read s goal f hsrc hr =>
    cases goal with
    | catchUp => exact .unread hsrc hr
    | drain =>
      obtain hreg | ⟨-, hstage⟩ := h.file s hsrc
      · obtain ⟨bytes, hb⟩ := kind?_regular_iff.1 hreg
        rw [read_regular hb] at hr
        cases hr
      · cases hstage _ hw.stage_eq
  | @check s error hsrc hc =>
    obtain ⟨hfollow, ⟨n, hn⟩ | hnothing⟩ := h.sees _ hw.stage_eq (.inr rfl)
    · rw [classify_look, hn] at hc
      simp only at hc
      split_ifs at hc
    · exact .unseen hsrc (hnothing s hsrc) hfollow hc

theorem Poised.sees_of_passes (h : Poised fs t.engine) {stage next : Stage} {watcher : Watcher}
    (hw : t.Works stage) (hp : Passes fs t.engine stage next watcher)
    (hnext : next = .clear ∨ next = .check) : Sees fs t.engine := by
  cases hp with
  | @caughtUp s hs hr hf =>
    refine ⟨hf, .inr fun s' hs' => ?_⟩
    obtain rfl := Source.opened.inj (hs.symm.trans hs')
    exact hr
  | clear => exact h.sees _ hw.stage_eq (.inl rfl)
  | _ => rcases hnext with hnext | hnext <;> cases hnext

/-- A step leaves an engine poised. -/
theorem Poised.turn (h : Poised fs t.engine) (hs : t.Sound) (on : t.On)
    (ht : Turn fs now t t') : Poised fs t'.engine := by
  have hfile := ht.file hs.fits h.file
  cases ht with
  | idle => exact h
  | quit hq => rcases hq with hq | hq <;> simp [on.1, on.2] at hq
  | hand hp =>
    refine poised_handing rfl hfile (h.plain_handing hp) fun hr => ?_
    subst hr
    exact (h.failing _ _ hp).congr rfl rfl rfl rfl
  | @rest next hp =>
    have hstalls := h.failing _ _ hp
    have hplain := hstalls.plain
    refine ⟨hfile, fun stage hstage hwhich => ?_, nofun, nofun, fun _ _ _ _ => ?_⟩
    · obtain rfl := Option.some.inj hstage
      exact (hwhich.elim hplain.1 hplain.2).elim
    · exact .failing rfl (hstalls.congr rfl rfl rfl rfl)
  | resume hp =>
    have hplain := h.plain_handing hp
    exact poised_ready rfl hfile fun hwhich => (hwhich.elim hplain.1 hplain.2).elim
  | wake hp => exact poised_ready rfl hfile (h.sees _ (by rw [hp]; rfl))
  | pass hw hp => exact poised_ready rfl hfile (h.sees_of_passes hw hp)
  | fail hw he =>
    have hstalls := h.stalls hw he
    exact poised_handing rfl hfile hstalls.plain fun _ => hstalls.congr rfl rfl rfl rfl
  | wait hw hp =>
    cases hp with
    | missing hf hn =>
      refine ⟨hfile, fun stage hstage hwhich => ?_, nofun, nofun, fun _ _ _ _ => .missing rfl hf hn⟩
      obtain rfl := Option.some.inj hstage
      rcases hwhich with hwhich | hwhich <;> cases hwhich
    | same hsrc hc =>
      exact ⟨hfile, fun stage hstage hwhich => h.sees _ hw.stage_eq (.inr rfl), nofun, nofun,
        fun _ _ _ _ => .same rfl hsrc hc⟩
  | «open» | rewind | leave => exact poised_ready rfl hfile nofun
  | read => exact poised_handing rfl hfile ⟨nofun, nofun⟩ nofun
  | flush | last => exact poised_handing rfl hfile ⟨nofun, nofun⟩ nofun
  | finish => exact ⟨hfile, nofun, nofun, nofun, nofun⟩

end Poised

/-! ## The way to a rest -/

def Resting (e : Engine) : Prop :=
  e.phase = .ended ∨ ∃ due watching next, e.phase = .asleep due watching next

/-- What an engine stops for besides its rest. -/
inductive Halt
  | never
  /-- A line for which there is no room behind others. -/
  | full (capacity : Nat)
  /-- Lines of text, or none where there could be some. -/
  | text

/-- Whether an engine that has given out some lines stops in a phase. -/
def Halt.Holds (phase : Phase) (given : List Line) : Halt → Prop
  | .never => False
  | .full capacity =>
    (∃ line lines rest next, phase = .handing (line :: lines) rest next) ∧ capacity ≤ given.length
  | .text => ∃ lines next, phase = .handing lines false next

/-- The engine rests, or something else makes it stop. -/
def Stops (halt : Halt) (e : Engine) (given : List Line) : Prop :=
  e.Resting ∨ halt.Holds e.phase given

theorem Stops.resting {e : Engine} {given : List Line} (h : e.Stops .never given) : e.Resting :=
  h.resolve_right id

theorem Halt.not_ready (halt : Halt) (stage : Stage) (given : List Line) :
    ¬ halt.Holds (.ready stage) given := by
  cases halt with
  | never => exact id
  | full capacity => rintro ⟨⟨line, lines, rest, next, hp⟩, -⟩; cases hp
  | text => rintro ⟨lines, next, hp⟩; cases hp

theorem Halt.not_reported (halt : Halt) (next : Stage) (given : List Line) :
    ¬ halt.Holds (.handing [] true next) given := by
  cases halt with
  | never => exact id
  | full capacity => rintro ⟨⟨line, lines, rest, next, hp⟩, -⟩; cases hp
  | text => rintro ⟨lines, next, hp⟩; cases hp

/-- An engine comes to a stop, and gives out lines on its way behind some others. -/
inductive Comes (fs : FileSystem) (halt : Halt) :
    Engine → List Line → Engine → List Line → Prop
  | stop {e : Engine} {given : List Line} (h : e.Stops halt given) : Comes fs halt e given e given
  | beat {e r : Engine} {given all : List Line} (h : ¬ e.Stops halt given)
      (h' : Comes fs halt (e.beat fs) (given ++ e.gives) r all) : Comes fs halt e given r all

section Comes

variable {fs : FileSystem} {halt halt' : Halt} {e r : Engine} {given all : List Line}

theorem Comes.stops (h : Comes fs halt e given r all) : r.Stops halt all := by
  induction h with
  | stop hs => exact hs
  | beat _ _ ih => exact ih

theorem Comes.keeps {P : Engine → Prop} (h : Comes fs halt e given r all)
    (hP : ∀ e, P e → P (e.beat fs)) (he : P e) : P r := by
  induction h with
  | stop => exact he
  | beat _ _ ih => exact ih (hP _ he)

theorem Comes.grows (h : Comes fs halt e given r all) : given <+: all := by
  induction h with
  | stop => exact List.prefix_rfl
  | beat _ _ ih => exact (List.prefix_append _ _).trans ih

/-- Where there is always room, the lines before do not matter. -/
theorem Comes.behind (h : Comes fs .never e given r all) :
    ∃ more, all = given ++ more ∧ ∀ given', Comes fs .never e given' r (given' ++ more) := by
  have stops_iff {e : Engine} (given given' : List Line) (hs : e.Stops .never given) :
      e.Stops .never given' := .inl hs.resting
  induction h with
  | @stop e given hs =>
    refine ⟨[], (List.append_nil _).symm, fun given' => ?_⟩
    rw [List.append_nil]
    exact .stop (stops_iff given given' hs)
  | @beat e r given all hb _ ih =>
    obtain ⟨more, rfl, hmore⟩ := ih
    refine ⟨e.gives ++ more, List.append_assoc _ _ _, fun given' => ?_⟩
    rw [← List.append_assoc]
    exact .beat (fun hs => hb (stops_iff given' given hs)) (hmore _)

/-- What stops for nothing on its way to a rest comes there, if less makes it stop. -/
theorem Comes.weaken (h : Comes fs halt e given r all) (hr : r.Resting)
    (hle : ∀ phase given, halt'.Holds phase given → halt.Holds phase given) :
    Comes fs halt' e given r all := by
  induction h with
  | stop => exact .stop (.inl hr)
  | beat hs _ ih => exact .beat (fun hs' => hs (hs'.imp_right (hle _ _))) (ih hr)

theorem Comes.tail (h : Comes fs halt e given r all) (hs : ¬ e.Stops halt given) :
    Comes fs halt (e.beat fs) (given ++ e.gives) r all := by
  cases h with
  | stop hs' => exact absurd hs' hs
  | beat _ h' => exact h'

theorem Comes.eq_of_stops (h : Comes fs halt e given r all) (hs : e.Stops halt given) :
    r = e ∧ all = given := by
  cases h with
  | stop => exact ⟨rfl, rfl⟩
  | beat hs' => exact absurd hs hs'

theorem sound_alone {t : Tailer} (h : t.Sound) : t.engine.alone.Sound :=
  ⟨h.valid, h.fits, h.limit, h.identity, h.position, Nat.one_pos⟩

theorem sound_bare (h : e.alone.Sound) : e.bare.alone.Sound := by
  refine ⟨h.valid, fun stage hstage => h.fits stage ?_, h.limit, h.identity, h.position, h.capacity⟩
  show e.phase.stage? = some stage
  rw [← hstage]
  show _ = e.phase.timeless.stage?
  cases e.phase <;> rfl

theorem effort_bare (fs : FileSystem) (e : Engine) : e.bare.effort fs = e.effort fs := by
  unfold effort bare
  cases e.phase <;> rfl

/-- An engine comes to a stop. -/
theorem exists_comes (hs : e.alone.Sound) (hp : e.Persists) (halt : Halt)
    (given : List Line) : ∃ r all, Comes fs halt e given r all := by
  induction heffort : e.effort fs using Nat.strong_induction_on generalizing e given with
  | _ k ih =>
    by_cases hstops : e.Stops halt given
    · exact ⟨e, given, .stop hstops⟩
    · have hrest : ¬ e.Resting := fun h => hstops (.inl h)
      have ht := Tailer.turn_step hs.fits fs 0
      have hawake : ∀ due watching next, e.phase ≠ .asleep due watching next :=
        fun due watching next hphase => hrest (.inr ⟨due, watching, next, hphase⟩)
      obtain hb | hlt := ht.effort hs hp hawake
      · exfalso
        unfold Tailer.blocked alone at hb
        split at hb
        · next hphase => exact hrest (.inl hphase)
        · cases hb
        · cases hb
        · simp at hb
        · next hphase => exact hawake _ _ _ hphase
      · rw [← effort_bare] at hlt
        obtain ⟨r, all, hcomes⟩ := ih _ (heffort ▸ hlt)
          (sound_bare (sound_alone (hs.turn ht))) (ht.persists hp) (given ++ e.gives) rfl
        exact ⟨r, all, .beat hstops hcomes⟩

end Comes

end Engine

end LogFollower
