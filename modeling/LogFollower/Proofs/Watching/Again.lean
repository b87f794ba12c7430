import LogFollower.Proofs.Watching.Rest

/-!
# Coming back to a rest

An engine that wakes over files that have not changed comes back to its rest and gives out no text
(`Rests.again`). After a change of the files it comes to a new one: `Founded` is what it needs for
that, and no change takes it away from an engine that pauses (`Founded.altered`,
`Founded.altered_asleep`). A tailer has it when it starts: over a regular file it meets with no
failure (`plain_start`, `not_stalls`), and without one it gives out no text.
-/

namespace LogFollower

open FileSystem

namespace Engine

variable {fs : FileSystem} {halt : Halt} {e r : Engine} {given all : List Line}

theorem stage?_timeless (phase : Phase) : phase.timeless.stage? = phase.stage? := by
  cases phase <;> rfl

theorem Rests.bare (h : Rests fs e) : Rests fs e.bare := by
  cases h with
  | ended hp => exact .ended (congrArg Phase.timeless hp)
  | same hp hs hc => exact .same (congrArg Phase.timeless hp) hs hc
  | missing hp h hf => exact .missing (congrArg Phase.timeless hp) h hf
  | failing hp h => exact .failing (congrArg Phase.timeless hp) (h.congr rfl rfl rfl rfl)

theorem handing_of_bare {lines : List Line} {rest : Bool} {next : Stage}
    (hp : e.bare.phase = .handing lines rest next) : e.phase = .handing lines rest next := by
  have hp' : e.phase.timeless = .handing lines rest next := hp
  cases hphase : e.phase with
  | handing => rw [hphase] at hp'; exact hp'
  | _ => rw [hphase] at hp'; cases hp'

theorem asleep_of_bare {due : Nat} {watching : Bool} {next : Stage}
    (hp : e.bare.phase = .asleep due watching next) :
    ∃ due, e.phase = .asleep due watching next := by
  have hp' : e.phase.timeless = .asleep due watching next := hp
  cases hphase : e.phase with
  | asleep due' =>
    rw [hphase] at hp'
    cases hp'
    exact ⟨due', rfl⟩
  | _ => rw [hphase] at hp'; cases hp'

theorem Poised.bare (h : Poised fs e) : Poised fs e.bare := by
  have hstage : e.bare.phase.stage? = e.phase.stage? := stage?_timeless e.phase
  refine ⟨?_, ?_, ?_, ?_, ?_⟩
  · rw [hstage]
    exact h.file
  · rw [hstage]
    exact h.sees
  · exact fun lines next hp => h.plain lines next (handing_of_bare hp)
  · exact fun lines next hp => (h.failing lines next (handing_of_bare hp)).congr rfl rfl rfl rfl
  · intro due watching next hp
    obtain ⟨due', hp'⟩ := asleep_of_bare hp
    exact (h.rests _ _ _ hp').bare

/-- An engine that comes to a rest that it comes back to. -/
structure Founded (fs : FileSystem) (e : Engine) : Prop where
  sound : e.alone.Sound
  persists : e.Persists
  poised : Poised fs e

theorem Founded.bare (h : Founded fs e) : Founded fs e.bare :=
  ⟨sound_bare h.sound, h.persists, h.poised.bare⟩

theorem Founded.beat (h : Founded fs e) : Founded fs (e.beat fs) := by
  have ht := Tailer.turn_step h.sound.fits fs 0
  have hstep : Founded fs (e.alone.step fs 0).engine :=
    ⟨sound_alone (h.sound.turn ht), ht.persists h.persists, h.poised.turn h.sound e.on_alone ht⟩
  exact hstep.bare

theorem Founded.rests (h : Founded fs e) (hr : e.Resting) : Rests fs e := by
  obtain hp | ⟨due, watching, next, hp⟩ := hr
  · exact .ended hp
  · exact h.poised.rests _ _ _ hp

def inPhase (e : Engine) (phase : Phase) : Engine := { e with phase }.bare

theorem inPhase_self (hb : e.bare = e) : e.inPhase e.phase = e := hb

theorem Comes.ready {stage : Stage} {e' : Engine} (he : { e with phase := .ready stage }.work fs 0
    stage = e') (h : Comes fs halt e'.bare given r all) :
    Comes fs halt (e.inPhase (.ready stage)) given r all := by
  refine .beat ?_ ?_
  · rintro ((hp | ⟨due, watching, next, hp⟩) | hhalt)
    · cases hp
    · cases hp
    · exact halt.not_ready stage given hhalt
  · have hbeat : (e.inPhase (.ready stage)).beat fs = e'.bare := by
      rw [beat_ready rfl, ← he]
      exact bare_work fs 0 _ stage
    rw [hbeat]
    show Comes fs halt e'.bare (given ++ []) r all
    rwa [List.append_nil]

/-- The report of an error does not make the engine stop. -/
def Reports (halt : Halt) (given : List Line) : Prop :=
  ∀ error next, ¬ halt.Holds (.handing [error] true next) given

theorem reports_never (given : List Line) : Reports .never given := fun _ _ => id

theorem reports_text (given : List Line) : Reports .text given := by
  rintro error next ⟨lines, next', hp⟩
  cases hp

/-- An engine that reports an error rests then, if the report does not make it stop. -/
theorem Comes.report (e : Engine) (error : TailError) (next : Stage)
    (hreports : Reports halt given) :
    Comes fs halt (e.report error next).bare given (e.inPhase (.asleep 0 false next))
      (given ++ [e.errorLine error]) := by
  have hrest : Comes fs halt (e.inPhase (.handing [] true next)) (given ++ [e.errorLine error])
      (e.inPhase (.asleep 0 false next)) (given ++ [e.errorLine error]) := by
    refine .beat ?_ ?_
    · rintro ((hp | ⟨due, watching, next, hp⟩) | hhalt)
      · cases hp
      · cases hp
      · exact halt.not_reported next _ hhalt
    · rw [beat_rest rfl]
      show Comes fs halt (e.inPhase (.asleep 0 false next)) (_ ++ []) _ _
      rw [List.append_nil]
      exact .stop (.inl (.inr ⟨0, false, next, rfl⟩))
  refine .beat ?_ ?_
  · rintro ((hp | ⟨due, watching, next, hp⟩) | hhalt)
    · cases hp
    · cases hp
    · exact hreports _ _ hhalt
  · rw [beat_hand rfl]
    exact hrest

theorem read_of_error {s : Session} {goal : Goal} {f : Fault} (hs : e.source = .opened s)
    (hr : fs.read s.object s.position chunkSize = .error f) :
    e.read fs goal = e.report (.file f) goal.afterFailure := by
  unfold read
  rw [hs]
  simp only [hr]

theorem read_of_end {s : Session} {goal : Goal} (hs : e.source = .opened s)
    (hr : fs.read s.object s.position chunkSize = .ok []) : e.read fs goal = e.atEnd goal := by
  unfold read
  rw [hs]
  simp only [hr]

theorem check_of_error {s : Session} {error : TailError} (hs : e.source = .opened s)
    (hc : classify (fs.look e.path) s.identifier e.splitter.consumed = .error error) (now : Nat) :
    e.check fs now = e.report error (.read .catchUp) := by
  unfold check
  rw [hs]
  simp only [hc]

theorem check_of_none {s : Session} (hs : e.source = .opened s)
    (hc : classify (fs.look e.path) s.identifier e.splitter.consumed = .ok .none) (now : Nat) :
    e.check fs now = e.await now .clear := by
  unfold check
  rw [hs]
  simp only [hc]

theorem look_of_found {n : Nat} (h : fs.find e.path = .ok n) (now : Nat) :
    e.look fs now = { e with watcher := e.watcher.attach fs e.path, phase := .ready .reopen } := by
  unfold look stat
  rw [h]

theorem look_of_missing {f : Fault} (h : fs.find e.path = .error f) (hf : f.notFound = true)
    (now : Nat) : e.look fs now = e.await now .look := by
  unfold look stat
  rw [h]
  exact if_pos hf

theorem look_of_error {f : Fault} (h : fs.find e.path = .error f) (hf : f.notFound = false)
    (now : Nat) : e.look fs now = e.report (.file f) .arm := by
  unfold look stat
  rw [h]
  exact if_neg (by rw [hf]; exact nofun)

theorem reopen_of_error {f : Fault} (h : fs.openFile e.path = .error f) (hf : f.notFound = false) :
    e.reopen fs = e.report (.file f) .arm := by
  unfold reopen
  rw [h]
  exact if_neg (by rw [hf]; exact nofun)

/-- A failure comes again: the engine goes on, fails, reports and rests. -/
theorem Stalls.again {next : Stage} (h : Stalls fs e next) (hreports : Reports halt given) :
    ∃ error, Comes fs halt (e.inPhase (.ready next)) given (e.inPhase (.asleep 0 false next))
      (given ++ [e.errorLine error]) := by
  -- the stage that fails comes last; the stages before it lead there and give nothing out
  cases h with
  | @unread s f hs hr =>
    exact ⟨.file f, .ready (read_of_error hs hr) (.report e (.file f) _ hreports)⟩
  | @unseen s error hs hr hf hc =>
    have hclear : (e.goto (.read .catchUp)).read fs .catchUp = e.goto .clear := by
      rw [read_of_end (e := e.goto (.read .catchUp)) hs hr]
      exact congrArg e.goto (if_pos hf)
    exact ⟨error, .ready hclear (.ready rfl (.ready (check_of_error hs hc 0)
      (.report e error _ hreports)))⟩
  | @unfound f hfind hn =>
    exact ⟨.file f, .ready rfl (.ready (look_of_error hfind hn 0) (.report e (.file f) _ hreports))⟩
  | @unopened n f hfind ho hn =>
    exact ⟨.file f, .ready rfl (.ready (look_of_found hfind 0) (.ready (reopen_of_error ho hn)
      (.report e (.file f) _ hreports)))⟩

/-- An engine that wakes comes back to its rest. It gives nothing out on the way but the report
of a failure, and not that if it was waiting for a change. -/
theorem Rests.again {watching : Bool} {next : Stage} (h : Rests fs e) (hb : e.bare = e)
    (hp : e.phase = .asleep 0 watching next) (hreports : watching = true ∨ Reports halt given) :
    ∃ errors, Comes fs halt (e.beat fs) given e (given ++ errors) ∧ texts errors = [] ∧
      errors.length ≤ 1 ∧ (watching = true → errors = []) := by
  have hself : e.inPhase (.asleep 0 watching next) = e := hp ▸ inPhase_self hb
  have awaits {due : Nat} (hself : e.inPhase (.asleep 0 true next) = e) :
      Comes fs halt (e.inPhase (.asleep due true next)) given e (given ++ []) := by
    rw [List.append_nil]
    show Comes fs halt (e.inPhase (.asleep 0 true next)) given e given
    rw [hself]
    exact .stop (.inl (.inr ⟨0, watching, next, hp⟩))
  rw [beat_wake hp]
  cases h with
  | ended hp' => cases hp.symm.trans hp'
  | @same due s hp' hs hc =>
    obtain ⟨-, rfl, rfl⟩ := Phase.asleep.inj (hp.symm.trans hp')
    exact ⟨[], .ready rfl (.ready (check_of_none hs hc 0) (awaits hself)), rfl, Nat.zero_le _,
      fun _ => rfl⟩
  | @missing due f hp' hfind hf =>
    obtain ⟨-, rfl, rfl⟩ := Phase.asleep.inj (hp.symm.trans hp')
    exact ⟨[], .ready (look_of_missing hfind hf 0) (awaits hself), rfl, Nat.zero_le _, fun _ => rfl⟩
  | @failing due next' hp' hstalls =>
    obtain ⟨-, rfl, rfl⟩ := Phase.asleep.inj (hp.symm.trans hp')
    obtain ⟨error, hcomes⟩ := hstalls.again (hreports.resolve_left nofun)
    rw [hself] at hcomes
    exact ⟨[e.errorLine error], hcomes, rfl, le_rfl, nofun⟩

/-! ## After a change of the files -/

section Altered

variable {fs' : FileSystem} {x : Engine}

theorem Poised.file_altered (h : Poised fs x) (he : Keeps fs fs') :
    ∀ s, x.source = .opened s → fs'.kind? s.object = some .regular ∨
      fs'.kind? s.object = some .directory ∧
        ∀ stage, x.phase.stage? = some stage → stage = .read .catchUp :=
  fun s hs => (h.file s hs).imp (he _ _) (And.imp_left (he _ _))

theorem Founded.altered (h : Founded fs x) (he : Keeps fs fs')
    (hp : x.phase = .ended ∨ ∃ lines next, x.phase = .handing lines false next) :
    Founded fs' x := by
  refine ⟨h.sound, h.persists, ?_⟩
  have hfile := h.poised.file_altered he
  rcases hp with hp | ⟨lines, next, hp⟩
  · refine ⟨hfile, ?_, ?_, ?_, ?_⟩
    · rw [hp]
      exact nofun
    · rw [hp]
      exact nofun
    · rw [hp]
      exact nofun
    · intro due watching next hp'
      exact .ended hp
  · exact poised_handing hp hfile (h.poised.plain lines next hp) nofun

/-- An engine that has read its file to the end still sees: the change has moved no name, or has
written to no file. -/
theorem sees_altered {due : Nat} {s : Session} (h : Founded fs x) (he : Alters fs fs')
    (hs : x.source = .opened s)
    (hc : classify (fs.look x.path) s.identifier x.splitter.consumed = .ok .none)
    (hp : x.phase = .asleep due true .clear) : Sees fs' x := by
  have hposition : s.position = x.splitter.consumed := h.sound.position s hs
  rw [← hposition] at hc
  have hfollow : x.config.follow = true ∧ ((∃ n, fs.find x.path = .ok n) ∨
      ∀ s, x.source = .opened s → fs.read s.object s.position chunkSize = .ok []) :=
    h.poised.sees .clear (by rw [hp]; rfl) (.inl rfl)
  obtain ⟨hchange, -⟩ | ⟨hchange, hfind⟩ := classify_opened (h.sound.identity s hs) hc
  · cases hchange
  refine ⟨hfollow.1, ?_⟩
  rcases he.sameTree_or_leaves with htree | hleaves
  · left
    exact ⟨s.object, (find_congr htree x.path).trans hfind⟩
  · right
    intro s' hs'
    obtain rfl := Source.opened.inj (hs.symm.trans hs')
    have hend := Change.ofLength_eq_none hchange.symm
    obtain hreg | ⟨-, hstage⟩ := h.poised.file s hs
    · obtain ⟨bytes, hb⟩ := kind?_regular_iff.1 hreg
      rw [length_of_bytes? hb] at hend
      rw [read_regular (hleaves _ _ hb), ← hend, List.drop_length, List.take_nil]
    · cases hstage .clear (by rw [hp]; rfl)

/-- No change keeps an engine that sleeps from its next rest, once it wakes. -/
theorem Founded.altered_asleep {watching : Bool} {next : Stage} (h : Founded fs x)
    (he : Alters fs fs') (hp : x.phase = .asleep 0 watching next) : Founded fs' (x.beat fs') := by
  have hbeat : x.beat fs' = x.beat fs := (beat_wake hp).trans (beat_wake hp).symm
  have hfounded : Founded fs (x.beat fs) := h.beat
  have hfile := hfounded.poised.file_altered he.keeps
  refine hbeat ▸ ⟨hfounded.sound, hfounded.persists, ?_⟩
  rw [beat_wake hp] at hfile ⊢
  refine poised_ready rfl hfile ?_
  intro hwhich
  cases h.rests (.inr ⟨0, watching, next, hp⟩) with
  | ended hp' => cases hp.symm.trans hp'
  | same hp' hs hc =>
    obtain ⟨-, rfl, rfl⟩ := Phase.asleep.inj (hp.symm.trans hp')
    have hsees : Sees fs' x := sees_altered h he hs hc hp
    exact hsees
  | missing hp' =>
    obtain ⟨-, -, rfl⟩ := Phase.asleep.inj (hp.symm.trans hp')
    rcases hwhich with hwhich | hwhich <;> cases hwhich
  | failing hp' hstalls =>
    obtain ⟨-, -, rfl⟩ := Phase.asleep.inj (hp.symm.trans hp')
    exact (hwhich.elim hstalls.plain.1 hstalls.plain.2).elim

end Altered

/-! ## From the start on -/

section Launch

open Tailer

variable {path : Path} {config : Config} {t : Tailer} {n : Nat}

theorem founded_start (h : Tailer.start fs path config = .ok t) : Founded fs t.engine := by
  refine ⟨sound_alone (sound_start h), persists_start h, ?_⟩
  have hfile := (kept_start h 0).file
  obtain ⟨-, ⟨n, offset, -, -, rfl⟩ | ⟨f, -, -, -, rfl⟩⟩ := start_cases h
  · exact poised_ready rfl hfile nofun
  · exact poised_ready rfl hfile nofun

theorem not_stalls {next : Stage} (ho : fs.openFile e.path = .ok n)
    (hfile : ∀ s, e.source = .opened s → fs.kind? s.object = some .regular) :
    ¬ Stalls fs e next := by
  intro h
  cases h with
  | unread hs hr =>
    obtain ⟨bytes, hb⟩ := kind?_regular_iff.1 (hfile _ hs)
    rw [read_regular hb] at hr
    cases hr
  | unseen hs hr hf hc =>
    rw [classify_look, find_of_openFile ho] at hc
    simp only at hc
    split_ifs at hc
  | unfound hf => cases (find_of_openFile ho).symm.trans hf
  | unopened hn ho' => cases ho.symm.trans ho'

/-- An engine that follows a regular file at its path. -/
structure Plain (fs : FileSystem) (n : Nat) (e : Engine) : Prop where
  founded : Founded fs e
  opens : fs.openFile e.path = .ok n
  regular : fs.kind? n = some .regular
  file : ∀ s, e.source = .opened s → fs.kind? s.object = some .regular

theorem Plain.beat (h : Plain fs n e) : Plain fs n (e.beat fs) := by
  have ht := turn_step h.founded.sound.fits fs 0
  refine ⟨h.founded.beat, ?_, h.regular, ?_⟩
  · show fs.openFile (e.alone.step fs 0).engine.path = .ok n
    rw [ht.path_eq]
    exact h.opens
  · intro s hs
    obtain ⟨s', hs', hobject⟩ | ⟨ho, -⟩ := ht.open_cases h.founded.sound.fits hs
    · rw [hobject]
      exact h.file s' hs'
    · cases h.opens.symm.trans ho
      exact h.regular

/-- The engine rests, or waits for room for a line of text. -/
def Pauses (e : Engine) : Prop :=
  e.Resting ∨ ∃ lines next, e.phase = .handing lines false next

theorem Plain.pauses {capacity : Nat} (h : Plain fs n e)
    (hstops : e.Stops (.full capacity) given) : e.Pauses := by
  refine hstops.imp_right ?_
  rintro ⟨⟨line, lines, rest, next, hp⟩, -⟩
  cases rest with
  | false => exact ⟨_, next, hp⟩
  | true => exact (not_stalls h.opens h.file (h.founded.poised.failing _ _ hp)).elim

theorem plain_start (h : Tailer.start fs path config = .ok t) (ho : fs.openFile path = .ok n)
    (hreg : fs.kind? n = some .regular) : Plain fs n t.engine.bare := by
  refine ⟨(founded_start h).bare, ?_, hreg, ?_⟩
  · show fs.openFile t.engine.path = .ok n
    rw [engine_path_start h]
    exact ho
  · intro s hs
    have hs' : t.engine.source = .opened s := hs
    obtain ⟨-, ⟨n', offset, ho', -, rfl⟩ | ⟨f, ho', -, -, rfl⟩⟩ := start_cases h
    · cases ho.symm.trans ho'
      cases hs'
      exact hreg
    · cases hs'

theorem comes_of_directory (h : Tailer.start fs path config = .ok t)
    (ho : fs.openFile path = .ok n) (hdir : fs.kind? n = some .directory)
    (hreports : Reports halt []) : ∃ error, Comes fs halt t.engine.bare []
      (t.engine.inPhase (.asleep 0 false (.read .catchUp))) [t.engine.errorLine error] := by
  have hstart : t.engine.inPhase (.ready (.read .catchUp)) = t.engine.bare ∧
      ∃ s, t.engine.source = .opened s ∧ s.object = n := by
    obtain ⟨-, ⟨n', offset, ho', -, rfl⟩ | ⟨f, ho', -, -, rfl⟩⟩ := start_cases h
    · cases ho.symm.trans ho'
      exact ⟨rfl, _, rfl, rfl⟩
    · cases ho.symm.trans ho'
  obtain ⟨hphase, s, hs, rfl⟩ := hstart
  have hstalls : Stalls fs t.engine (.read .catchUp) := .unread hs (read_of_directory hdir)
  obtain ⟨error, hcomes⟩ := hstalls.again hreports
  rw [hphase] at hcomes
  exact ⟨error, hcomes⟩

theorem comes_of_missing {f : Fault} (h : Tailer.start fs path config = .ok t)
    (ho : fs.openFile path = .error f) (hf : f.notFound = true) :
    Comes fs halt t.engine.bare [] (t.engine.inPhase (.asleep 0 true .look)) [] := by
  have hmissing : ∃ f, fs.find path = .error f ∧ f.notFound = true := by
    have hfind := find_of_notFound ho hf
    cases hn : fs.find path with
    | ok n => rw [hn] at hfind; cases hfind
    | error f' =>
      unfold openFile at ho
      rw [hn] at ho
      cases ho
      exact ⟨f, rfl, hf⟩
  obtain ⟨f', hfind, hf'⟩ := hmissing
  have hpath := engine_path_start h
  have hphase : t.engine.inPhase (.ready .arm) = t.engine.bare := by
    obtain ⟨-, ⟨n, offset, ho', -, rfl⟩ | ⟨f, -, -, -, rfl⟩⟩ := start_cases h
    · cases ho.symm.trans ho'
    · rfl
  have hlook : Comes fs halt (t.engine.inPhase (.ready .look)) []
      (t.engine.inPhase (.asleep 0 true .look)) [] := by
    refine .ready (look_of_missing ?_ hf' 0) (.stop (.inl (.inr ⟨0, true, .look, rfl⟩)))
    show fs.find t.engine.path = .error f'
    rw [hpath]
    exact hfind
  rw [← hphase]
  exact .ready rfl hlook

end Launch

end Engine

end LogFollower
