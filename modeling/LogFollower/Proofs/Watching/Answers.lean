import LogFollower.Proofs.Watching.Determined
import LogFollower.Proofs.Stopping

/-!
# The answers of a script are determined

Between two steps of a script a tailer is in one of three conditions. Over the regular file that it
was started on it stops just where it has to, with just the lines in the channel that there is room
for (`Exact`). After a change, or with no file to read, it gives out nothing but reports: it stands
at a rest when all lines were taken (`Stands`), and is about that rest otherwise (`Calm`). Each kind
of step returns the same text from the same condition, and leads to the same condition, so every run
of a script returns the same text (`determined`).
-/

namespace LogFollower

open FileSystem

namespace Tailer

open Engine

variable {fs fs' : FileSystem} {r x : Engine} {text out given : List Line}
  {n now now' later target capacity seconds : Nat} {t t' : Tailer} {steps : List Step}

/-! ## Conditions between two steps -/

/-- Where a tailer stands, and the text that can be taken from it. -/
structure Stands (x : Engine) (text : List Line) (now : Nat) (t : Tailer) : Prop where
  timely : Timely now t
  held : ∃ last, t.blocked last = true
  bare : t.engine.bare = x
  text : texts t.queue = text

/-- A tailer that stands where it has to, before a full channel or at a rest. -/
structure Exact (x : Engine) (given : List Line) (capacity now : Nat) (t : Tailer) : Prop where
  timely : Timely now t
  held : ∃ last, t.blocked last = true
  bare : t.engine.bare = x
  queue : t.queue = given
  room : t.capacity = capacity

/-- A tailer about its rest. It may be before a full channel with a report. -/
structure Calm (fs : FileSystem) (r : Engine) (now : Nat) (t : Tailer) : Prop where
  timely : Timely now t
  held : ∃ last, t.blocked last = true
  owes : ∃ out, Owes fs .text r [] out t

theorem Elapses.held (h : Elapses fs target now t t') : ∃ last, t'.blocked last = true := by
  induction h with
  | done hb => exact ⟨_, hb⟩
  | work _ _ ih => exact ih
  | notify _ _ ih => exact ih
  | wait _ _ _ _ _ ih => exact ih

theorem Exact.stands (h : Exact x given capacity now t) : Stands x (texts given) now t :=
  ⟨h.timely, h.held, h.bare, congrArg texts h.queue⟩

theorem Stands.calm (h : Stands r [] now t) (hr : Home fs r) : Calm fs r now t := by
  refine ⟨h.timely, h.held, [], t.queue, ?_, h.text⟩
  rw [h.bare]
  exact .stop (.inl hr.resting)

/-- Without a report that waits for room, a tailer about its rest is at its rest. -/
theorem Calm.stands (h : Calm fs r now t) (hr : Home fs r) (free : t.reporting = false) :
    Stands r [] now t := by
  obtain ⟨ht, ⟨last, hb⟩, out, all, hcomes, htext⟩ := h
  rcases stops_of_blocked ht.on hb with hrest | ⟨⟨line, lines, rest, next, hp⟩, -⟩
  · obtain ⟨rfl, rfl⟩ := hcomes.eq_of_stops (.inl hrest)
    rw [texts_append, List.append_eq_nil_iff] at htext
    exact ⟨ht, ⟨last, hb⟩, rfl, htext.2⟩
  · exfalso
    cases rest with
    | true =>
      unfold reporting at free
      rw [handing_of_bare hp] at free
      cases free
    | false =>
      obtain ⟨rfl, -⟩ := hcomes.eq_of_stops (.inr ⟨_, next, hp⟩)
      rcases hr.resting with hp' | ⟨due, watching, next', hp'⟩
      · cases hp.symm.trans hp'
      · cases hp.symm.trans hp'

/-! ## Coming to owe -/

theorem exists_owes (hf : Founded fs x) (hb : x.bare = x) (text : List Line) :
    ∃ r text', Home fs r ∧ ∀ given, texts given = text →
      ∃ all, Comes fs .never x given r all ∧ texts all = text' := by
  obtain ⟨r, all, hcomes⟩ := exists_comes hf.sound hf.persists .never []
  obtain ⟨more, -, hmore⟩ := hcomes.behind
  refine ⟨r, text ++ texts more, hcomes.home hf hb hcomes.stops.resting, ?_⟩
  intro given hgiven
  exact ⟨given ++ more, hmore given, by rw [texts_append, hgiven]⟩

/-- A change leaves the tailer owing, when it wakes or before that. -/
theorem exists_dormant (hf : Founded fs x) (hb : x.bare = x) (hp : x.Pauses)
    (he : Alters fs fs') (text : List Line) :
    ∃ r text', Home fs' r ∧ ∀ now t, Stands x text now t →
      Dormant fs' r text' (now + Watcher.recheck) t ∨ Owes fs' .never r text' [] t := by
  rcases hp with (hp | ⟨due, watching, next, hp⟩) | ⟨lines, next, hp⟩
  · obtain ⟨r, text', hr, howes⟩ := exists_owes (hf.altered he.keeps (.inl hp)) hb text
    refine ⟨r, text', hr, ?_⟩
    intro now t hs
    right
    unfold Owes
    rw [hs.bare]
    exact howes _ hs.text
  · have hzero : x.phase = .asleep 0 watching next := by
      rw [← hb]
      exact congrArg Phase.timeless hp
    obtain ⟨r, text', hr, howes⟩ := exists_owes (hf.altered_asleep he hzero) (bare_beat fs' x) text
    refine ⟨r, text', hr, ?_⟩
    intro now t hs
    left
    constructor
    · obtain ⟨due, hphase⟩ : ∃ due, t.engine.phase = .asleep due watching next :=
        asleep_of_bare (hs.bare ▸ hzero)
      refine ⟨due, watching, next, hphase, hs.timely.due due ?_⟩
      unfold wakeTime
      rw [hphase]
    · rw [hs.bare]
      exact howes _ hs.text
  · obtain ⟨r, text', hr, howes⟩ :=
      exists_owes (hf.altered he.keeps (.inr ⟨lines, next, hp⟩)) hb text
    refine ⟨r, text', hr, ?_⟩
    intro now t hs
    right
    unfold Owes
    rw [hs.bare]
    exact howes _ hs.text

theorem receive_none (t : Tailer) :
    t.receive none = (t.queue, t.ended || t.closed, { t with queue := [] }) := by
  unfold receive
  simp

/-- A drain brings what is owed, and leaves the tailer at its rest. -/
theorem Drains.pays {lines : List Line} (h : Drains fs now t lines now' t') (hr : Home fs r)
    (ht : Timely now t) (held : ∃ last, t.blocked last = true)
    (howes : Owes fs .never r text out t) :
    texts (out ++ lines) = text ∧ Stands r [] now' t' := by
  induction h generalizing out with
  | @last now t t' hlast he =>
    obtain ⟨last, hb⟩ := held
    obtain ⟨all, hcomes, htext⟩ := howes
    have hempty := ht.queue []
    rw [receive_none] at hlast he ⊢
    have hrest : t.engine.bare.Resting := by
      rcases hlast with hq | hend
      · exact resting_of_blocked ht hb hq
      · left
        have hended : t.ended = true := by simpa [ht.on.2] using hend
        exact congrArg Phase.timeless (of_decide_eq_true hended)
    obtain ⟨rfl, rfl⟩ := hcomes.eq_of_stops (.inl hrest)
    obtain ⟨hbare, htexts⟩ := he.rests hr hempty (idles_at_rest hr rfl rfl)
    exact ⟨htext, he.timely hempty (Nat.le_succ _), he.held, hbare, htexts⟩
  | @more now now' t t' t'' lines _ he _ ih =>
    have hqueue : Timely now (t.receive none).2.2 := ht.queue _
    rw [← List.append_assoc]
    exact ih (he.timely hqueue (Nat.le_succ _)) he.held
      (he.owes hr reports_never hqueue (howes.taken none))

/-! ## Step by step -/

/-- Every run of a script from a condition returns the same text, unless files are changed while a
report waits. -/
def Fixed (fs : FileSystem) (P : Nat → Tailer → Prop) (taken : Bool) (steps : List Step) : Prop :=
  ∃ text, ∀ now t answers, P now t → Runs true fs now t taken steps answers →
    answers.map texts = text

section Fixed

variable {P Q : Nat → Tailer → Prop} {taken : Bool}

theorem Fixed.done : Fixed fs P taken [] := by
  refine ⟨[], ?_⟩
  intro now t answers _ hruns
  cases hruns
  rfl

theorem Fixed.tick (h : Fixed fs Q false steps)
    (hQ : ∀ now t t', P now t → Elapses fs (now + seconds * 1000) now t t' →
      Q (now + seconds * 1000) t') : Fixed fs P taken (.tick seconds :: steps) := by
  obtain ⟨text, htext⟩ := h
  refine ⟨[] :: text, ?_⟩
  intro now t answers hP hruns
  cases hruns with
  | tick he rest => exact congrArg ([] :: ·) (htext _ _ _ (hQ _ _ _ hP he) rest)

theorem Fixed.receive {max : Option Nat} (h : Fixed fs Q false steps) (lines : List Line)
    (hQ : ∀ now t t', P now t → Elapses fs (now + 1) now (t.receive max).2.2 t' →
      texts (t.receive max).1 = lines ∧ Q (now + 1) t') :
    Fixed fs P taken (.receive max :: steps) := by
  obtain ⟨text, htext⟩ := h
  refine ⟨lines :: text, ?_⟩
  intro now t answers hP hruns
  cases hruns with
  | receive he rest =>
    obtain ⟨hlines, hQ'⟩ := hQ _ _ _ hP he
    rw [List.map_cons, hlines, htext _ _ _ hQ' rest]

theorem Fixed.drain (h : Fixed fs Q true steps) (lines : List Line)
    (hQ : ∀ now t given now' t', P now t → Drains fs now t given now' t' →
      texts given = lines ∧ Q now' t') : Fixed fs P taken (.drain :: steps) := by
  obtain ⟨text, htext⟩ := h
  refine ⟨lines :: text, ?_⟩
  intro now t answers hP hruns
  cases hruns with
  | drain hd rest =>
    obtain ⟨hlines, hQ'⟩ := hQ _ _ _ _ _ hP hd
    rw [List.map_cons, hlines, htext _ _ _ hQ' rest]

theorem Fixed.edit {change : Edit} (hseconds : 3 ≤ seconds) (hf : Founded fs x)
    (hb : x.bare = x) (hp : x.Pauses)
    (h : ∀ r, Home (fs.edit change) r → Fixed (fs.edit change) (Stands r []) true steps)
    (hx : ∀ now t, P now t → taken = true ∨ t.reporting = false → Stands x text now t) :
    Fixed fs P taken (.edit change :: (Step.poll seconds ++ steps)) := by
  obtain ⟨r, text', hr, hafter⟩ := exists_dormant hf hb hp (alters_edit fs change) text
  obtain ⟨texts', htexts'⟩ := h r hr
  refine ⟨[] :: [] :: text' :: texts', ?_⟩
  intro now t answers hP hruns
  cases hruns with
  | edit free hruns =>
    have hs := hx now t hP (free rfl)
    cases hruns with
    | @tick _ _ _ _ t₁ _ _ _ he hruns =>
      cases hruns with
      | drain hd hruns =>
        have hlt : now + Watcher.recheck < now + seconds * 1000 := by
          have : Watcher.recheck = 1000 := rfl
          omega
        have howes : Owes (fs.edit change) .never r text' [] t₁ := by
          rcases hafter now t hs with hdormant | howes
          · exact he.wakes hr hs.timely hdormant hlt
          · exact he.owes hr reports_never hs.timely howes
        obtain ⟨htext, hs'⟩ :=
          hd.pays hr (he.timely hs.timely (Nat.le_add_right _ _)) he.held howes
        rw [List.nil_append] at htext
        have hrest := htexts' _ _ _ hs' hruns
        rw [List.map_cons, List.map_cons, List.map_cons, htext, hrest]
        rfl

end Fixed

/-! ## From every condition -/

theorem Calm.elapses (h : Calm fs r now t) (hr : Home fs r) (hle : now ≤ target)
    (he : Elapses fs target now t t') : Calm fs r target t' := by
  obtain ⟨out, howes⟩ := h.owes
  exact ⟨he.timely h.timely hle, he.held, out, he.owes hr reports_text h.timely howes⟩

theorem Calm.receive (h : Calm fs r now t) (hr : Home fs r) (max : Option Nat)
    (he : Elapses fs (now + 1) now (t.receive max).2.2 t') :
    texts (t.receive max).1 = [] ∧ Calm fs r (now + 1) t' := by
  obtain ⟨out, all, hcomes, htext⟩ := h.owes
  have hall := t.queue_receive max
  have hqueue : Timely now (t.receive max).2.2 := h.timely.queue _
  constructor
  · obtain ⟨more, rfl⟩ := hcomes.grows
    rw [← hall] at htext
    simp only [texts_append, List.append_eq_nil_iff] at htext
    exact htext.1.2.1
  · have howes : Owes fs .text r [] (out ++ (t.receive max).1) (t.receive max).2.2 := by
      refine ⟨all, ?_, htext⟩
      rw [List.append_assoc, hall]
      exact hcomes
    exact ⟨he.timely hqueue (Nat.le_succ _), he.held, _,
      he.owes hr reports_text hqueue howes⟩

theorem Calm.drains (h : Calm fs r now t) (hr : Home fs r) {lines : List Line}
    (hd : Drains fs now t lines now' t') : texts lines = [] ∧ Stands r [] now' t' := by
  obtain ⟨out, all, hcomes, htext⟩ := h.owes
  have howes : Owes fs .never r [] out t :=
    ⟨all, hcomes.weaken hr.resting fun _ _ => False.elim, htext⟩
  obtain ⟨hlines, hs⟩ := hd.pays hr h.timely h.held howes
  rw [texts_append, List.append_eq_nil_iff] at hlines
  exact ⟨hlines.2, hs⟩

theorem Exact.elapses (h : Exact x given capacity now t) (hx : Plain fs n x) (hb : x.bare = x)
    (hs : x.Stops (.full capacity) given) (hle : now ≤ target) (he : Elapses fs target now t t') :
    Exact x given capacity target t' := by
  have hcomes : Comes fs (.full t.capacity) t.engine.bare t.queue x given := by
    rw [h.room, h.bare, h.queue]
    exact .stop hs
  obtain ⟨hbare, hqueue, hcapacity⟩ := he.stops h.timely hx hb hcomes
  exact ⟨he.timely h.timely hle, he.held, hbare, hqueue, hcapacity.trans h.room⟩

theorem Exact.receive {x' : Engine} {given' : List Line} (h : Exact x given capacity now t)
    (max : Option Nat) (hx : Plain fs n x') (hb : x'.bare = x')
    (hcomes : Comes fs (.full capacity) x (given.drop (max.getD (given.length + 1))) x' given')
    (he : Elapses fs (now + 1) now (t.receive max).2.2 t') :
    (t.receive max).1 = given.take (max.getD (given.length + 1)) ∧
      Exact x' given' capacity (now + 1) t' := by
  obtain ⟨ht, -, rfl, rfl, rfl⟩ := h
  have hqueue : Timely now (t.receive max).2.2 := ht.queue _
  obtain ⟨hbare, hgiven, hcapacity⟩ := he.stops hqueue hx hb hcomes
  exact ⟨rfl, he.timely hqueue (Nat.le_succ _), he.held, hbare, hgiven, hcapacity⟩

/-- What every run of a script returns from the conditions that a tailer can be in. -/
structure Determined (steps : List Step) : Prop where
  rest : ∀ fs r, Home fs r → Fixed fs (Stands r []) true steps
  calm : ∀ fs r, Home fs r → Fixed fs (Calm fs r) false steps
  exact : ∀ fs n x given capacity taken, Plain fs n x → x.bare = x →
    x.Stops (.full capacity) given → Fixed fs (Exact x given capacity) taken steps

/-- Every run of a script returns the same text. -/
theorem determined (h : Polled steps) : Determined steps := by
  induction h with
  | done => exact ⟨fun _ _ _ => .done, fun _ _ _ => .done, fun _ _ _ _ _ _ _ _ _ => .done⟩
  | @edit seconds steps change hseconds _ ih =>
    constructor
    · intro fs r hr
      exact .edit hseconds hr.founded hr.bare (.inl hr.resting) (ih.rest _) fun now t hs _ => hs
    · intro fs r hr
      exact .edit hseconds hr.founded hr.bare (.inl hr.resting) (ih.rest _)
        fun now t hcalm free => hcalm.stands hr (free.resolve_left nofun)
    · intro fs n x given capacity taken hx hb hs
      exact .edit hseconds hx.founded hb (hx.pauses hs) (ih.rest _)
        fun now t hexact _ => hexact.stands
  | tick seconds _ ih =>
    constructor
    · intro fs r hr
      exact (ih.calm fs r hr).tick fun now t t' hs he =>
        (hs.calm hr).elapses hr (Nat.le_add_right _ _) he
    · intro fs r hr
      exact (ih.calm fs r hr).tick fun now t t' hcalm he =>
        hcalm.elapses hr (Nat.le_add_right _ _) he
    · intro fs n x given capacity taken hx hb hs
      exact (ih.exact fs n x given capacity false hx hb hs).tick fun now t t' hexact he =>
        hexact.elapses hx hb hs (Nat.le_add_right _ _) he
  | receive max _ ih =>
    constructor
    · intro fs r hr
      exact (ih.calm fs r hr).receive [] fun now t t' hs he => (hs.calm hr).receive hr max he
    · intro fs r hr
      exact (ih.calm fs r hr).receive [] fun now t t' hcalm he => hcalm.receive hr max he
    · intro fs n x given capacity taken hx hb hs
      obtain ⟨x', given', hcomes⟩ := exists_comes hx.founded.sound hx.founded.persists
        (.full capacity) (given.drop (max.getD (given.length + 1)))
      have hx' := hcomes.keeps (P := Plain fs n) (fun _ => Plain.beat) hx
      have hb' := hcomes.keeps (P := fun e => e.bare = e) (fun e _ => bare_beat fs e) hb
      refine (ih.exact fs n x' given' capacity false hx' hb' hcomes.stops).receive
        (texts (given.take (max.getD (given.length + 1)))) ?_
      intro now t t' hexact he
      obtain ⟨hlines, hexact'⟩ := hexact.receive max hx' hb' hcomes he
      exact ⟨congrArg texts hlines, hexact'⟩
  | drain _ ih =>
    constructor
    · intro fs r hr
      exact (ih.rest fs r hr).drain [] fun now t given now' t' hs hd => (hs.calm hr).drains hr hd
    · intro fs r hr
      exact (ih.rest fs r hr).drain [] fun now t given now' t' hcalm hd => hcalm.drains hr hd
    · intro fs n x given capacity taken hx hb hs
      obtain ⟨r, text, hr, howes⟩ := exists_owes hx.founded hb (texts given)
      refine (ih.rest fs r hr).drain text ?_
      intro now t lines now' t' hexact hd
      have howes' : Owes fs .never r text [] t := by
        unfold Owes
        rw [hexact.bare]
        exact howes _ (congrArg texts hexact.queue)
      exact hd.pays hr hexact.timely hexact.held howes'

/-! ## From the start on -/

section Start

variable {path : Path} {config : Config}

theorem bare_start {poll : Bool} (h : start fs path config = .ok t)
    (h' : start fs path { config with poll } = .ok t') :
    t'.engine.bare = t.engine.bare ∧ t'.capacity = t.capacity := by
  obtain ⟨-, ⟨n, offset, ho, hoff, rfl⟩ | ⟨f, ho, -, -, rfl⟩⟩ := start_cases h
  · obtain ⟨-, ⟨n', offset', ho', hoff', rfl⟩ | ⟨f, ho', -, -, rfl⟩⟩ := start_cases h'
    · cases ho.symm.trans ho'
      cases hoff.symm.trans hoff'
      exact ⟨rfl, rfl⟩
    · cases ho.symm.trans ho'
  · obtain ⟨-, ⟨n', offset', ho', -, rfl⟩ | ⟨f, ho', -, -, rfl⟩⟩ := start_cases h'
    · cases ho.symm.trans ho'
    · exact ⟨rfl, rfl⟩

theorem Elapses.exact (he : Elapses fs 1 0 t t') (ht : Timely 0 t) (hx : Plain fs n x)
    (hb : x.bare = x)
    (hcomes : Comes fs (.full t.capacity) t.engine.bare t.queue x given) :
    Exact x given t.capacity 1 t' := by
  obtain ⟨hbare, hqueue, hroom⟩ := he.stops ht hx hb hcomes
  exact ⟨he.timely ht (Nat.zero_le _), he.held, hbare, hqueue, hroom⟩

theorem exists_home (h : start fs path config = .ok t)
    (hno : ∀ n, fs.openFile path = .ok n → fs.kind? n ≠ some .regular) :
    ∃ r errors, Home fs r ∧ Comes fs .never t.engine.bare [] r errors ∧ texts errors = [] ∧
      errors.length ≤ 1 := by
  have hfounded := (founded_start h).bare
  have hbare := t.engine.bare_bare
  cases ho : fs.openFile path with
  | ok n =>
    have hdir := (kind?_of_openFile ho).resolve_left (hno n ho)
    obtain ⟨error, hcomes⟩ := comes_of_directory h ho hdir (reports_never [])
    exact ⟨_, _, hcomes.home hfounded hbare (.inr ⟨0, false, _, rfl⟩), hcomes, rfl, le_rfl⟩
  | error f =>
    have hf : f.notFound = true := by
      obtain ⟨-, ⟨n, offset, ho', -, -⟩ | ⟨f', ho', hf, -, -⟩⟩ := start_cases h
      · cases ho.symm.trans ho'
      · cases ho.symm.trans ho'
        exact hf
    have hcomes : Comes fs .never t.engine.bare [] _ _ := comes_of_missing h ho hf
    exact ⟨_, _, hcomes.home hfounded hbare (.inr ⟨0, true, .look, rfl⟩), hcomes, rfl,
      Nat.zero_le _⟩

/-- Whichever way a tailer watches, every run of a script returns the same text. -/
theorem exists_text (h : start fs path config = .ok t)
    (hpace : config.pollInterval = Watcher.recheck) (hpolled : Polled steps) :
    ∃ text, ∀ (poll : Bool) answers, Returned true fs path { config with poll } steps answers →
      answers.map texts = text := by
  have hqueue := (outer_start h).2
  by_cases hplain : ∃ n, fs.openFile path = .ok n ∧ fs.kind? n = some .regular
  · obtain ⟨n, ho, hreg⟩ := hplain
    have hstart := plain_start h ho hreg
    obtain ⟨x, given, hcomes⟩ := exists_comes hstart.founded.sound hstart.founded.persists
      (.full t.capacity) []
    have hx := hcomes.keeps (P := Plain fs n) (fun _ => Plain.beat) hstart
    have hb := hcomes.keeps (P := fun e => e.bare = e) (fun e _ => bare_beat fs e)
      t.engine.bare_bare
    obtain ⟨text, htext⟩ :=
      (determined hpolled).exact fs n x given t.capacity true hx hb hcomes.stops
    refine ⟨text, ?_⟩
    rintro poll answers ⟨u, u', hu, he, hruns⟩
    obtain ⟨hbare, hcapacity⟩ := bare_start h hu
    refine htext 1 u' answers ?_ hruns
    rw [← hcapacity] at hcomes ⊢
    refine he.exact (timely_start hu hpace 0) hx hb ?_
    rw [hbare, (outer_start hu).2]
    exact hcomes
  · have hno : ∀ n, fs.openFile path = .ok n → fs.kind? n ≠ some .regular :=
      fun n ho hreg => hplain ⟨n, ho, hreg⟩
    obtain ⟨r, errors, hr, hcomes, herrors, hone⟩ := exists_home h hno
    obtain ⟨text, htext⟩ := (determined hpolled).rest fs r hr
    refine ⟨text, ?_⟩
    rintro poll answers ⟨u, u', hu, he, hruns⟩
    refine htext 1 u' answers ?_ hruns
    have hu' := timely_start hu hpace 0
    have hidles : Idles fs r 0 u := by
      refine ⟨errors, ?_, herrors, hone, fun _ _ _ => .inl (outer_start hu).2⟩
      rw [(bare_start h hu).1, (outer_start hu).2]
      exact hcomes
    obtain ⟨hbare, hnone⟩ := he.rests hr hu' hidles
    exact ⟨he.timely hu' (Nat.zero_le _), he.held, hbare, hnone⟩

end Start

end Tailer

end LogFollower
