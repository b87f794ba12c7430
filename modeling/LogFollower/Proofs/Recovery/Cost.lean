import LogFollower.Proofs.Tailer.Kept

/-!
# What is left to do

`Tracks` is a tailer whose path leads to a regular file, and whose open file can be read. While the
files stay as they are, `weight` bounds the lines that are still to come from it, and `cost` the
steps to its next rest. No step brings the one up, and every step that is not idle brings the other
down (`Tracks.advance`), so a tailer that is let run comes to rest. A file that was read to its end
stays open (`Tracks.caught_turn`).

The stages are passed in the order of `rank`. A file that the path does not lead to is caught up
with, drained and left, and then the one at the path is opened; that one is only read.
-/

namespace LogFollower

open FileSystem

/-- How many more lines there can be, by what is open and the stage that reading is at, if the path
leads to an object. -/
def weight (fs : FileSystem) (n : Nat) : Source → Stage → Nat
  | .away _, _ => fs.length n
  | .opened s, .read .drain => fs.length s.object - s.position + (1 + fs.length n)
  | .opened _, .flush => 1 + fs.length n
  | .opened _, .leave => fs.length n
  | .opened s, _ =>
    (if s.position ≤ fs.length s.object then fs.length s.object - s.position
      else fs.length s.object) + if s.object = n then 0 else 1 + fs.length n

/-- The order of the stages. Those of catching up depend on whether there is more to read, nothing
more, or less than was read. -/
def rank (fs : FileSystem) (n : Nat) : Source → Stage → Nat
  | .away _, .reopen => 13
  | .away _, .look => 14
  | .away _, _ => 15
  | .opened _, .leave => 16
  | .opened _, .flush => 17
  | .opened _, .read .drain => 18
  | .opened s, .check =>
    (if s.position = fs.length s.object then 4
      else if s.position < fs.length s.object then 7 else 10) + if s.object = n then 0 else 20
  | .opened s, .clear =>
    (if s.position = fs.length s.object then 5
      else if s.position < fs.length s.object then 8 else 11) + if s.object = n then 0 else 20
  | .opened s, _ =>
    (if s.position ≤ fs.length s.object then 6 else 12) + if s.object = n then 0 else 20

def toil (fs : FileSystem) (n : Nat) (source : Source) (stage : Stage) : Nat :=
  3 * weight fs n source stage + rank fs n source stage

namespace Tailer

open Engine

variable {fs : FileSystem} {n now : Nat} {t t' : Tailer}

/-- How many steps there are to the next rest. -/
def cost (fs : FileSystem) (n now : Nat) (t : Tailer) : Nat :=
  match t.engine.phase with
  | .ready stage => toil fs n t.engine.source stage
  | .handing lines rest stage =>
    lines.length + 1 + if rest then 0 else toil fs n t.engine.source stage
  | .asleep due _ stage => if due ≤ now then 1 + toil fs n t.engine.source stage else 0
  | .ended => 0

/-- How many lines there can be, those in the channel included. -/
def prospect (fs : FileSystem) (n : Nat) (t : Tailer) : Nat :=
  t.queue.length +
    match t.engine.phase with
    | .ready stage => weight fs n t.engine.source stage
    | .handing lines _ stage => lines.length + weight fs n t.engine.source stage
    | .asleep _ _ stage => weight fs n t.engine.source stage
    | .ended => 0

/-- A tailer whose path leads to a regular file and whose open file can be read. -/
structure Tracks (fs : FileSystem) (n now : Nat) (t : Tailer) : Prop where
  kept : Kept fs now t
  running : t.Running
  follow : t.engine.config.follow = true
  reopen : t.engine.config.reopen = true
  find : fs.find t.engine.path = .ok n
  regular : fs.kind? n = some .regular
  readable : ∀ hd, t.engine.source = .opened hd → fs.kind? hd.object = some .regular

/-- The file at the path is open and was read to its end. -/
def Caught (fs : FileSystem) (n : Nat) (t : Tailer) : Prop :=
  ∃ hd stage, t.engine.source = .opened hd ∧ hd.object = n ∧ hd.position = fs.length n ∧
    t.engine.phase.stage? = some stage ∧ stage.attends = true

/-- The engine is up, and no error keeps it from going on at once. -/
def Fresh (t : Tailer) : Prop :=
  (∃ stage, t.engine.phase = .ready stage) ∨
    ∃ lines stage, t.engine.phase = .handing lines false stage

/-- What a step does to what is left to do. -/
structure Advance (fs : FileSystem) (n now : Nat) (t t' : Tailer) : Prop where
  cost : t.blocked now = true ∧ t' = t ∨ t'.cost fs n now < t.cost fs n now
  prospect : t'.prospect fs n ≤ t.prospect fs n
  fresh : t.Fresh → t'.Fresh ∨ t'.Caught fs n

theorem advance_up {next : Stage} (h' : t'.engine.phase = .ready next)
    (hc : toil fs n t'.engine.source next < t.cost fs n now)
    (hw : t'.queue.length + weight fs n t'.engine.source next ≤ t.prospect fs n) :
    Advance fs n now t t' where
  cost := by
    right
    unfold Tailer.cost
    rw [h']
    exact hc
  prospect := by
    unfold Tailer.prospect
    rw [h']
    exact hw
  fresh := fun _ => .inl (.inl ⟨next, h'⟩)

theorem advance_asleep {due : Nat} {watching : Bool} {next : Stage}
    (h' : t'.engine.phase = .asleep due watching next) (hdue : now < due)
    (hc : 0 < t.cost fs n now)
    (hw : t'.queue.length + weight fs n t'.engine.source next ≤ t.prospect fs n)
    (hf : t.Fresh → t'.Caught fs n) : Advance fs n now t t' where
  cost := by
    right
    unfold Tailer.cost
    rw [h']
    dsimp only
    rw [if_neg (Nat.not_le.2 hdue)]
    exact hc
  prospect := by
    unfold Tailer.prospect
    rw [h']
    exact hw
  fresh := fun h => .inr (hf h)

theorem advance_ready {stage next : Stage} (h : t.engine.phase = .ready stage)
    (h' : t'.engine.phase = .ready next) (hq : t'.queue = t.queue)
    (hw : weight fs n t'.engine.source next ≤ weight fs n t.engine.source stage)
    (hr : rank fs n t'.engine.source next < rank fs n t.engine.source stage) :
    Advance fs n now t t' := by
  refine advance_up h' ?_ ?_
  · unfold cost toil
    rw [h]
    dsimp only
    omega
  · unfold prospect
    rw [h, hq]
    exact Nat.add_le_add_left hw _

theorem advance_handing {stage next : Stage} {lines : List Line} (h : t.engine.phase = .ready stage)
    (h' : t'.engine.phase = .handing lines false next) (hq : t'.queue = t.queue)
    (hw : lines.length + weight fs n t'.engine.source next ≤ weight fs n t.engine.source stage)
    (hc : lines.length + 1 + toil fs n t'.engine.source next < toil fs n t.engine.source stage) :
    Advance fs n now t t' where
  cost := by
    right
    unfold cost
    rw [h, h']
    exact hc
  prospect := by
    unfold prospect
    rw [h, h', hq]
    exact Nat.add_le_add_left hw _
  fresh := fun _ => .inl (.inr ⟨lines, next, h'⟩)

theorem advance_hand {line : Line} {lines : List Line} {rest : Bool} {next : Stage}
    (h : t.engine.phase = .handing (line :: lines) rest next)
    (h' : t'.engine.phase = .handing lines rest next)
    (hs : t'.engine.source = t.engine.source) (hq : t'.queue = t.queue ++ [line]) :
    Advance fs n now t t' where
  cost := by
    right
    unfold Tailer.cost
    rw [h, h', hs]
    exact Nat.add_lt_add_right (Nat.lt_succ_self _) _
  prospect := by
    unfold Tailer.prospect
    rw [h, h', hs, hq]
    simp only [List.length_append, List.length_cons, List.length_nil]
    omega
  fresh := by
    rintro (⟨stage, hp⟩ | ⟨lines', stage, hp⟩)
    · rw [h] at hp; cases hp
    · rw [h] at hp
      cases hp
      exact .inl (.inr ⟨_, _, h'⟩)

theorem advance_rest {due : Nat} {watching : Bool} {next : Stage}
    (hp : t.engine.phase = .handing [] true next) (hdue : now < due) :
    Advance fs n now t (t.withPhase (.asleep due watching next)) := by
  refine advance_asleep rfl hdue ?_ ?_ ?_
  · unfold cost
    rw [hp]
    exact Nat.succ_pos _
  · unfold prospect
    rw [hp]
    simp only [withPhase, List.length_nil]
    omega
  · rintro (⟨stage, hp'⟩ | ⟨lines', stage, hp'⟩)
    · rw [hp] at hp'; cases hp'
    · rw [hp] at hp'; cases hp'

theorem advance_resume {next : Stage} (hp : t.engine.phase = .handing [] false next) :
    Advance fs n now t (t.withPhase (.ready next)) := by
  refine advance_up rfl ?_ ?_
  · unfold cost
    rw [hp]
    simp only [withPhase, List.length_nil, Bool.false_eq_true, if_false]
    omega
  · unfold prospect
    rw [hp]
    simp only [withPhase, List.length_nil]
    omega

theorem advance_wake {e : Engine} {due : Nat} {watching : Bool} {next : Stage}
    (hp : t.engine.phase = .asleep due watching next) (hdue : due ≤ now)
    (hs : e.source = t.engine.source) (hp' : e.phase = .ready next) :
    Advance fs n now t { t with engine := e } := by
  refine advance_up hp' ?_ ?_
  · unfold cost
    rw [hp, hs]
    simp only [if_pos hdue]
    omega
  · unfold prospect
    rw [hp, hs]

namespace Tracks

variable (ht : Tracks fs n now t)
include ht

theorem openFile_eq : fs.openFile t.engine.path = .ok n := by
  obtain ⟨bytes, hb⟩ := kind?_regular_iff.1 ht.regular
  exact openFile_of_bytes? ht.find hb

theorem read_eq {hd : Session} (hs : t.engine.source = .opened hd) :
    ∃ all : Bytes, all.length = fs.length hd.object ∧
      fs.read hd.object hd.position chunkSize = .ok ((all.drop hd.position).take chunkSize) := by
  obtain ⟨all, ha⟩ := kind?_regular_iff.1 (ht.readable hd hs)
  exact ⟨all, (length_of_bytes? ha).symm, read_regular ha _ _⟩

theorem length_of_read {hd : Session} {bytes : Bytes} (hs : t.engine.source = .opened hd)
    (hr : fs.read hd.object hd.position chunkSize = .ok bytes) :
    bytes.length ≤ fs.length hd.object - hd.position ∧
      (bytes = [] → fs.length hd.object ≤ hd.position) := by
  obtain ⟨all, hall, hread⟩ := ht.read_eq hs
  obtain rfl := Except.ok.inj (hr.symm.trans hread)
  rw [← hall]
  constructor
  · rw [List.length_take, List.length_drop]
    exact min_le_right _ _
  · intro hnil
    have hlen := congrArg List.length hnil
    rw [List.length_take, List.length_drop] at hlen
    have : 0 < chunkSize := by decide
    simp only [List.length_nil] at hlen
    omega

theorem classify_eq {hd : Session} (hs : t.engine.source = .opened hd) :
    classify (fs.look t.engine.path) hd.identifier t.engine.splitter.consumed =
      if hd.object = n then .ok (.ofLength (fs.length n) hd.position) else .ok .deleted := by
  rw [classify_look, ht.find, ht.kept.sound.identity hd hs, ← ht.kept.sound.position hd hs]
  dsimp only
  by_cases ho : hd.object = n
  · rw [if_pos ho, if_pos (by rw [ho])]
  · rw [if_neg ho, if_neg fun hi => ho (identify_inj hi).symm]

theorem not_fails {stage next : Stage} {error : TailError} :
    ¬ Fails fs t.engine stage error next := by
  intro hf
  cases hf with
  | look h => rw [ht.find] at h; cases h
  | reopen h => rw [ht.openFile_eq] at h; cases h
  | @read hd goal f hs h =>
    obtain ⟨all, -, hread⟩ := ht.read_eq hs
    rw [hread] at h
    cases h
  | @check hd error hs h =>
    rw [ht.classify_eq hs] at h
    split_ifs at h

theorem not_quit : ¬ (t.stopRequested = true ∨ t.closed = true) := by
  rw [ht.running.wanted, ht.running.listened]
  exact nofun

theorem not_finish : ¬ t.Works .finish :=
  fun hw => ht.kept.goes ht.follow ht.reopen hw.stage_eq

/-! ## Every step is paid for -/

/-- There is more to read, which was counted already. -/
theorem pass_grown {hd : Session} (hs : t.engine.source = .opened hd)
    (hc : classify (fs.look t.engine.path) hd.identifier t.engine.splitter.consumed =
      .ok .modified) :
    weight fs n (.opened hd) (.read .catchUp) ≤ weight fs n (.opened hd) .check ∧
      rank fs n (.opened hd) (.read .catchUp) < rank fs n (.opened hd) .check := by
  rw [ht.classify_eq hs] at hc
  split_ifs at hc with ho
  · have hlt := Change.ofLength_eq_modified (Except.ok.inj hc)
    simp only [weight, rank, ho]
    exact ⟨le_rfl, by split_ifs <;> omega⟩
  · cases hc

/-- What the file at the path can give was counted all along, so the drain adds nothing. -/
theorem pass_gone {hd : Session} (hs : t.engine.source = .opened hd)
    (hc : classify (fs.look t.engine.path) hd.identifier t.engine.splitter.consumed =
      .ok .deleted) :
    weight fs n (.opened hd) (.read .drain) ≤ weight fs n (.opened hd) .check ∧
      rank fs n (.opened hd) (.read .drain) < rank fs n (.opened hd) .check := by
  rw [ht.classify_eq hs] at hc
  split_ifs at hc with ho
  · exact absurd (Except.ok.inj hc) (Change.ofLength_ne_deleted _ _)
  · simp only [weight, rank, if_neg ho]
    exact ⟨by split_ifs <;> omega, by split_ifs <;> omega⟩

theorem pass {stage next : Stage} {watcher : Watcher} (hw : t.Works stage)
    (hp : Passes fs t.engine stage next watcher) :
    weight fs n t.engine.source next ≤ weight fs n t.engine.source stage ∧
      rank fs n t.engine.source next < rank fs n t.engine.source stage := by
  have hst := hw.stage_eq
  cases hp with
  | arm | found =>
    obtain ⟨p, hs⟩ := away_of_fits ht.kept.sound.fits hst rfl
    rw [hs]
    exact ⟨le_rfl, Nat.lt_succ_self _⟩
  | vanished h => rw [ht.openFile_eq] at h; cases h
  | @caughtUp hd hs h =>
    have hend := (ht.length_of_read hs h).2 rfl
    rw [hs]
    simp only [weight, rank]
    exact ⟨le_rfl, by split_ifs <;> omega⟩
  | @readOut hd goal hs h hf =>
    cases goal with
    | catchUp => exact absurd (ht.follow.symm.trans (hf rfl)) nofun
    | drain =>
      rw [hs]
      exact ⟨Nat.le_add_left _ _, Nat.lt_succ_self _⟩
  | clear =>
    obtain ⟨hd, hs⟩ := opened_of_fits ht.kept.sound.fits hst rfl
    rw [hs]
    simp only [weight, rank]
    exact ⟨le_rfl, by split_ifs <;> omega⟩
  | grown hs hc =>
    rw [hs]
    exact ht.pass_grown hs hc
  | gone hs hc =>
    rw [hs]
    exact ht.pass_gone hs hc
  | kept =>
    obtain ⟨hd, hs⟩ := opened_of_fits ht.kept.sound.fits hst rfl
    rw [hs]
    exact ⟨Nat.le_add_left _ _, Nat.lt_succ_self _⟩
  | done hd => exact absurd (ht.reopen.symm.trans (hd ht.follow).1) nofun

/-- What a read takes, and how many lines it can give. -/
theorem read {hd : Session} {goal : Goal} {bytes : Bytes} (hs : t.engine.source = .opened hd)
    (hr : fs.read hd.object hd.position chunkSize = .ok bytes) (hb : bytes ≠ []) :
    weight fs n (.opened { hd with position := hd.position + bytes.length }) (.read goal) +
        bytes.length = weight fs n (.opened hd) (.read goal) ∧
      rank fs n (.opened { hd with position := hd.position + bytes.length }) (.read goal) =
        rank fs n (.opened hd) (.read goal) := by
  have hlen := (ht.length_of_read hs hr).1
  have hpos := List.length_pos_iff.2 hb
  cases goal with
  | catchUp =>
    have hbefore : hd.position ≤ fs.length hd.object := by omega
    have hafter : hd.position + bytes.length ≤ fs.length hd.object := by omega
    simp only [weight, rank, if_pos hbefore, if_pos hafter]
    exact ⟨by omega, trivial⟩
  | drain =>
    simp only [weight, rank]
    exact ⟨by omega, trivial⟩

/-- Where the path leads to the open file and there is nothing to read, the file was read. -/
theorem advance_await {hd : Session} (hw : t.Works .check) (hs : t.engine.source = .opened hd)
    (hc : classify (fs.look t.engine.path) hd.identifier t.engine.splitter.consumed = .ok .none) :
    Advance fs n now t { t with engine := t.engine.await now .clear } := by
  rw [ht.classify_eq hs] at hc
  split_ifs at hc with ho
  · have hpos := Change.ofLength_eq_none (Except.ok.inj hc)
    have hwake := ht.kept.calm.interval_pos ht.kept.sound.pollInterval_pos
    refine advance_asleep rfl (Nat.lt_add_of_pos_right hwake) ?_ ?_
      fun _ => ⟨hd, .clear, hs, ho, hpos.symm, rfl, rfl⟩
    · unfold cost
      rw [hw.1, hs]
      simp only [toil, rank]
      split_ifs <;> omega
    · unfold prospect
      rw [hw.1]
      simp only [await, hs, weight, le_refl]
  · cases hc

theorem advance_open {e : Engine} {offset : Nat} (hw : t.Works .reopen)
    (hs : e.source = .opened ⟨n, FileSystem.identify n, offset⟩)
    (hp : e.phase = .ready (.read .catchUp)) : Advance fs n now t { t with engine := e } := by
  obtain ⟨p, hs₀⟩ := away_of_fits ht.kept.sound.fits hw.stage_eq rfl
  refine advance_ready hw.1 hp rfl ?_ ?_
  · rw [hs, hs₀]
    simp only [weight]
    split_ifs <;> omega
  · rw [hs, hs₀]
    simp only [rank]
    split_ifs <;> omega

theorem advance_rewind {e : Engine} {hd : Session} (hw : t.Works .check)
    (hs : t.engine.source = .opened hd)
    (hc : classify (fs.look t.engine.path) hd.identifier t.engine.splitter.consumed =
      .ok .truncated)
    (hs' : e.source = .opened { hd with position := 0 })
    (hp : e.phase = .ready (.read .catchUp)) : Advance fs n now t { t with engine := e } := by
  rw [ht.classify_eq hs] at hc
  split_ifs at hc with ho
  · have hlt := Change.ofLength_eq_truncated (Except.ok.inj hc)
    refine advance_ready hw.1 hp rfl ?_ ?_
    · rw [hs, hs']
      simp only [weight, ho]
      split_ifs <;> omega
    · rw [hs, hs']
      simp only [rank, ho]
      split_ifs <;> omega
  · cases hc

theorem advance_read {e : Engine} {hd : Session} {goal : Goal} {bytes : Bytes} {lines : List Line}
    (hw : t.Works (.read goal)) (hs : t.engine.source = .opened hd)
    (hr : fs.read hd.object hd.position chunkSize = .ok bytes) (hb : bytes ≠ [])
    (hl : lines.length ≤ bytes.length)
    (hs' : e.source = .opened { hd with position := hd.position + bytes.length })
    (hp : e.phase = .handing lines false (.read goal)) :
    Advance fs n now t { t with engine := e } := by
  obtain ⟨hweight, hrank⟩ := ht.read hs hr hb
  have hpos := List.length_pos_iff.2 hb
  refine advance_handing hw.1 hp rfl ?_ ?_
  · rw [hs, hs', ← hweight]
    omega
  · rw [hs, hs']
    simp only [toil]
    omega

/-- The unfinished line was counted for one. -/
theorem advance_flush {e : Engine} {line : Line} (hw : t.Works .flush)
    (hs : e.source = t.engine.source) (hp : e.phase = .handing [line] false .leave) :
    Advance fs n now t { t with engine := e } := by
  obtain ⟨hd, hs₀⟩ := opened_of_fits ht.kept.sound.fits hw.stage_eq rfl
  refine advance_handing hw.1 hp rfl ?_ ?_
  · rw [hs, hs₀]
    exact le_rfl
  · rw [hs, hs₀]
    simp only [toil, weight, rank, List.length_singleton]
    omega

theorem advance_leave {e : Engine} {previous : Option FileIdentifier} (hw : t.Works .leave)
    (hs : e.source = .away previous) (hp : e.phase = .ready .arm) :
    Advance fs n now t { t with engine := e } := by
  obtain ⟨hd, hs₀⟩ := opened_of_fits ht.kept.sound.fits hw.stage_eq rfl
  refine advance_ready hw.1 hp rfl ?_ ?_
  · rw [hs, hs₀]
    exact le_rfl
  · rw [hs, hs₀]
    exact Nat.lt_succ_self _

/-- A step brings the next rest nearer. -/
theorem advance (h : Turn fs now t t') : Advance fs n now t t' := by
  cases h with
  | idle h => exact ⟨.inl ⟨h, rfl⟩, le_rfl, .inl⟩
  | quit h => exact absurd h ht.not_quit
  | hand hp => exact advance_hand hp rfl rfl rfl
  | rest hp => exact advance_rest hp (Nat.lt_add_of_pos_right ht.kept.sound.pollInterval_pos)
  | resume hp => exact advance_resume hp
  | wake hp why =>
    obtain ⟨hdue, rfl⟩ | ⟨-, hwake⟩ := why
    · exact advance_wake hp hdue rfl rfl
    · rw [ht.running.calm] at hwake
      cases hwake
  | pass hw hp =>
    obtain ⟨hweight, hrank⟩ := ht.pass hw hp
    exact advance_ready hw.1 rfl rfl hweight hrank
  | fail hw he => exact absurd he ht.not_fails
  | wait hw hp =>
    cases hp with
    | missing h => rw [ht.find] at h; cases h
    | same hs hc => exact ht.advance_await hw hs hc
  | «open» hw ho =>
    obtain rfl := Except.ok.inj (ho.symm.trans ht.openFile_eq)
    exact ht.advance_open hw rfl rfl
  | rewind hw hs hc => exact ht.advance_rewind hw hs hc rfl rfl
  | read hw hs hr hb =>
    refine ht.advance_read hw hs hr hb ?_ rfl rfl
    rw [List.length_map]
    exact Splitter.length_push_le _ _
  | flush hw => exact ht.advance_flush hw rfl rfl
  | leave hw => exact ht.advance_leave hw rfl rfl
  | last hw hfo hre => exact absurd (ht.reopen.symm.trans hre) nofun
  | finish hw => exact absurd hw ht.not_finish

/-! ## What stays -/

theorem turn (h : Turn fs now t t') : Tracks fs n now t' where
  kept := ht.kept.turn h
  running := by
    refine ⟨?_, h.stopRequested_eq ▸ ht.running.wanted, h.closed_eq ▸ ht.running.listened,
      (h.calm ht.kept.calm).awaken_eq⟩
    cases h with
    | idle => exact ht.running.alive
    | quit h => exact absurd h ht.not_quit
    | finish hw => exact absurd hw ht.not_finish
    | _ => exact nofun
  follow := h.config_eq ▸ ht.follow
  reopen := h.config_eq ▸ ht.reopen
  find := h.path_eq ▸ ht.find
  regular := ht.regular
  readable := by
    intro hd' hs'
    cases hs : t.engine.source with
    | opened hd =>
      rw [h.object_eq ht.kept.sound.fits hs hs']
      exact ht.readable hd hs
    | away previous =>
      cases h with
      | «open» hw ho =>
        cases hs'
        rw [Except.ok.inj (ho.symm.trans ht.openFile_eq)]
        exact ht.regular
      | rewind _ hs₀ | read _ hs₀ => cases hs.symm.trans hs₀
      | leave => cases hs'
      | _ => cases hs.symm.trans hs'

theorem asleep_turn {due : Nat} {watching : Bool} {next : Stage}
    (hp : t.engine.phase = .asleep due watching next) (h : Turn fs now t t') :
    t' = t ∨ t'.Fresh := by
  have not_works {stage : Stage} (hw : t.Works stage) : False := by
    cases hp.symm.trans hw.1
  cases h with
  | idle => exact .inl rfl
  | quit h => exact absurd h ht.not_quit
  | hand hp' => cases hp.symm.trans hp'
  | rest hp' => cases hp.symm.trans hp'
  | resume => exact .inr (.inl ⟨_, rfl⟩)
  | wake => exact .inr (.inl ⟨_, rfl⟩)
  | pass hw | fail hw | wait hw | «open» hw | rewind hw | read hw | flush hw | leave hw | last hw
  | finish hw => exact (not_works hw).elim

theorem change_eq_none {hd : Session} {change : Change} (hs : t.engine.source = .opened hd)
    (ho : hd.object = n) (hpos : hd.position = fs.length n)
    (h : classify (fs.look t.engine.path) hd.identifier t.engine.splitter.consumed = .ok change) :
    change = .none := by
  rw [ht.classify_eq hs, if_pos ho, hpos] at h
  rw [← Except.ok.inj h]
  unfold Change.ofLength
  simp

/-- A file that was read to its end is looked at and waited for. -/
theorem caught_pass {hd : Session} {stage next : Stage} {watcher : Watcher}
    (hs : t.engine.source = .opened hd) (ho : hd.object = n) (hpos : hd.position = fs.length n)
    (hat : stage.attends = true) (hp : Passes fs t.engine stage next watcher) :
    next.attends = true := by
  have nothing_new {hd' : Session} {change : Change} (hs' : t.engine.source = .opened hd')
      (h : classify (fs.look t.engine.path) hd'.identifier t.engine.splitter.consumed =
        .ok change) : change = .none := by
    obtain rfl := Source.opened.inj (hs.symm.trans hs')
    exact ht.change_eq_none hs ho hpos h
  cases hp with
  | arm | found | vanished | kept | done => cases hat
  | caughtUp | clear => rfl
  | @readOut _ goal _ _ hf =>
    cases goal with
    | catchUp => exact absurd (ht.follow.symm.trans (hf rfl)) nofun
    | drain => cases hat
  | grown hs' h | gone hs' h => cases nothing_new hs' h

/-- A file that was read to its end stays open. -/
theorem caught_turn (h : Turn fs now t t') (hc : t.Caught fs n) : t'.Caught fs n := by
  obtain ⟨hd, stage, hs, ho, hpos, hst, hat⟩ := hc
  have at_stage {stage' : Stage} (hw : t.Works stage') : stage' = stage := by
    rw [hw.1] at hst
    exact Option.some.inj hst
  cases h with
  | idle => exact ⟨hd, stage, hs, ho, hpos, hst, hat⟩
  | quit h => exact absurd h ht.not_quit
  | hand hp | rest hp | resume hp | wake hp =>
    rw [hp] at hst
    exact ⟨hd, stage, hs, ho, hpos, hst, hat⟩
  | pass hw hp =>
    obtain rfl := at_stage hw
    exact ⟨hd, _, hs, ho, hpos, rfl, ht.caught_pass hs ho hpos hat hp⟩
  | fail hw he => exact absurd he ht.not_fails
  | wait hw hp =>
    obtain rfl := at_stage hw
    cases hp with
    | missing => cases hat
    | same => exact ⟨hd, .clear, hs, ho, hpos, rfl, rfl⟩
  | «open» hw => obtain rfl := at_stage hw; cases hat
  | rewind hw hs' h =>
    obtain rfl := Source.opened.inj (hs.symm.trans hs')
    cases ht.change_eq_none hs ho hpos h
  | read hw hs' hr hb =>
    obtain rfl := Source.opened.inj (hs.symm.trans hs')
    have hlen := (ht.length_of_read hs' hr).1
    have := List.length_pos_iff.2 hb
    rw [ho] at hlen
    omega
  | flush hw | leave hw | last hw | finish hw => obtain rfl := at_stage hw; cases hat

end Tracks

/-! ## Bounds -/

theorem weight_le (fs : FileSystem) (n : Nat) (source : Source) (stage : Stage) :
    weight fs n source stage ≤ 2 * fs.size + 1 := by
  have hn := fs.length_le_size n
  cases source with
  | away previous => simp only [weight]; omega
  | opened hd =>
    have hhd := fs.length_le_size hd.object
    cases stage with
    | read goal =>
      cases goal with
      | catchUp => simp only [weight]; split_ifs <;> omega
      | drain => simp only [weight]; omega
    | flush => simp only [weight]; omega
    | leave => simp only [weight]; omega
    | _ => simp only [weight]; split_ifs <;> omega

theorem rank_le (fs : FileSystem) (n : Nat) (source : Source) (stage : Stage) :
    rank fs n source stage ≤ 32 := by
  unfold rank
  split <;> (try split_ifs) <;> omega

theorem cost_le_patience (fs : FileSystem) (n now : Nat) (t : Tailer) :
    t.cost fs n now ≤ t.patience fs := by
  have htoil (stage : Stage) : toil fs n t.engine.source stage ≤ 6 * fs.size + 35 := by
    have hw := weight_le fs n t.engine.source stage
    have hr := rank_le fs n t.engine.source stage
    unfold toil
    omega
  unfold cost patience backlog
  cases t.engine.phase with
  | ready stage =>
    have := htoil stage
    dsimp only
    omega
  | handing lines rest stage =>
    have := htoil stage
    dsimp only
    split_ifs <;> omega
  | asleep due watching stage =>
    have := htoil stage
    dsimp only
    split_ifs <;> omega
  | ended => exact Nat.zero_le _

theorem prospect_le (fs : FileSystem) (n : Nat) (t : Tailer) :
    t.prospect fs n ≤ 2 * fs.size + 1 + (t.backlog + t.queue.length) := by
  unfold prospect backlog
  cases t.engine.phase with
  | ready stage =>
    have := weight_le fs n t.engine.source stage
    dsimp only
    omega
  | handing lines rest stage =>
    have := weight_le fs n t.engine.source stage
    dsimp only
    omega
  | asleep due watching stage =>
    have := weight_le fs n t.engine.source stage
    dsimp only
    omega
  | ended =>
    dsimp only
    omega

end Tailer
end LogFollower
