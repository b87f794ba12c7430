import LogFollower.Proofs.Files
import LogFollower.Proofs.Tailer.Sound

/-!
# How far an engine is from its next rest

`Engine.effort` is a potential over files that stay as they are, whatever the path leads to: every
step brings it down that is not idle and does not wake the engine (`Tailer.Turn.effort`). It is made
of the bytes that are still to be read, `remains`, and of the order in which the stages are passed,
`depth`. A file that the path leads to is caught up with; any other is read to its end and left, and
then what the path leads to is opened and caught up with.

The potential is under the steps that a tailer is given to come to rest (`Tailer.effort_le`).
-/

namespace LogFollower

open FileSystem

namespace Engine

variable (fs : FileSystem) (e : Engine)

/-- The length of what the path leads to. -/
def ahead : Nat :=
  match fs.find e.path with
  | .ok n => fs.length n
  | .error _ => 0

/-- The engine stays with a file that it has open: it follows, and the path leads to the file. -/
def Stays (object : Nat) : Prop := e.config.follow = true ∧ fs.find e.path = .ok object

instance (object : Nat) : Decidable (Stays fs e object) := inferInstanceAs (Decidable (_ ∧ _))

/-- How many bytes are to be read from a stage on, until the next rest. The line that has no end
counts for one more. -/
def remains : Source → Stage → Nat
  | .away _, _ => e.ahead fs
  | .opened _, .finish => 0
  | .opened _, .leave => 1 + e.ahead fs
  | .opened _, .flush => 2 + e.ahead fs
  | .opened s, .read .drain => fs.length s.object - s.position + (2 + e.ahead fs)
  | .opened s, _ =>
    (if s.position ≤ fs.length s.object then fs.length s.object - s.position
      else fs.length s.object) + if Stays fs e s.object then 0 else 2 + e.ahead fs

/-- The order of the stages. Those of catching up depend on whether there is more to read, nothing
more, or less than was read. -/
def depth : Source → Stage → Nat
  | .away _, .reopen => if (fs.find e.path).toBool then 13 else 16
  | .away _, .look => 14
  | .away _, _ => 15
  | .opened _, .finish => 1
  | .opened _, .leave => 16
  | .opened _, .flush => 17
  | .opened _, .read .drain => 18
  | .opened s, .check =>
    (if s.position = fs.length s.object then 4
      else if s.position < fs.length s.object then 7 else 10) +
      if Stays fs e s.object then 0 else 20
  | .opened s, .clear =>
    (if s.position = fs.length s.object then 5
      else if s.position < fs.length s.object then 8 else 11) +
      if Stays fs e s.object then 0 else 20
  | .opened s, _ =>
    (if s.position ≤ fs.length s.object then 6 else 12) + if Stays fs e s.object then 0 else 20

/-- How many steps there are at most from a stage to the next rest. -/
def toil (stage : Stage) : Nat := 3 * e.remains fs e.source stage + e.depth fs e.source stage

/-- How many steps there are at most to the next rest. A rest itself counts for one. -/
def effort : Nat :=
  match e.phase with
  | .ready stage => e.toil fs stage
  | .handing lines rest stage => lines.length + 1 + if rest then 1 else e.toil fs stage
  | .asleep _ _ _ => 1
  | .ended => 0

/-- Without an open file the engine follows: it waits for the next one. -/
def Persists : Prop := e.source.isAway = true → e.config.follow = true

variable {fs e}

theorem effort_ready {stage : Stage} (h : e.phase = .ready stage) :
    e.effort fs = e.toil fs stage := by
  unfold effort
  rw [h]

theorem effort_handing {lines : List Line} {rest : Bool} {stage : Stage}
    (h : e.phase = .handing lines rest stage) :
    e.effort fs = lines.length + 1 + if rest then 1 else e.toil fs stage := by
  unfold effort
  rw [h]

/-! ## The way down -/

variable {stage next : Stage}

theorem find_of_notFound {p : Path} {f : Fault} (h : fs.openFile p = .error f)
    (hf : f.notFound = true) : (fs.find p).toBool = false := by
  unfold openFile at h
  cases hn : fs.find p with
  | error f => rfl
  | ok n =>
    simp only [hn] at h
    split at h
    · cases h
    · cases h
    · cases h
      cases hf

theorem le_position_of_read {s : Session}
    (h : fs.read s.object s.position chunkSize = .ok []) : fs.length s.object ≤ s.position := by
  obtain ⟨all, ha, hall⟩ := bytes?_of_read h
  have hlen := congrArg List.length hall
  rw [List.length_take, List.length_drop, List.length_nil] at hlen
  rw [length_of_bytes? ha]
  have : 0 < chunkSize := by decide
  omega

theorem classify_opened {s : Session} {change : Change}
    (hi : s.identifier = identify s.object)
    (hc : classify (fs.look e.path) s.identifier s.position = .ok change) :
    change = .deleted ∧ fs.find e.path ≠ .ok s.object ∨
      change = .ofLength (fs.length s.object) s.position ∧ fs.find e.path = .ok s.object := by
  rw [classify_look, hi] at hc
  cases hf : fs.find e.path with
  | error f =>
    simp only [hf] at hc
    split_ifs at hc
    exact .inl ⟨(Except.ok.inj hc).symm, nofun⟩
  | ok n =>
    simp only [hf] at hc
    split_ifs at hc with hn
    · obtain rfl := identify_inj hn
      exact .inr ⟨(Except.ok.inj hc).symm, rfl⟩
    · refine .inl ⟨(Except.ok.inj hc).symm, fun he => hn ?_⟩
      rw [Except.ok.inj he]

/-- Before a stage that can fail, wait or end there are some steps. -/
theorem three_lt_toil (hd : stage ≠ .finish) : 3 < e.toil fs stage := by
  unfold toil
  cases e.source with
  | away p =>
    cases stage with
    | reopen => simp only [depth]; split_ifs <;> omega
    | finish => exact absurd rfl hd
    | _ => simp only [depth]; omega
  | opened s =>
    cases stage with
    | finish => exact absurd rfl hd
    | read goal =>
      cases goal with
      | catchUp => simp only [depth]; split_ifs <;> omega
      | drain => simp only [depth]; omega
    | flush | leave => simp only [depth]; omega
    | _ => simp only [depth]; split_ifs <;> omega

theorem toil_pos (stage : Stage) : 0 < e.toil fs stage := by
  by_cases hd : stage = .finish
  · subst hd
    unfold toil
    cases e.source <;> exact Nat.succ_pos _
  · exact Nat.zero_lt_of_lt (three_lt_toil hd)

end Engine

namespace Tailer

open Engine

variable {fs : FileSystem} {now : Nat} {t t' : Tailer} {stage next : Stage}

/-! ### From stage to stage -/

theorem toil_caughtUp {s : Session} (hsrc : t.engine.source = .opened s)
    (h : fs.read s.object s.position chunkSize = .ok []) :
    t.engine.toil fs .clear < t.engine.toil fs (.read .catchUp) := by
  have hend := le_position_of_read h
  unfold toil
  rw [hsrc]
  simp only [remains, depth]
  split_ifs <;> omega

theorem toil_readOut {s : Session} {goal : Goal} (hsrc : t.engine.source = .opened s)
    (hf : goal = .catchUp → t.engine.config.follow = false) :
    t.engine.toil fs .flush < t.engine.toil fs (.read goal) := by
  unfold toil
  rw [hsrc]
  cases goal with
  | drain =>
    simp only [remains, depth]
    omega
  | catchUp =>
    have hgo : ¬ Stays fs t.engine s.object := by
      intro hstay
      exact absurd ((hf rfl).symm.trans hstay.1) nofun
    simp only [remains, depth, if_neg hgo]
    split_ifs <;> omega

theorem toil_grown (hs : t.Sound) {s : Session} (hsrc : t.engine.source = .opened s)
    (h : classify (fs.look t.engine.path) s.identifier t.engine.splitter.consumed =
      .ok .modified) :
    t.engine.toil fs (.read .catchUp) < t.engine.toil fs .check := by
  rw [← hs.position s hsrc] at h
  obtain ⟨hc, -⟩ | ⟨hc, -⟩ := classify_opened (hs.identity s hsrc) h
  · cases hc
  · have hlt := Change.ofLength_eq_modified hc.symm
    unfold toil
    rw [hsrc]
    simp only [remains, depth]
    split_ifs <;> omega

theorem toil_gone (hs : t.Sound) {s : Session} (hsrc : t.engine.source = .opened s)
    (h : classify (fs.look t.engine.path) s.identifier t.engine.splitter.consumed =
      .ok .deleted) :
    t.engine.toil fs (.read .drain) < t.engine.toil fs .check := by
  rw [← hs.position s hsrc] at h
  obtain ⟨-, hne⟩ | ⟨hc, -⟩ := classify_opened (hs.identity s hsrc) h
  · -- what the path leads to was counted all along, so the drain adds nothing
    have hgo : ¬ Stays fs t.engine s.object := fun hstay => hne hstay.2
    unfold toil
    rw [hsrc]
    simp only [remains, depth, if_neg hgo]
    split_ifs <;> omega
  · exact absurd hc.symm (Change.ofLength_ne_deleted _ _)

theorem toil_passes (hs : t.Sound) (hw : t.Works stage) {watcher : Watcher}
    (hp : Passes fs t.engine stage next watcher) :
    t.engine.toil fs next < t.engine.toil fs stage := by
  have hst := hw.stage_eq
  cases hp with
  | arm =>
    obtain ⟨p, hsrc⟩ := away_of_fits hs.fits hst rfl
    unfold toil
    rw [hsrc]
    exact Nat.lt_succ_self _
  | found h =>
    obtain ⟨p, hsrc⟩ := away_of_fits hs.fits hst rfl
    unfold toil
    rw [hsrc]
    simp only [remains, depth, h, Except.toBool, if_true]
    omega
  | vanished h hf =>
    obtain ⟨p, hsrc⟩ := away_of_fits hs.fits hst rfl
    unfold toil
    rw [hsrc]
    simp only [remains, depth, find_of_notFound h hf, Bool.false_eq_true, if_false]
    omega
  | caughtUp hsrc h => exact toil_caughtUp hsrc h
  | readOut hsrc _ hf => exact toil_readOut hsrc hf
  | clear =>
    obtain ⟨s, hsrc⟩ := opened_of_fits hs.fits hst rfl
    unfold toil
    rw [hsrc]
    simp only [remains, depth]
    split_ifs <;> omega
  | grown hsrc h => exact toil_grown hs hsrc h
  | gone hsrc h => exact toil_gone hs hsrc h
  | kept | done =>
    obtain ⟨s, hsrc⟩ := opened_of_fits hs.fits hst rfl
    unfold toil
    rw [hsrc]
    simp only [remains, depth]
    omega

/-! ### Steps of their own -/

theorem toil_open (hs : t.Sound) (hf : t.engine.Persists)
    (hw : t.Works .reopen) {n offset : Nat} (ho : fs.openFile t.engine.path = .ok n) :
    3 * t.engine.remains fs (.opened ⟨n, identify n, offset⟩) (.read .catchUp) +
        t.engine.depth fs (.opened ⟨n, identify n, offset⟩) (.read .catchUp) <
      t.engine.toil fs .reopen := by
  have hn := find_of_openFile ho
  obtain ⟨p, hsrc⟩ := away_of_fits hs.fits hw.stage_eq rfl
  have hstay : Stays fs t.engine n := ⟨hf (by rw [hsrc]; rfl), hn⟩
  unfold toil
  rw [hsrc]
  simp only [remains, depth, if_pos hstay, ahead, hn, Except.toBool, if_true]
  split_ifs <;> omega

/-- Going back to the beginning leaves the whole file to be read. -/
theorem toil_rewind (hs : t.Sound) {s : Session} (hsrc : t.engine.source = .opened s)
    (hc : classify (fs.look t.engine.path) s.identifier t.engine.splitter.consumed =
      .ok .truncated) :
    3 * t.engine.remains fs (.opened { s with position := 0 }) (.read .catchUp) +
        t.engine.depth fs (.opened { s with position := 0 }) (.read .catchUp) <
      t.engine.toil fs .check := by
  rw [← hs.position s hsrc] at hc
  obtain ⟨hc, -⟩ | ⟨hc, -⟩ := classify_opened (hs.identity s hsrc) hc
  · cases hc
  · have hlt := Change.ofLength_eq_truncated hc.symm
    unfold toil
    rw [hsrc]
    simp only [remains, depth]
    split_ifs <;> omega

/-- A read takes bytes, and each can give a line. -/
theorem toil_read {s : Session} {goal : Goal} {bytes : Bytes}
    (hsrc : t.engine.source = .opened s)
    (hr : fs.read s.object s.position chunkSize = .ok bytes) (hb : bytes ≠ []) :
    bytes.length + 1 +
        (3 * t.engine.remains fs (.opened { s with position := s.position + bytes.length })
            (.read goal) +
          t.engine.depth fs (.opened { s with position := s.position + bytes.length })
            (.read goal)) <
      t.engine.toil fs (.read goal) := by
  have hpos := List.length_pos_of_ne_nil hb
  have hlen := length_le_of_read hr hb
  unfold toil
  rw [hsrc]
  cases goal with
  | catchUp =>
    simp only [remains, depth]
    split_ifs <;> omega
  | drain =>
    simp only [remains, depth]
    omega

theorem toil_flush (hs : t.Sound) (hw : t.Works .flush) :
    2 + t.engine.toil fs .leave < t.engine.toil fs .flush := by
  obtain ⟨s, hsrc⟩ := opened_of_fits hs.fits hw.stage_eq rfl
  unfold toil
  rw [hsrc]
  simp only [remains, depth]
  omega

theorem toil_leave (hs : t.Sound) (hw : t.Works .leave) :
    3 * t.engine.ahead fs + 15 < t.engine.toil fs .leave := by
  obtain ⟨s, hsrc⟩ := opened_of_fits hs.fits hw.stage_eq rfl
  unfold toil
  rw [hsrc]
  simp only [remains, depth]
  omega

theorem toil_last (hs : t.Sound) (hw : t.Works .leave) :
    2 + t.engine.toil fs .finish < t.engine.toil fs .leave := by
  obtain ⟨s, hsrc⟩ := opened_of_fits hs.fits hw.stage_eq rfl
  unfold toil
  rw [hsrc]
  simp only [remains, depth]
  omega

theorem three_lt_effort (hw : t.Works stage) (hne : stage ≠ .finish) :
    3 < t.engine.effort fs := by
  rw [effort_ready hw.1]
  exact three_lt_toil hne

/-- An engine that quits was ended before, or has nothing left to do. -/
theorem effort_quit (hawake : ∀ due watching next, t.engine.phase ≠ .asleep due watching next) :
    t.blocked now = true ∨ 0 < t.engine.effort fs := by
  cases hp : t.engine.phase with
  | ended =>
    left
    unfold blocked
    rw [hp]
  | ready stage =>
    right
    rw [effort_ready hp]
    exact toil_pos stage
  | handing lines rest next =>
    right
    rw [effort_handing hp]
    exact Nat.lt_of_lt_of_le (Nat.succ_pos _) (Nat.le_add_right _ _)
  | asleep due watching next => exact absurd hp (hawake due watching next)

/-- The bytes of a read pay for its lines. -/
theorem effort_read {e : Engine} {s : Session} {goal : Goal} {bytes : Bytes} {lines : List Line}
    (hw : t.Works (.read goal)) (hsrc : t.engine.source = .opened s)
    (hr : fs.read s.object s.position chunkSize = .ok bytes) (hb : bytes ≠ [])
    (hl : lines.length ≤ bytes.length)
    (he : e.effort fs = lines.length + 1 +
      (3 * t.engine.remains fs (.opened { s with position := s.position + bytes.length })
          (.read goal) +
        t.engine.depth fs (.opened { s with position := s.position + bytes.length })
          (.read goal))) :
    e.effort fs < t.engine.effort fs := by
  rw [effort_ready hw.1, he]
  refine Nat.lt_of_le_of_lt ?_ (toil_read hsrc hr hb)
  exact Nat.add_le_add_right (Nat.add_le_add_right hl 1) _

/-- A step brings the engine nearer to its rest, unless it is idle or wakes the engine. -/
theorem Turn.effort (h : Turn fs now t t') (hs : t.Sound) (hf : t.engine.Persists)
    (hawake : ∀ due watching next, t.engine.phase ≠ .asleep due watching next) :
    t.blocked now = true ∨ t'.engine.effort fs < t.engine.effort fs := by
  cases h with
  | idle hb => exact .inl hb
  | quit => exact effort_quit hawake
  | hand hp =>
    right
    rw [effort_handing hp]
    exact Nat.add_lt_add_right (Nat.lt_succ_self _) _
  | rest hp =>
    right
    rw [effort_handing hp]
    exact Nat.lt_succ_self 1
  | resume hp =>
    right
    rw [effort_handing hp]
    exact Nat.lt_add_of_pos_left Nat.one_pos
  | wake hp => exact absurd hp (hawake _ _ _)
  | pass hw hp =>
    right
    have hlt := toil_passes hs hw hp
    rw [effort_ready hw.1]
    exact hlt
  | fail hw he => exact .inr (three_lt_effort hw (by rintro rfl; cases he))
  | wait hw hp =>
    have hlt : 3 < t.engine.effort fs := three_lt_effort hw (by rintro rfl; cases hp)
    exact .inr (Nat.lt_trans (Nat.one_lt_succ_succ 1) hlt)
  | «open» hw ho hp =>
    right
    rw [effort_ready hw.1]
    exact toil_open hs hf hw ho
  | rewind hw hsrc hc =>
    right
    rw [effort_ready hw.1]
    exact toil_rewind hs hsrc hc
  | @read s goal bytes hw hsrc hr hb =>
    have hlines := Splitter.length_push_le t.engine.splitter bytes
    exact .inr (effort_read hw hsrc hr hb (by rwa [List.length_map]) rfl)
  | flush hw =>
    right
    have hlt : 2 + t.engine.toil fs .leave < t.engine.toil fs .flush := toil_flush hs hw
    rw [effort_ready hw.1]
    exact hlt
  | leave hw =>
    right
    rw [effort_ready hw.1]
    exact toil_leave hs hw
  | last hw =>
    right
    have hlt : 2 + t.engine.toil fs .finish < t.engine.toil fs .leave := toil_last hs hw
    rw [effort_ready hw.1]
    exact hlt
  | finish hw =>
    right
    rw [effort_ready hw.1]
    exact toil_pos .finish

theorem Turn.persists (h : Turn fs now t t') (hf : t.engine.Persists) : t'.engine.Persists := by
  cases h with
  | «open» | rewind | read => exact nofun
  | leave hw hfollow => exact fun _ => hfollow
  | _ => exact hf

theorem persists_start {path : Path} {config : Config} (h : start fs path config = .ok t) :
    t.engine.Persists := by
  obtain ⟨-, ⟨n, offset, -, -, rfl⟩ | ⟨f, -, -, hwaits, rfl⟩⟩ := start_cases h
  · exact nofun
  · intro _
    unfold Config.waitsForFile at hwaits
    simp only [Bool.and_eq_true] at hwaits
    exact hwaits.1.1

theorem toil_le (fs : FileSystem) (e : Engine) (stage : Stage) :
    e.toil fs stage ≤ 6 * fs.size + 38 := by
  have hahead : e.ahead fs ≤ fs.size := by
    unfold ahead
    split
    · exact length_le_size fs _
    · exact Nat.zero_le _
  unfold toil
  cases e.source with
  | away p =>
    cases stage <;> simp only [remains, depth] <;> (try split_ifs) <;> omega
  | opened s =>
    have hlen := length_le_size fs s.object
    cases stage with
    | read goal =>
      cases goal <;> simp only [remains, depth] <;> (try split_ifs) <;> omega
    | _ => simp only [remains, depth]; (try split_ifs) <;> omega

theorem effort_le_backlog (fs : FileSystem) (t : Tailer) :
    t.engine.effort fs ≤ 6 * fs.size + t.backlog + 40 := by
  have htoil := toil_le fs t.engine
  unfold Engine.effort backlog
  cases t.engine.phase with
  | ready stage =>
    have := htoil stage
    dsimp only
    omega
  | handing lines rest next =>
    have := htoil next
    dsimp only
    split_ifs <;> omega
  | asleep due watching next =>
    dsimp only
    omega
  | ended => exact Nat.zero_le _

/-- A tailer is given steps enough to come to rest. -/
theorem effort_le (fs : FileSystem) (t : Tailer) : t.engine.effort fs ≤ t.patience fs := by
  have := effort_le_backlog fs t
  unfold patience
  omega

end Tailer

end LogFollower
