import LogFollower.FileSystem.Edit
import LogFollower.Proofs.Tailer.Turn

/-!
# Sound tailers

What holds of a tailer between any two steps, whatever happens to the files: its configuration is
usable, a file is open just when one is needed, and the handle stands where the splitter has
consumed up to. `sound_start` and `Sound.turn` say that it holds always.
-/

namespace LogFollower

namespace Engine

variable {fs : FileSystem} {e : Engine} {stage next : Stage}

theorem Passes.seeks_eq {watcher : Watcher} (h : Passes fs e stage next watcher) :
    next.seeks = stage.seeks := by
  cases h <;> rfl

theorem Fails.seeks_eq {error : TailError} (h : Fails fs e stage error next) :
    next.seeks = stage.seeks := by
  cases h with
  | look => rfl
  | reopen => rfl
  | @read s goal => cases goal <;> rfl
  | check => rfl

theorem Waits.seeks_eq (h : Waits fs e stage next) : next.seeks = stage.seeks := by
  cases h <;> rfl

end Engine

namespace Tailer

open Engine

variable {fs : FileSystem} {now : Nat} {t t' : Tailer}

/-! ## What no step changes -/

theorem Turn.config_eq (h : Turn fs now t t') : t'.engine.config = t.engine.config := by
  cases h <;> rfl

theorem Turn.path_eq (h : Turn fs now t t') : t'.engine.path = t.engine.path := by
  cases h <;> rfl

theorem Turn.capacity_eq (h : Turn fs now t t') : t'.capacity = t.capacity := by
  cases h <;> rfl

theorem Turn.stopRequested_eq (h : Turn fs now t t') : t'.stopRequested = t.stopRequested := by
  cases h <;> rfl

theorem Turn.closed_eq (h : Turn fs now t t') : t'.closed = t.closed := by
  cases h <;> rfl

theorem Turn.limit_eq (h : Turn fs now t t') :
    t'.engine.splitter.limit = t.engine.splitter.limit := by
  cases h with
  | read => exact Splitter.limit_push _ _
  | _ => rfl

/-! ## Soundness -/

/-- The configuration is usable, a file is open just when one is needed, and its handle stands
where the splitter has consumed up to. -/
structure Sound (t : Tailer) : Prop where
  valid : t.engine.config.fault? = none
  fits : t.engine.Fits
  limit : t.engine.splitter.limit = t.engine.config.maxLineSize
  identity : ∀ s, t.engine.source = .opened s → s.identifier = FileSystem.identify s.object
  position : ∀ s, t.engine.source = .opened s → s.position = t.engine.splitter.consumed
  capacity : 0 < t.capacity

theorem limit_ne_zero_of_valid {config : Config} (hv : config.fault? = none) :
    config.maxLineSize ≠ some 0 := by
  intro e
  unfold Config.fault? at hv
  rw [if_pos e] at hv
  split_ifs at hv

theorem Sound.limit_ne_zero (h : t.Sound) : t.engine.splitter.limit ≠ some 0 := by
  rw [h.limit]
  exact limit_ne_zero_of_valid h.valid

theorem Sound.pollInterval_pos (h : t.Sound) : 0 < t.engine.config.pollInterval := by
  have hv := h.valid
  unfold Config.fault? at hv
  split_ifs at hv
  omega

theorem Sound.position_pos (h : t.Sound) {s : Session} (hs : t.engine.source = .opened s)
    (hc : classify (fs.look t.engine.path) s.identifier t.engine.splitter.consumed =
      .ok .truncated) : 0 < s.position := by
  obtain ⟨n, -, -, hn⟩ := ofLength_of_classify hc nofun
  have hlt := Change.ofLength_eq_truncated hn
  rw [h.position s hs]
  omega

theorem Turn.fits (h : Turn fs now t t') (hf : t.engine.Fits) : t'.engine.Fits := by
  have stays {stage next : Stage} (hw : t.Works stage) (hn : next.seeks = stage.seeks) :
      next.seeks = t.engine.source.isAway :=
    hn.trans (hf stage hw.stage_eq)
  cases h with
  | idle => exact hf
  | quit => exact nofun
  | hand h | rest h | resume h | wake h => rintro _ ⟨⟩; exact hf _ (by rw [h]; rfl)
  | pass h hp => rintro _ ⟨⟩; exact stays h hp.seeks_eq
  | fail h he => rintro _ ⟨⟩; exact stays h he.seeks_eq
  | wait h hw => rintro _ ⟨⟩; exact stays h hw.seeks_eq
  | «open» => rintro _ ⟨⟩; rfl
  | rewind => rintro _ ⟨⟩; rfl
  | read => rintro _ ⟨⟩; rfl
  | flush h => rintro _ ⟨⟩; exact stays h rfl
  | leave => rintro _ ⟨⟩; rfl
  | last h => rintro _ ⟨⟩; exact stays h rfl
  | finish => exact nofun

theorem Turn.identity (h : Turn fs now t t')
    (hi : ∀ s, t.engine.source = .opened s → s.identifier = FileSystem.identify s.object) :
    ∀ s, t'.engine.source = .opened s → s.identifier = FileSystem.identify s.object := by
  cases h with
  | «open» => rintro _ ⟨⟩; rfl
  | @rewind s _ hs => rintro _ ⟨⟩; exact hi s hs
  | @read s _ _ _ hs => rintro _ ⟨⟩; exact hi s hs
  | leave => exact nofun
  | _ => exact hi

theorem Turn.position (h : Turn fs now t t')
    (hp : ∀ s, t.engine.source = .opened s → s.position = t.engine.splitter.consumed) :
    ∀ s, t'.engine.source = .opened s → s.position = t'.engine.splitter.consumed := by
  cases h with
  | «open» => rintro _ ⟨⟩; rfl
  | rewind => rintro _ ⟨⟩; rfl
  | @read s _ bytes _ hs =>
    rintro _ ⟨⟩
    show s.position + bytes.length = _
    rw [Splitter.consumed_push, hp s hs]
  | flush => intro s hs; exact hp s hs
  | leave => exact nofun
  | _ => exact hp

/-- A step of a sound tailer leaves it sound. -/
theorem Sound.turn (hs : t.Sound) (h : Turn fs now t t') : t'.Sound where
  valid := h.config_eq ▸ hs.valid
  fits := h.fits hs.fits
  limit := by rw [h.limit_eq, h.config_eq, hs.limit]
  identity := h.identity hs.identity
  position := h.position hs.position
  capacity := h.capacity_eq ▸ hs.capacity

end Tailer

/-! ## Starting -/

/-- The offset that a tailer starts at in a file. -/
def Config.startOffset (config : Config) (identifier : FileIdentifier) (length : Nat) :
    Except TailError Nat :=
  match config.location with
  | some seek => seek.resolve identifier length
  | none => .ok length

namespace Tailer

variable {fs : FileSystem} {t : Tailer} {path : Path} {config : Config}

/-- What a tailer starts with: a file opened and positioned, or none because there is none yet. -/
theorem start_cases (h : start fs path config = .ok t) :
    config.fault? = none ∧
    ((∃ n offset, fs.openFile path = .ok n ∧
        config.startOffset (FileSystem.identify n) (fs.length n) = .ok offset ∧
        t = ⟨⟨path, config, .opened ⟨n, FileSystem.identify n, offset⟩,
          .start offset config.maxLineSize, .start fs path config, .ready (.read .catchUp)⟩,
          [], max 1 config.channelCapacity, false, false⟩) ∨
      (∃ f, fs.openFile path = .error f ∧ f.notFound ∧ config.waitsForFile = true ∧
        t = ⟨⟨path, config, .away none, .start 0 config.maxLineSize, .start fs path config,
          .ready .arm⟩, [], max 1 config.channelCapacity, false, false⟩)) := by
  unfold start Engine.start at h
  cases hv : config.fault? with
  | some f => rw [hv] at h; cases h
  | none =>
    refine ⟨rfl, ?_⟩
    simp only [hv] at h
    cases ho : fs.openFile path with
    | error f =>
      right
      simp only [ho] at h
      cases hn : f.notFound <;> cases hw : config.waitsForFile <;>
        simp only [hn, hw, Bool.false_eq_true, if_false, if_true, reduceCtorEq,
          Except.ok.injEq] at h
      exact ⟨f, rfl, hn, rfl, h.symm⟩
    | ok n =>
      left
      simp only [ho] at h
      unfold Config.startOffset
      cases hl : config.location with
      | none =>
        simp only [hl, Except.ok.injEq] at h
        exact ⟨n, _, rfl, rfl, h.symm⟩
      | some seek =>
        cases hr : seek.resolve (FileSystem.identify n) (fs.length n) with
        | error e => simp only [hl, hr, reduceCtorEq] at h
        | ok offset =>
          simp only [hl, hr, Except.ok.injEq] at h
          exact ⟨n, offset, rfl, hr, h.symm⟩

theorem exists_start {n offset : Nat} (hv : config.fault? = none) (ho : fs.openFile path = .ok n)
    (hoff : config.startOffset (FileSystem.identify n) (fs.length n) = .ok offset) :
    ∃ t, start fs path config = .ok t := by
  unfold Config.startOffset at hoff
  unfold start Engine.start
  simp only [hv, ho]
  cases hl : config.location with
  | none => exact ⟨_, rfl⟩
  | some seek =>
    rw [hl] at hoff
    simp only [hoff]
    exact ⟨_, rfl⟩

theorem engine_path_start (h : start fs path config = .ok t) : t.engine.path = path := by
  obtain ⟨-, ⟨n, offset, -, -, rfl⟩ | ⟨f, -, -, -, rfl⟩⟩ := start_cases h <;> rfl

theorem engine_config_start (h : start fs path config = .ok t) : t.engine.config = config := by
  obtain ⟨-, ⟨n, offset, -, -, rfl⟩ | ⟨f, -, -, -, rfl⟩⟩ := start_cases h <;> rfl

theorem sound_start (h : start fs path config = .ok t) : t.Sound := by
  obtain ⟨hv, ⟨n, offset, -, -, rfl⟩ | ⟨f, -, -, -, rfl⟩⟩ := start_cases h
  · refine ⟨hv, ?_, rfl, ?_, ?_, Nat.lt_of_lt_of_le Nat.one_pos (Nat.le_max_left _ _)⟩
    · rintro _ ⟨⟩; rfl
    · rintro _ ⟨⟩; rfl
    · rintro _ ⟨⟩; rfl
  · refine ⟨hv, ?_, rfl, nofun, nofun, Nat.lt_of_lt_of_le Nat.one_pos (Nat.le_max_left _ _)⟩
    rintro _ ⟨⟩; rfl

end Tailer
end LogFollower
