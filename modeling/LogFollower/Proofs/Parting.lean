import LogFollower.Proofs.Forever
import LogFollower.Proofs.Parting.Course

/-!
# A file that leaves its path

A tailer that does not reopen gives out one file, and it ends when the path does not lead to that file
any more. `lines_of_deleted_file` says what comes of this, however the file leaves the path and
whatever is added to it until the engine has noticed and has read it to its end: the lines of all that
is there then, the rest, and the report that the file is gone.

While the path leads elsewhere for good, `distance` bounds the steps to the end: the engine does not
wait any more, and there are only so many bytes to read.
-/

namespace LogFollower

open World

namespace Parting

open Tailer Engine

variable {path : Path} {config : Config} {n o : Nat} {w : World} {σ : Nat → Move}

/-- An earlier look found that the path does not lead to the file, and the file was drained since. -/
def Drains (path : Path) (n : Nat) (w : World) (σ : Nat → Move) (i : Nat) : Prop :=
  ∃ k < i, (w.moment σ k).tailer.engine.phase = .ready .check ∧
    ¬(w.moment σ k).fs.NotGone path n ∧
    ∀ j, k < j → j ≤ i → (w.moment σ j).tailer.engine.phase.stage? = some (.read .drain)

/-- The drain comes to the end of the file. -/
structure Drained (path : Path) (n : Nat) (final : Bytes) (w : World) (σ : Nat → Move) (i : Nat) :
    Prop where
  since : Drains path n w σ i
  phase : (w.moment σ i).tailer.engine.phase = .ready (.read .drain)
  handle : (w.moment σ i).tailer.engine.source =
    .opened ⟨n, FileSystem.identify n, final.length⟩
  file : (w.moment σ i).fs.bytes? n = some final

/-- A line reports that the path could not be followed, for another reason than that there is
nothing. -/
def FailedLook (path : Path) (fs : FileSystem) (l : Line) : Prop :=
  ∃ f, fs.find path = .error f ∧ f.notFound = false ∧ l.error = some (.file f) ∧ l.text = ""

/-- A run in which the one file is given out: the lines of it, and at the end what it has besides. -/
structure GivesUp (path : Path) (config : Config) (n o : Nat) (w : World) (σ : Nat → Move) :
    Prop where
  /-- At every moment the beginning of what the file has to give out was given out, as it is or as it
  was when the drain came to its end. A task that has ended gave out all of that. -/
  gives : ∀ i, ∃ j final, j ≤ i ∧ (w.moment σ j).fs.bytes? n = some final ∧
    essential (w.moment σ i).given <+: parting path config o n final ∧
    ((w.moment σ i).tailer.ended = true →
      essential (w.moment σ i).given = parting path config o n final ∧ j < i ∧
        Drained path n final w σ j)
  /-- No other file is opened. -/
  only : ∀ i, ∃ position, (w.moment σ i).tailer.engine.source =
    .opened ⟨n, FileSystem.identify n, position⟩
  /-- All other lines report looks at the path that failed, and not because there was nothing. -/
  others : ∀ i, ∀ l ∈ (w.moment σ i).given, l.isError = true → l.tellsGone = true ∨
    ∃ j < i, FailedLook path (w.moment σ j).fs l
  /-- So without such a look there are no other lines. -/
  whole : ∀ i, (∀ j < i, ∀ f, (w.moment σ j).fs.find path = .error f → f.notFound = true) →
    essential (w.moment σ i).given = (w.moment σ i).given
  /-- The task ends, and all lines are taken, if the file is gone for good and not added to any
  more, and the engine and the consumer get their turns. -/
  ends : Serves σ → Ages σ → ∀ k final, (∀ i, k ≤ i →
      ¬(w.moment σ i).fs.NotGone path n ∧ (w.moment σ i).fs.bytes? n = some final) →
    ∃ i, k ≤ i ∧ (w.moment σ i).tailer.ended = true ∧ (w.moment σ i).tailer.queue = []

/-! ## The run -/

theorem Drains.of_step {i : Nat}
    (h : (w.moment σ i).tailer.engine.phase.stage? = some (.read .drain) → Drains path n w σ i)
    (hstep : (w.moment σ (i + 1)).tailer.engine.phase.stage? = some (.read .drain) →
      (w.moment σ i).tailer.engine.phase.stage? = some (.read .drain) ∨
        (w.moment σ i).tailer.engine.phase = .ready .check ∧ ¬(w.moment σ i).fs.NotGone path n)
    (hp : (w.moment σ (i + 1)).tailer.engine.phase.stage? = some (.read .drain)) :
    Drains path n w σ (i + 1) := by
  obtain hdrain | ⟨hcheck, hgone⟩ := hstep hp
  · obtain ⟨k, hk, hcheck, hgone, hsince⟩ := h hdrain
    refine ⟨k, by omega, hcheck, hgone, fun j hkj hji => ?_⟩
    obtain rfl | hlt := hji.eq_or_lt
    · exact hp
    · exact hsince j hkj (by omega)
  · refine ⟨i, by omega, hcheck, hgone, fun j hij hji => ?_⟩
    obtain rfl : j = i + 1 := by omega
    exact hp

section Run

variable (hm : ∀ i, OnlyAppends n (w.moment σ i) (σ i))

include hm

/-- First the file is read, and then it is given up. -/
theorem course {s : Section} {bytes : Bytes} (h : Reading path config n o w s bytes)
    (hp : w.tailer.engine.phase.stage? ≠ some (.read .drain)) (i : Nat) :
    (∃ s bytes, Reading path config n o (w.moment σ i) s bytes ∧
      ((w.moment σ i).tailer.engine.phase.stage? = some (.read .drain) → Drains path n w σ i)) ∨
    ∃ j < i, ∃ final, Drained path n final w σ j ∧
      ∃ s bytes, Leaving path config n o final (w.moment σ i) s bytes := by
  induction i with
  | zero => exact .inl ⟨s, bytes, h, fun hd => absurd hd hp⟩
  | succ i ih =>
    obtain ⟨s, bytes, hs, hdrains⟩ | ⟨j, hj, final, hdrained, s, bytes, hs⟩ := ih
    · by_cases hwork : σ i = .work
      · have hnext := moment_of_work (w := w) hwork
        obtain ⟨s', hs', hstep⟩ | ⟨hphase, hend, s', hs'⟩ := hs.work
        · refine .inl ⟨s', bytes, hnext ▸ hs', Drains.of_step hdrains ?_⟩
          rw [hnext]
          exact hstep
        · have hle := hs.base
          refine .inr ⟨i, by omega, bytes, ⟨hdrains (by rw [hphase]; rfl), hphase, ?_,
            hs.object ▸ hs.file⟩, s', bytes, hnext ▸ hs'⟩
          rw [hs.start] at hle
          rw [hs.source_eq, hend, List.length_drop, Nat.add_sub_cancel' hle]
      · obtain ⟨s', more, hs'⟩ := hs.outer (hm i) hwork
        refine .inl ⟨s', bytes ++ more, hs', Drains.of_step hdrains fun hp => .inl ?_⟩
        rw [← (frame (w := w.moment σ i) hwork).1]
        exact hp
    · obtain ⟨s', more, hs'⟩ := hs.move (hm i)
      exact .inr ⟨j, by omega, final, hdrained, s', bytes ++ more, hs'⟩

theorem underway_moment {s : Section} {bytes : Bytes} (h : Underway path config n o w s bytes)
    (i : Nat) : ∃ s bytes, Underway path config n o (w.moment σ i) s bytes := by
  induction i with
  | zero => exact ⟨s, bytes, h⟩
  | succ i ih =>
    obtain ⟨s, bytes, hs⟩ := ih
    obtain ⟨s', more, hs'⟩ := hs.move (hm i)
    exact ⟨s', bytes ++ more, hs'⟩

/-- Every other error was met by a look at the path. -/
theorem others {s : Section} {bytes : Bytes} (h : Underway path config n o w s bytes)
    (hnone : w.stream = []) (i : Nat) :
    ∀ l ∈ (w.moment σ i).stream, l.isError = true → l.tellsGone = true ∨
      ∃ j < i, FailedLook path (w.moment σ j).fs l := by
  induction i with
  | zero =>
    show ∀ l ∈ w.stream, _
    rw [hnone]
    exact List.forall_mem_nil _
  | succ i ih =>
    have known (l : Line) (hl : l ∈ (w.moment σ i).stream) (herror : l.isError = true) :
        l.tellsGone = true ∨ ∃ j < i + 1, FailedLook path (w.moment σ j).fs l :=
      (ih l hl herror).imp_right fun ⟨j, hj, hf⟩ => ⟨j, by omega, hf⟩
    by_cases hwork : σ i = .work
    · obtain ⟨s, bytes, hs⟩ := underway_moment hm h i
      have ht := turn_step hs.accounted.sound.fits (w.moment σ i).fs (w.moment σ i).now
      obtain ⟨htaken, hown⟩ := List.forall_mem_append.1 known
      rw [moment_of_work hwork]
      refine List.forall_mem_append.2 ⟨htaken, ht.lines hown (fun _ _ => nofun) ?_ ?_⟩
      · rintro stage error next hw he -
        obtain ⟨-, -, f, hfind, hf, rfl⟩ := hs.fails hw he
        exact .inr ⟨i, by omega, f, hfind, hf, rfl, rfl⟩
      · exact fun _ _ _ => .inl rfl
    · intro l hl
      exact known l ((frame (w := w.moment σ i) hwork).2.2.2 ▸ hl)

end Run

/-! ## The way to the end -/

def remains (fs : FileSystem) : Source → Nat
  | .opened hd => fs.length hd.object - hd.position
  | .away _ => 0

/-- How many steps there are at most from a stage to the end. -/
def way (left : Nat) : Stage → Nat
  | .read .catchUp => 3 * left + 12
  | .clear => 3 * left + 11
  | .check => 3 * left + 10
  | .read .drain => 3 * left + 9
  | .flush => 7
  | .leave => 4
  | _ => 1

/-- How many steps there are at most to the end, once the path leads elsewhere for good. -/
def distance (fs : FileSystem) (e : Engine) : Nat :=
  match e.phase with
  | .ready stage => way (remains fs e.source) stage
  | .handing lines rest next =>
    lines.length + (if rest then 2 else 1) + way (remains fs e.source) next
  | .asleep _ _ next => 1 + way (remains fs e.source) next
  | .ended => 0

theorem distance_congr {fs fs' : FileSystem} {e e' : Engine} (hp : e'.phase = e.phase)
    (hr : remains fs' e'.source = remains fs e.source) : distance fs' e' = distance fs e := by
  unfold distance
  rw [hp, hr]

variable {s : Section} {bytes : Bytes} {t : Tailer}

theorem distance_ready {fs : FileSystem} {e : Engine} {stage : Stage}
    (h : e.phase = .ready stage) : distance fs e = way (remains fs e.source) stage := by
  unfold distance
  rw [h]

/-- A look that does not find the file gone finds it at the path. -/
theorem Underway.there (h : Underway path config n o w s bytes) {hd : Session} {change : Change}
    (hs : w.tailer.engine.source = .opened hd)
    (hc : classify (w.fs.look w.tailer.engine.path) hd.identifier
      w.tailer.engine.splitter.consumed = .ok change) (hne : change ≠ .deleted) :
    w.fs.NotGone path n := by
  obtain rfl := h.opened_eq hs
  obtain rfl := h.object
  rw [h.path_eq] at hc
  obtain ⟨k, hfind, hid, -⟩ := ofLength_of_classify hc hne
  exact .inl (FileSystem.identify_inj hid ▸ hfind)

theorem distance_read {fs : FileSystem} {e : Engine} {hd : Session} {goal : Goal} {new : Bytes}
    (hs : e.source = .opened hd) (hp : e.phase = .ready (.read goal))
    (hr : fs.read hd.object hd.position chunkSize = .ok new) (hb : new ≠ []) {lines : List Line}
    (hl : lines.length ≤ new.length) :
    lines.length + 1 +
        way (remains fs (.opened { hd with position := hd.position + new.length })) (.read goal) <
      distance fs e := by
  have hpos := List.length_pos_of_ne_nil hb
  have hlen := FileSystem.length_le_of_read hr hb
  rw [distance_ready hp, hs]
  cases goal <;> simp only [way, remains] <;> omega

theorem Underway.way_pass (h : Underway path config n o w s bytes)
    (hgone : ¬w.fs.NotGone path n) {stage next : Stage} {watcher : Watcher}
    (hw : w.tailer.Works stage) (hp : Passes w.fs w.tailer.engine stage next watcher) (left : Nat) :
    way left next < way left stage := by
  cases hp with
  | arm | found | vanished => cases h.not_seeks hw
  | grown hs hc => exact absurd (h.there hs hc nofun) hgone
  | @readOut hd goal _ _ hf =>
    cases goal with
    | catchUp => exact absurd ((hf rfl).symm.trans h.follows) Bool.false_ne_true
    | drain => simp only [way]; omega
  | caughtUp | clear | gone => exact Nat.lt_succ_self _
  | kept => exact (by decide : 4 < 7)
  | done => exact (by decide : 1 < 4)

/-- A step leads nearer to the end, when the path leads elsewhere. -/
theorem Underway.distance_turn (h : Underway path config n o w s bytes)
    (hgone : ¬w.fs.NotGone path n) (ht : Turn w.fs w.now w.tailer t) :
    w.tailer.blocked w.now = true ∨ distance w.fs t.engine < distance w.fs w.tailer.engine := by
  cases ht with
  | idle hb => exact .inl hb
  | quit hq => exact absurd hq h.not_quit
  | hand hp =>
    right
    unfold distance
    rw [hp]
    exact Nat.add_lt_add_right (Nat.add_lt_add_right (Nat.lt_succ_self _) _) _
  | rest hp =>
    right
    unfold distance
    rw [hp]
    exact Nat.add_lt_add_right (Nat.lt_succ_self 1) _
  | resume hp | wake hp =>
    right
    unfold distance
    rw [hp]
    exact Nat.lt_add_of_pos_left Nat.one_pos
  | pass hw hp =>
    right
    rw [distance_ready hw.1]
    exact h.way_pass hgone hw hp _
  | fail hw he =>
    obtain ⟨-, -, f, hfind, hf, -⟩ := h.fails hw he
    exact absurd (.inr ⟨f, hfind, hf⟩) hgone
  | wait hw hp =>
    cases hp with
    | missing => cases h.not_seeks hw
    | same hs hc => exact absurd (h.there hs hc nofun) hgone
  | «open» hw => cases h.not_seeks hw
  | rewind hw hs hc => exact absurd (h.there hs hc nofun) hgone
  | @read hd goal new hw hs hr hb =>
    have hlines := Splitter.length_push_le w.tailer.engine.splitter new
    exact .inr (distance_read hs hw.1 hr hb ((List.length_map _).trans_le hlines))
  | leave _ _ hr => exact absurd (h.not_reopen.symm.trans hr) Bool.false_ne_true
  | flush hw =>
    right
    rw [distance_ready hw.1]
    exact (by decide : 1 + 1 + 4 < 7)
  | last hw =>
    right
    rw [distance_ready hw.1]
    exact (by decide : 1 + 1 + 1 < 4)
  | finish hw =>
    right
    rw [distance_ready hw.1]
    exact Nat.one_pos

section Ends

variable {k : Nat} {final : Bytes} (hm : ∀ i, OnlyAppends n (w.moment σ i) (σ i))
  (hgone : ∀ i, k ≤ i → ¬(w.moment σ i).fs.NotGone path n ∧
    (w.moment σ i).fs.bytes? n = some final)

include hm hgone

theorem distance_moment (h : Underway path config n o w s bytes) {i : Nat} (hi : k ≤ i) :
    distance (w.moment σ (i + 1)).fs (w.moment σ (i + 1)).tailer.engine ≤
        distance (w.moment σ i).fs (w.moment σ i).tailer.engine ∧
      ((w.moment σ i).advances (σ i) = true →
        distance (w.moment σ (i + 1)).fs (w.moment σ (i + 1)).tailer.engine <
          distance (w.moment σ i).fs (w.moment σ i).tailer.engine) := by
  obtain ⟨s, bytes, hs⟩ := underway_moment hm h i
  by_cases hwork : σ i = .work
  · have ht := turn_step hs.accounted.sound.fits (w.moment σ i).fs (w.moment σ i).now
    rw [moment_of_work hwork, hwork]
    cases hb : (w.moment σ i).tailer.blocked (w.moment σ i).now with
    | true =>
      rw [tailer_work_of_blocked hb]
      exact ⟨le_rfl, fun hadv => absurd hb (by simpa [advances] using hadv)⟩
    | false =>
      have hlt := (hs.distance_turn (hgone i hi).1 ht).resolve_left (by rw [hb]; exact Bool.false_ne_true)
      exact ⟨hlt.le, fun _ => hlt⟩
  · obtain ⟨hphase, hsrc, -, -⟩ := frame (w := w.moment σ i) hwork
    have hsame : distance (w.moment σ (i + 1)).fs (w.moment σ (i + 1)).tailer.engine =
        distance (w.moment σ i).fs (w.moment σ i).tailer.engine := by
      refine distance_congr hphase ((congrArg (remains _) hsrc).trans ?_)
      rw [hs.source_eq]
      simp only [remains]
      rw [FileSystem.length_of_bytes? (hgone i hi).2,
        FileSystem.length_of_bytes? (hgone (i + 1) (by omega)).2]
    refine ⟨hsame.le, fun hadv => absurd hadv ?_⟩
    rw [advances_of_ne hwork]
    exact Bool.false_ne_true

/-- The engine ends, and the channel is emptied. -/
theorem ends (h : Underway path config n o w s bytes) (hs : Serves σ) (ha : Ages σ) :
    ∃ i, k ≤ i ∧ (w.moment σ i).tailer.ended = true ∧ (w.moment σ i).tailer.queue = [] := by
  obtain ⟨j, hj, hno⟩ := exists_no_advance (w := w) (σ := σ) (k := k)
    (fun v => distance v.fs v.tailer.engine)
    (fun i hi => (distance_moment hm hgone h hi).1) fun i hi => (distance_moment hm hgone h hi).2
  obtain ⟨s, bytes, hu⟩ := underway_moment hm h j
  obtain ⟨i, hi, hend⟩ := ended_of_no_advance hno hs ha hu.accounted.sound.capacity
  exact ⟨i, hj.trans hi, hend⟩

end Ends

/-! ## Starting -/

theorem reading_start {fs : FileSystem} {t : Tailer} (h : Tailer.start fs path config = .ok t)
    (hf : config.follow = true) (hr : config.reopen = false) (hn : fs.find path = .ok n)
    (hb : fs.bytes? n = some bytes)
    (ho : config.startOffset (FileSystem.identify n) bytes.length = .ok o)
    (hle : o ≤ bytes.length) :
    ∃ s, Reading path config n o (World.start fs t) s bytes ∧
      (World.start fs t).tailer.engine.phase = .ready (.read .catchUp) := by
  have habreast := abreast_start h hn hb ho hle
  have haccounted := World.accounted_start h
  have hnone := stream_start h
  obtain rfl := Tailer.start_opened h hn hb ho
  exact ⟨_, ⟨⟨habreast, haccounted, rfl, rfl, hf, hr, ⟨rfl, rfl⟩, rfl, rfl⟩, ⟨_, rfl, rfl⟩,
    by rw [hnone]; exact List.forall_mem_nil _⟩, rfl⟩

end Parting

open Parting

/-- A file that leaves its path is given out to its end, without reopening: all complete lines
that it has when the engine, which has found it gone, comes to its end, then the rest unless only
complete lines are wanted, and then the report that it is gone, if that is asked for. Nothing else is
given out, whatever the path leads to, but reports of looks that failed. Then the task ends. -/
theorem lines_of_deleted_file {fs : FileSystem} {path : Path} {config : Config} {t : Tailer}
    {n o : Nat} {bytes : Bytes} (h : Tailer.start fs path config = .ok t)
    (hf : config.follow = true) (hr : config.reopen = false) (hn : fs.find path = .ok n)
    (hb : fs.bytes? n = some bytes)
    (ho : config.startOffset (FileSystem.identify n) bytes.length = .ok o)
    (hle : o ≤ bytes.length) {σ : Nat → Move}
    (hm : ∀ i, OnlyAppends n ((World.start fs t).moment σ i) (σ i)) :
    GivesUp path config n o (World.start fs t) σ := by
  obtain ⟨s, hreading, hphase⟩ := reading_start h hf hr hn hb ho hle
  have hcourse := course hm hreading (by rw [hphase]; exact nofun)
  have hothers (i : Nat) (l : Line) (hl : l ∈ ((World.start fs t).moment σ i).given) :=
    others hm hreading.toUnderway (stream_start h) i l (Reporting.mem_stream hl)
  refine ⟨fun i => ?_, fun i => ?_, hothers, fun i hnone => ?_, fun hs ha k final hgone =>
    ends hm hgone hreading.toUnderway hs ha⟩
  · obtain ⟨s', now, hs', -⟩ | ⟨j, hj, final, hdrained, s', now, hs'⟩ := hcourse i
    · obtain ⟨stage, hstage, -⟩ := hs'.reads
      refine ⟨i, now, le_rfl, hs'.object ▸ hs'.file, hs'.given, fun hend => ?_⟩
      exact absurd (of_decide_eq_true hend) (Phase.ne_ended hstage)
    · obtain ⟨hbegins, hall⟩ := hs'.given
      exact ⟨j, final, hj.le, hdrained.file, hbegins, fun hend => ⟨hall hend, hj, hdrained⟩⟩
  · obtain ⟨s', now, hs'⟩ := underway_moment hm hreading.toUnderway i
    exact ⟨_, hs'.source_eq⟩
  · refine List.filter_eq_self.2 fun l hl => ?_
    cases herror : l.isError with
    | false => rfl
    | true =>
      obtain hgone | ⟨j, hj, f, hfind, hf, -⟩ := hothers i l hl herror
      · rw [hgone]
        rfl
      · exact absurd ((hnone j hj f hfind).symm.trans hf) Bool.false_ne_true.symm

namespace Sample

/-- The engine, the consumer and the clock take turns, and the file is removed after a while. -/
def removal (i : Nat) : Move :=
  if i = 8 then .edit (.remove name)
  else if i % 3 = 0 then .work
  else if i % 3 = 1 then .receive none
  else .wait 250

def remaining (i : Nat) : FileSystem := if i ≤ 8 then files else files.edit (.remove name)

theorem fs_removal (i : Nat) : ((World.start files watcher).moment removal i).fs = remaining i := by
  induction i with
  | zero => rfl
  | succ i ih =>
    show (((World.start files watcher).moment removal i).move (removal i)).fs = _
    generalize (World.start files watcher).moment removal i = v at ih
    unfold removal remaining at *
    by_cases h8 : i = 8
    · subst h8
      exact congrArg (FileSystem.edit · (.remove name)) ih
    · rw [if_neg h8]
      have hle : i + 1 ≤ 8 ↔ i ≤ 8 := by omega
      simp only [hle]
      split_ifs at ih ⊢ <;> exact ih

theorem bytes_remaining (i : Nat) : (remaining i).bytes? 1 = some firstBytes := by
  unfold remaining
  split_ifs <;> rfl

theorem find_remaining (i : Nat) :
    (remaining i).find name = if i ≤ 8 then .ok 1 else .error (.system .noEntry) := by
  unfold remaining
  split_ifs <;> decide

theorem onlyAppends_removal (i : Nat) :
    OnlyAppends 1 ((World.start files watcher).moment removal i) (removal i) := by
  have hfs := fs_removal i
  generalize (World.start files watcher).moment removal i = v at hfs
  unfold removal
  split_ifs with h8
  · refine ⟨firstBytes, [], hfs ▸ bytes_remaining i, ?_⟩
    rw [hfs, h8]
    rfl
  all_goals trivial

theorem serves_removal : Serves removal where
  works i := ⟨3 * (i + 3), by omega, by
    rw [removal, if_neg (by omega), if_pos (by omega)]⟩
  takes i := ⟨3 * (i + 3) + 1, by omega, none, by
    rw [removal, if_neg (by omega), if_neg (by omega), if_pos (by omega)], nofun⟩

theorem ages_removal : Ages removal := fun i =>
  ⟨3 * (i + 3) + 2, by omega, 250, by
    rw [removal, if_neg (by omega), if_neg (by omega), if_neg (by omega)], by decide⟩

end Sample

theorem lines_of_deleted_file_removed :
    (∀ i, OnlyAppends 1 ((World.start Sample.files Sample.watcher).moment Sample.removal i)
      (Sample.removal i)) ∧
    GivesUp Sample.name Sample.watchful 1 0 (World.start Sample.files Sample.watcher)
      Sample.removal ∧
    ∃ i, ((World.start Sample.files Sample.watcher).moment Sample.removal i).tailer.ended = true ∧
      ((World.start Sample.files Sample.watcher).moment Sample.removal i).taken =
        parting Sample.name Sample.watchful 0 1 Sample.firstBytes := by
  have hgives := lines_of_deleted_file Sample.start_watcher rfl rfl (by decide)
    (rfl : Sample.files.bytes? 1 = some Sample.firstBytes) (by decide) (Nat.zero_le _)
    Sample.onlyAppends_removal
  have hfs := Sample.fs_removal
  obtain ⟨i, -, hend, hqueue⟩ := hgives.ends Sample.serves_removal Sample.ages_removal 9
    Sample.firstBytes fun i hi => by
      have hfind := Sample.find_remaining i
      rw [if_neg (by omega)] at hfind
      rw [hfs i]
      refine ⟨?_, Sample.bytes_remaining i⟩
      rintro (hthere | ⟨f, hfault, hf⟩)
      · cases hfind.symm.trans hthere
      · cases Except.error.inj (hfind.symm.trans hfault)
        cases hf
  refine ⟨Sample.onlyAppends_removal, hgives, i, hend, ?_⟩
  obtain ⟨j, final, -, hfinal, -, hall⟩ := hgives.gives i
  obtain rfl := Option.some.inj ((Sample.bytes_remaining j).symm.trans (hfs j ▸ hfinal))
  have hwhole := hgives.whole i fun j _ f hf => by
    rw [hfs j, Sample.find_remaining j] at hf
    split_ifs at hf
    rw [← Except.error.inj hf]
    rfl
  rw [← (hall hend).1, hwhole, given, hqueue, List.append_nil]

-- these are its line, the rest and the report
example : ((World.start Sample.files Sample.watcher).moment Sample.removal 50).taken.map
    (fun l => (l.text, l.offset, l.tellsGone)) =
      [("x", 3, false), ("y", 4, false), ("", 4, true)] := by
  decide +kernel

end LogFollower
