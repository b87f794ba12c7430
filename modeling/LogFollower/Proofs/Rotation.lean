import LogFollower.Proofs.Rotation.Course

/-!
# Rotations

`Rotates` are the runs in which regular files come to a path one after another. Each of them only
grows, and not any more once it has left the path and the engine has found that out. A file may
leave the path in any way, and the path may lead nowhere for a while, but a file is opened before it
leaves.

`lines_across_rotations` says that no line is lost, duplicated or reordered in such a run: when the
engine waits and all lines were taken, they are the lines of the files, one file after another.
-/

namespace LogFollower

/-- The engine has a file open and has not found it gone. -/
def Engine.Attends (e : Engine) (n : Nat) : Prop :=
  ∃ hd stage, e.source = .opened hd ∧ hd.object = n ∧ e.phase.stage? = some stage ∧
    stage.attends = true

/-- A change of the files during a rotation. -/
structure FileStep (path : Path) (w : World) (fs' : FileSystem) (files files' : List Nat) :
    Prop where
  /-- Files grow while the path leads to them or the engine follows them, and else stay. -/
  grows : ∀ n ∈ files, ∃ old more, w.fs.bytes? n = some old ∧ fs'.bytes? n = some (old ++ more) ∧
    (more = [] ∨ w.fs.find path = .ok n ∨ w.tailer.engine.Attends n)
  /-- A file is open when it leaves the path. -/
  leaves : ∀ n, w.fs.find path = .ok n → fs'.find path ≠ .ok n →
    ∃ hd, w.tailer.engine.source = .opened hd ∧ hd.object = n
  /-- The path leads where it led, or nowhere, or to one file more. -/
  comes : (files' = files ∧ ∀ n, fs'.find path = .ok n → w.fs.find path = .ok n) ∨
    ∃ n, n ∉ files ∧ files' = files ++ [n] ∧ fs'.find path = .ok n ∧
      ∃ bytes, fs'.bytes? n = some bytes

namespace FileStep

variable {path : Path} {w : World} {fs' : FileSystem} {files files' : List Nat}

theorem find_ne (hs : FileStep path w fs' files files') {n : Nat} (hn : n ∈ files)
    (h : w.fs.find path ≠ .ok n) : fs'.find path ≠ .ok n := by
  intro hfind
  obtain ⟨-, hcomes⟩ | ⟨m, hm, -, hfind', -⟩ := hs.comes
  · exact h (hcomes n hfind)
  · exact hm (Except.ok.inj (hfind'.symm.trans hfind) ▸ hn)

theorem bytes_eq (hs : FileStep path w fs' files files') {n : Nat} (hn : n ∈ files)
    (hfind : w.fs.find path ≠ .ok n) (hatt : ¬ w.tailer.engine.Attends n) :
    fs'.bytes? n = w.fs.bytes? n := by
  obtain ⟨old, more, hold, hnew, hmore⟩ := hs.grows n hn
  rw [hmore.resolve_right (not_or.2 ⟨hfind, hatt⟩), List.append_nil] at hnew
  rw [hold, hnew]

end FileStep

/-- Whether a move is one of the engine, of the clock, of a watched directory or of the consumer
taking lines. -/
def Move.routine : Move → Bool
  | .work => true
  | .wait _ => true
  | .notify _ => true
  | .receive _ => true
  | _ => false

/-- A run in which regular files come to a path one after another, with the files in the order they
came. -/
inductive Rotates (path : Path) (w₀ : World) : List Nat → World → Prop
  | present {n : Nat} {bytes : Bytes} (h : w₀.fs.find path = .ok n)
      (hb : w₀.fs.bytes? n = some bytes) : Rotates path w₀ [n] w₀
  | absent {f : Fault} (h : w₀.fs.find path = .error f) : Rotates path w₀ [] w₀
  | files {files files' : List Nat} {w : World} {change : Edit} (h : Rotates path w₀ files w)
      (hs : FileStep path w (w.fs.edit change) files files') :
      Rotates path w₀ files' (w.move (.edit change))
  | routine {files : List Nat} {w : World} {m : Move} (h : Rotates path w₀ files w)
      (hm : m.routine = true) : Rotates path w₀ files (w.move m)

/-- Where a tailer that was just started reads its first file from: where it stands, or from the
beginning if the file was shorter than that. -/
def Tailer.StartsAt (fs : FileSystem) (t : Tailer) (start : Nat) : Prop :=
  match t.engine.source with
  | .opened hd => start = hd.position ∨ start = 0 ∧ fs.length hd.object < hd.position
  | .away _ => start = 0

namespace Rotation

open Tailer Engine

variable {c : Outset} {w : World} {files files' : List Nat} {fs' : FileSystem}

/-! ## Changes of the files -/

theorem Leads.mem {path : Path} {fs : FileSystem} {here : Option Nat} {ahead : List Nat}
    (h : Leads path fs here ahead) {m : Nat} (hm : fs.find path = .ok m) :
    m ∈ here.toList ++ ahead := by
  cases ahead with
  | nil => simp [h m hm]
  | cons n more =>
    cases more with
    | nil => simp [Except.ok.inj (h.symm.trans hm)]
    | cons => exact h.elim

theorem Leads.step {here : Option Nat} {done ahead : List Nat} (h : Leads c.path w.fs here ahead)
    (hf : files = done ++ (here.toList ++ ahead)) (hnodup : files.Nodup)
    (hopen : ∀ hd, w.tailer.engine.source = .opened hd → here = some hd.object)
    (hs : FileStep c.path w fs' files files') :
    ∃ ahead', files' = done ++ (here.toList ++ ahead') ∧ Leads c.path fs' here ahead' := by
  -- one that came and was not opened yet does not leave
  have hstays : ∀ m, ahead = [m] → fs'.find c.path = .ok m := by
    rintro m rfl
    by_contra hne
    obtain ⟨hd, hsrc, rfl⟩ := hs.leaves m h hne
    rw [hf, hopen hd hsrc] at hnodup
    have := (List.nodup_append.1 hnodup).2.1
    simp at this
  obtain ⟨rfl, hcomes⟩ | ⟨n, hn, rfl, hfind, -⟩ := hs.comes
  · refine ⟨ahead, hf, ?_⟩
    cases ahead with
    | nil => exact fun m hm => h m (hcomes m hm)
    | cons m more =>
      cases more with
      | nil => exact hstays m rfl
      | cons => exact h
  · cases ahead with
    | nil => exact ⟨[n], by rw [hf]; simp, hfind⟩
    | cons m more =>
      cases more with
      | nil =>
        have := Except.ok.inj ((hstays m rfl).symm.trans hfind)
        subst this
        exact absurd (by rw [hf]; simp) hn
      | cons => exact h.elim

theorem Underway.edit (hu : Underway c files w) {change : Edit}
    (hs : FileStep c.path w (w.fs.edit change) files files')
    (hstays : c.config.reopen = false → ∃ n, (w.fs.edit change).find c.path = .ok n ∧
      files' = [n]) : Underway c files' (w.move (.edit change)) where
  accounted := hu.accounted.move _
  config := hu.config
  path := hu.path
  on := hu.on
  follow := hu.follow
  stays := hstays
  nodup := by
    obtain ⟨rfl, -⟩ | ⟨n, hn, rfl, -⟩ := hs.comes
    · exact hu.nodup
    · exact List.nodup_append.2 ⟨hu.nodup, List.nodup_singleton n,
        fun a ha b hb => by rintro rfl; exact hn (List.mem_singleton.1 hb ▸ ha)⟩
  regular := by
    intro n hn
    have grown (hn : n ∈ files) : ∃ bytes, (w.fs.edit change).bytes? n = some bytes := by
      obtain ⟨old, more, -, hnew, -⟩ := hs.grows n hn
      exact ⟨_, hnew⟩
    obtain ⟨rfl, -⟩ | ⟨m, -, rfl, -, hm⟩ := hs.comes
    · exact grown hn
    · rcases List.mem_append.1 hn with hn | hn
      · exact grown hn
      · rw [List.mem_singleton.1 hn]; exact hm
  floor := by
    intro n hn
    have grown (hn : files.head? = some n) : c.length ≤ (w.fs.edit change).length n := by
      obtain ⟨old, more, hold, hnew, -⟩ := hs.grows n (List.mem_of_mem_head? hn)
      have := hu.floor n hn
      rw [FileSystem.length_of_bytes? hold] at this
      rw [FileSystem.length_of_bytes? hnew, List.length_append]
      omega
    obtain ⟨rfl, -⟩ | ⟨m, -, rfl, -⟩ := hs.comes
    · exact grown hn
    · cases files with
      | nil => rw [hu.empty rfl]; exact Nat.zero_le _
      | cons k files => exact grown hn
  empty := by
    rintro rfl
    obtain ⟨rfl, -⟩ | ⟨m, -, hm, -⟩ := hs.comes
    · exact hu.empty rfl
    · cases files <;> cases hm

theorem shares_edit {start : Nat} {done ahead : List Nat} {here : Option Nat}
    (hu : Underway c files w) (hf : files = done ++ (here.toList ++ ahead))
    (hl : Leads c.path w.fs here ahead)
    (hopen : ∀ hd, w.tailer.engine.source = .opened hd → here = some hd.object)
    (hs : FileStep c.path w fs' files files') :
    shares c.config fs' (fun _ => true) start done =
      shares c.config w.fs (fun _ => true) start done := by
  have hdisjoint := hu.nodup
  rw [hf] at hdisjoint
  have hdisjoint := List.disjoint_of_nodup_append hdisjoint
  refine shares_congr start fun n hn => ⟨hs.bytes_eq (hf ▸ List.mem_append_left _ hn) ?_ ?_, rfl⟩
  · exact fun hfind => hdisjoint hn (hl.mem hfind)
  · rintro ⟨hd, stage, hsrc, rfl, -, -⟩
    refine hdisjoint hn (List.mem_append_left _ ?_)
    rw [hopen hd hsrc]
    exact List.mem_singleton.2 rfl

/-- Behind the drain nobody writes to the file any more. -/
theorem Stands.edit {s : Section} {bytes more : Bytes} {stage : Stage}
    (h : Stands c.path w.fs s bytes w.tailer.engine stage)
    (hstage : w.tailer.engine.phase.stage? = some stage) (hmem : s.object ∈ files)
    (hfile : w.fs.bytes? s.object = some bytes) {fs' : FileSystem}
    (hnew : fs'.bytes? s.object = some (bytes ++ more))
    (hs : FileStep c.path w fs' files files') :
    Stands c.path fs' s (bytes ++ more) w.tailer.engine stage := by
  have hkept (hne : w.fs.find c.path ≠ .ok s.object) (hat : stage.attends = false) :
      bytes ++ more = bytes := by
    have hatt : ¬ w.tailer.engine.Attends s.object := by
      rintro ⟨hd, stage', -, -, hstage', hat'⟩
      rw [Option.some.inj (hstage'.symm.trans hstage), hat] at hat'
      cases hat'
    exact Option.some.inj (hnew.symm.trans ((hs.bytes_eq hmem hne hatt).trans hfile))
  cases stage with
  | read goal =>
    cases goal with
    | catchUp => trivial
    | drain => exact hs.find_ne hmem h
  | clear | check => trivial
  | flush | leave =>
    rw [hkept h.1 rfl]
    exact ⟨hs.find_ne hmem h.1, h.2⟩
  | arm | look | reopen | finish => exact h.elim

/-- A change of the files leaves the tailer where it stands. -/
theorem Whereabouts.edit (hu : Underway c files w) (h : Whereabouts c files w) {change : Edit}
    (hs : FileStep c.path w (w.fs.edit change) files files') :
    Whereabouts c files' (w.move (.edit change)) := by
  cases h with
  | seeking done ahead start hf h =>
    have hopen : ∀ hd, w.tailer.engine.source = .opened hd → none = some hd.object :=
      fun hd hsrc => absurd hsrc h.not_opened
    obtain ⟨ahead', hf', hl⟩ := h.leads.step hf hu.nodup hopen hs
    exact .seeking done ahead' start hf'
      ⟨h.away, h.first, h.begins, h.given.trans (shares_edit hu hf h.leads hopen hs).symm, hl,
        fun hlooked => absurd hlooked Bool.false_ne_true⟩
  | reading s past done ahead bytes start hf h =>
    have hopen : ∀ hd, w.tailer.engine.source = .opened hd → some s.object = some hd.object :=
      fun hd hsrc => by rw [h.opened_eq hsrc]
    have hmem : s.object ∈ files := hf ▸ List.mem_append_right done List.mem_cons_self
    obtain ⟨ahead', hf', hl⟩ := h.leads.step hf hu.nodup hopen hs
    obtain ⟨old, more, hold, hnew, -⟩ := hs.grows s.object hmem
    obtain rfl : bytes = old := Option.some.inj (h.file.symm.trans hold)
    obtain ⟨stage, hstage, hst⟩ := h.stands
    refine .reading s past done ahead' (bytes ++ more) start hf'
      ⟨h.sections, h.handle, hnew, ?_, h.base, h.begins,
        h.given.trans (shares_edit hu hf h.leads hopen hs).symm, hl,
        ⟨stage, hstage, hst.edit hstage hmem h.file hnew hs⟩,
        fun hlooked => absurd hlooked Bool.false_ne_true⟩
    refine h.input.trans ?_
    rw [List.drop_append]
    exact List.prefix_append _ _

/-! ## Other moves -/

theorem Underway.routine (hu : Underway c files w) {m : Move} (hm : m.routine = true) :
    Underway c files (w.move m) := by
  have accounted := hu.accounted.move m
  cases m with
  | work =>
    have ht := turn_step hu.accounted.sound.fits w.fs w.now
    exact ⟨accounted, ht.config_eq.trans hu.config, ht.path_eq.trans hu.path,
      ⟨ht.stopRequested_eq.trans hu.on.1, ht.closed_eq.trans hu.on.2⟩, hu.follow, hu.nodup,
      hu.regular, hu.floor, hu.empty, hu.stays⟩
  | wait => exact { hu with accounted }
  | notify => exact { hu with accounted }
  | receive => exact { hu with accounted }
  | edit => cases hm
  | stop => cases hm
  | cleanup => cases hm

theorem Whereabouts.routine (hu : Underway c files w) (h : Whereabouts c files w) {m : Move}
    (hm : m.routine = true) : Whereabouts c files (w.move m) := by
  -- all of them but the engine's leave everything where it is
  have keep {w' : World} (hfs : w'.fs = w.fs) (hsec : w'.sections = w.sections)
      (hsrc : w'.tailer.engine.source = w.tailer.engine.source)
      (hspl : w'.tailer.engine.splitter = w.tailer.engine.splitter)
      (hconf : w'.tailer.engine.config = w.tailer.engine.config)
      (hph : w'.tailer.engine.phase = w.tailer.engine.phase) (hl : w'.looked = w.looked) :
      Whereabouts c files w' := by
    cases h with
    | reading s past done ahead bytes start hf h =>
      obtain ⟨stage, hstage, hst⟩ := h.stands
      refine .reading s past done ahead bytes start hf (h.keep s.lines hfs (hsec.trans h.sections)
        hsrc ⟨stage, by rw [hph, hstage], ?_⟩ (by rw [hl, hph]; exact h.quiet))
      cases stage <;> unfold Stands at hst ⊢ <;> rw [hspl, hconf] <;> exact hst
    | seeking done ahead start hf h =>
      exact .seeking done ahead start hf
        (h.keep hfs (by rw [hsec]) hsrc (by rw [hl, hph]; exact h.quiet))
  cases m with
  | work =>
    have ht := turn_step hu.accounted.sound.fits w.fs w.now
    cases h with
    | reading s past done ahead bytes start hf h => exact h.turn hu hf ht
    | seeking done ahead start hf h => exact h.turn hu hf ht
  | wait => exact keep rfl rfl rfl rfl rfl rfl rfl
  | notify => exact keep rfl rfl rfl rfl rfl rfl rfl
  | receive => exact keep rfl rfl rfl rfl rfl rfl rfl
  | edit => cases hm
  | stop => cases hm
  | cleanup => cases hm

/-! ## Runs -/

def outset (fs : FileSystem) (t : Tailer) : Outset where
  path := t.engine.path
  config := t.engine.config
  offset := t.engine.splitter.consumed
  length :=
    match t.engine.source with
    | .opened hd => fs.length hd.object
    | .away _ => 0

variable {fs : FileSystem} {path : Path} {config : Config} {t : Tailer}

theorem underway_start (h : Tailer.start fs path config = .ok t) (hf : config.follow = true)
    (hfiles : (∃ n bytes, fs.find path = .ok n ∧ fs.bytes? n = some bytes ∧ files = [n]) ∨
      (∃ f, fs.find path = .error f) ∧ files = [] ∧ config.reopen = true) :
    Underway (outset fs t) files (World.start fs t) ∧
      Whereabouts (outset fs t) files (World.start fs t) := by
  have accounted := World.accounted_start h
  obtain ⟨-, ⟨n, offset, ho, -, rfl⟩ | ⟨f, ho, -, -, rfl⟩⟩ := start_cases h
  · have hfind := FileSystem.find_of_openFile ho
    obtain ⟨n', bytes, hfind', hb, rfl⟩ | ⟨⟨f, hfind'⟩, -⟩ := hfiles
    · obtain rfl := Except.ok.inj (hfind.symm.trans hfind')
      refine ⟨⟨accounted, rfl, rfl, ⟨rfl, rfl⟩, hf, List.nodup_singleton n, ?_, ?_, nofun,
        fun _ => ⟨n, hfind, rfl⟩⟩, ?_⟩
      · exact fun m hm => ⟨bytes, List.mem_singleton.1 hm ▸ hb⟩
      · rintro _ ⟨⟩
        exact le_refl (fs.length n)
      · refine .reading (.ofSession ⟨n, FileSystem.identify n, offset⟩) [] [] [] bytes offset rfl
          ⟨rfl, rfl, hb, List.nil_prefix, rfl, .inl rfl, rfl, ?_, ⟨_, rfl, trivial⟩, nofun⟩
        exact fun m hm => congrArg some (Except.ok.inj (hfind.symm.trans hm))
    · cases hfind.symm.trans hfind'
  · obtain ⟨n, bytes, hfind, hb, -⟩ | ⟨⟨f', hfind⟩, rfl, hr⟩ := hfiles
    · cases (FileSystem.openFile_of_bytes? hfind hb).symm.trans ho
    · refine ⟨⟨accounted, rfl, rfl, ⟨rfl, rfl⟩, hf, List.nodup_nil, nofun, nofun, fun _ => rfl,
        fun hr' => absurd (hr.symm.trans hr') nofun⟩, ?_⟩
      exact .seeking [] [] 0 rfl ⟨⟨none, rfl, nofun⟩, fun _ => rfl, .inl rfl, rfl,
        fun m hm => absurd (hfind.symm.trans hm) nofun, nofun⟩

theorem startsAt_of_start {start : Nat} (h : Tailer.start fs path config = .ok t)
    (hs : (outset fs t).Start start) : t.StartsAt fs start := by
  obtain ⟨-, ⟨n, offset, -, -, rfl⟩ | ⟨f, -, -, -, rfl⟩⟩ := start_cases h
  · exact hs
  · exact hs.elim id And.left

/-- No further file has come to a path that leads nowhere. -/
theorem ahead_eq_nil_of_missing {fs : FileSystem} {ahead : List Nat}
    (hl : Leads c.path fs none ahead) (hnone : ∀ m, fs.find c.path ≠ .ok m) : ahead = [] := by
  match ahead, hl with
  | [], _ => rfl
  | [m], hl => exact absurd hl (hnone m)

theorem ahead_eq_nil_of_find {fs : FileSystem} {done ahead : List Nat} {n : Nat}
    (hl : Leads c.path fs (some n) ahead) (hfind : fs.find c.path = .ok n)
    (hnodup : (done ++ n :: ahead).Nodup) : ahead = [] := by
  match ahead, hl with
  | [], _ => rfl
  | [m], hl =>
    rw [Except.ok.inj (hfind.symm.trans hl)] at hnodup
    have := (List.nodup_append.1 hnodup).2.1
    simp at this

/-- All lines of a file were given out that the engine waits at the end of. -/
theorem Reading.lines_of_quiet {s : Section} {past : List Section} {done ahead : List Nat}
    {bytes : Bytes} {start due : Nat} {next : Stage} (hu : Underway c files w)
    (h : Reading c w s past done ahead bytes start)
    (hph : w.tailer.engine.phase = .asleep due true next) (hfind : w.fs.find c.path = .ok s.object)
    (hin : s.input = bytes.drop s.base) :
    s.lines = share c.config s.base false s.object bytes := by
  obtain ⟨s', past', flushed, hsec, -, ho⟩ := hu.accounted.ledger.open h.handle
  obtain ⟨rfl, rfl⟩ := List.cons.inj (h.sections.symm.trans hsec)
  have hst := h.stands_of next (by rw [hph]; rfl)
  have hover : w.tailer.engine.phase.over = false := by
    rw [hph]
    cases next <;> first | rfl | exact absurd hfind hst.1 | exact hst.elim
  obtain rfl := ho.not_flushed hover
  have hrest := ho.rest (by rw [hph]; exact Phase.ne_ended rfl)
  rw [hph, hu.accounted.sound.limit, hu.config] at hrest
  exact (List.append_nil _).symm.trans (hrest.trans (script_eq_share hin false))

/-- When the engine waits and has looked, every file was given out. -/
theorem texts_of_quiet (hu : Underway c files w) (h : Whereabouts c files w) (hq : w.Quiet)
    (hd : w.tailer.queue = []) :
    ∃ start, c.Start start ∧
      texts w.taken = shares c.config w.fs (fun n => w.fs.find c.path ≠ .ok n) start files := by
  obtain ⟨hlooked, due, next, hph⟩ := hq
  have htaken := hu.accounted.told
  rw [hd, List.append_nil] at htaken
  have hnodup := hu.nodup
  cases h with
  | seeking done ahead start hf h =>
    have hnone := h.quiet hlooked due next hph
    rw [ahead_eq_nil_of_missing h.leads hnone, List.append_nil] at hf
    refine ⟨start, h.begins, ?_⟩
    rw [htaken, h.given, hf]
    exact shares_congr start fun n hn => ⟨rfl, (decide_eq_true (hnone n)).symm⟩
  | reading s past done ahead bytes start hf h =>
    obtain ⟨hfind, hin⟩ := h.quiet hlooked due next hph
    obtain rfl := ahead_eq_nil_of_find h.leads hfind (hf ▸ hnodup)
    have hlines := h.lines_of_quiet hu hph hfind hin
    refine ⟨start, h.begins, ?_⟩
    have hleft : decide (w.fs.find c.path ≠ .ok s.object) = false :=
      decide_eq_false (not_not.2 hfind)
    rw [htaken, h.sections, told_cons, h.given, hlines, hf, shares_concat, hleft, h.file,
      ← h.base]
    congr 1
    refine shares_congr start fun n hn => ⟨rfl, Eq.symm (decide_eq_true_iff.2 ?_)⟩
    intro hn'
    rw [Except.ok.inj (hn'.symm.trans hfind)] at hn
    rw [hf] at hnodup
    exact (List.disjoint_of_nodup_append hnodup) hn List.mem_cons_self

end Rotation

theorem Rotates.course {fs : FileSystem} {path : Path} {config : Config} {t : Tailer}
    (h : Tailer.start fs path config = .ok t) (hf : config.follow = true)
    (hr : config.reopen = true) {files : List Nat} {w : World}
    (hw : Rotates path (World.start fs t) files w) :
    Rotation.Underway (Rotation.outset fs t) files w ∧
      Rotation.Whereabouts (Rotation.outset fs t) files w := by
  have hpath : path = (Rotation.outset fs t).path := (Tailer.engine_path_start h).symm
  have hreopen : (Rotation.outset fs t).config.reopen = true :=
    (congrArg Config.reopen (Tailer.engine_config_start h)).trans hr
  induction hw with
  | present hn hb => exact Rotation.underway_start h hf (.inl ⟨_, _, hn, hb, rfl⟩)
  | absent hn => exact Rotation.underway_start h hf (.inr ⟨⟨_, hn⟩, rfl, hr⟩)
  | files _ hs ih =>
    obtain ⟨hu, hw⟩ := ih
    rw [hpath] at hs
    exact ⟨hu.edit hs fun hr' => absurd (hreopen.symm.trans hr') nofun, hw.edit hu hs⟩
  | routine _ hm ih => exact ⟨ih.1.routine hm, ih.2.routine ih.1 hm⟩

/-- **No line is lost, duplicated or reordered across rotations.** -/
theorem lines_across_rotations {fs : FileSystem} {path : Path} {config : Config} {t : Tailer}
    (h : Tailer.start fs path config = .ok t) (hf : config.follow = true)
    (hr : config.reopen = true) {files : List Nat} {w : World}
    (hw : Rotates path (World.start fs t) files w) (hq : w.Quiet) (hd : w.tailer.queue = []) :
    ∃ start, t.StartsAt fs start ∧
      texts w.taken = shares config w.fs (fun n => w.fs.find path ≠ .ok n) start files := by
  obtain ⟨hu, hw⟩ := hw.course h hf hr
  obtain ⟨start, hs, htexts⟩ := Rotation.texts_of_quiet hu hw hq hd
  refine ⟨start, Rotation.startsAt_of_start h hs, ?_⟩
  rw [htexts, ← Tailer.engine_path_start h, ← Tailer.engine_config_start h]
  rfl

theorem Rotates.works {path : Path} {w₀ w : World} {files : List Nat}
    (h : Rotates path w₀ files w) (count : Nat) : Rotates path w₀ files (w.works count) := by
  have run (moves : List Move) : ∀ v, Rotates path w₀ files v → (∀ m ∈ moves, m.routine = true) →
      Rotates path w₀ files (v.run moves) := by
    induction moves with
    | nil => exact fun v hv _ => hv
    | cons m moves ih =>
      intro v hv hm
      obtain ⟨hm, hmoves⟩ := List.forall_mem_cons.1 hm
      exact ih _ (hv.routine hm) hmoves
  exact run _ w h fun m hm => by rw [List.eq_of_mem_replicate hm]; rfl

namespace Sample

def firstBytes : Bytes := [0x78, carriageReturn, lineFeed, 0x79]

theorem fileStep_renamed : FileStep name ((World.start files tailer).works 3)
    (((World.start files tailer).works 3).fs.edit (.rename name other)) [1] [1] where
  grows := List.forall_mem_singleton.2 ⟨firstBytes, [], by decide, by decide, .inl rfl⟩
  leaves := by
    intro n hn _
    have hfind : ((World.start files tailer).works 3).fs.find name = .ok 1 := by decide
    obtain rfl := Except.ok.inj (hfind.symm.trans hn)
    exact ⟨⟨1, FileSystem.identify 1, 4⟩, by decide, rfl⟩
  comes := by
    refine .inl ⟨rfl, fun n hn => ?_⟩
    have hfind : renamed.fs.find name = .error (.system .noEntry) := by decide
    cases hfind.symm.trans hn

theorem fileStep_replaced : FileStep name renamed
    (renamed.fs.edit (.append name [0x7A, lineFeed])) [1] [1, 2] where
  grows := List.forall_mem_singleton.2 ⟨firstBytes, [], by decide, by decide, .inl rfl⟩
  leaves := by
    intro n hn _
    have hfind : renamed.fs.find name = .error (.system .noEntry) := by decide
    cases hfind.symm.trans hn
  comes := .inr ⟨2, by decide, rfl, by decide, [0x7A, lineFeed], by decide⟩

theorem rotates_rotated : Rotates name (World.start files tailer) [1, 2] rotated := by
  have hbytes : (World.start files tailer).fs.bytes? 1 = some firstBytes := by decide
  have hpresent : Rotates name (World.start files tailer) [1] (World.start files tailer) :=
    .present (by decide) hbytes
  have hmoved := ((hpresent.works 3).files fileStep_renamed).files fileStep_replaced
  exact (hmoved.works 18).routine (m := .receive none) rfl

end Sample

theorem lines_across_rotations_rotated :
    Sample.rotated.Quiet ∧ Sample.rotated.tailer.queue = [] ∧
      ∃ start, Sample.tailer.StartsAt Sample.files start ∧
        texts Sample.rotated.taken = shares Sample.config Sample.rotated.fs
          (fun n => Sample.rotated.fs.find Sample.name ≠ .ok n) start [1, 2] := by
  have hquiet : Sample.rotated.Quiet := ⟨by decide, 250, .clear, by decide⟩
  have hqueue : Sample.rotated.tailer.queue = [] := by decide
  exact ⟨hquiet, hqueue, lines_across_rotations Sample.start_eq rfl rfl Sample.rotates_rotated
    hquiet hqueue⟩

end LogFollower
