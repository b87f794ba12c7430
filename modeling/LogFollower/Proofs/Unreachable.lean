import LogFollower.Proofs.Abreast

/-!
# A path that cannot be followed for a while

A look can fail for another reason than that there is nothing at the path: a file stands where a
directory should, or links go round in a circle. The engine reports that and tries again; it keeps
its file, and the file may grow meanwhile. `lines_past_obstacles` says that such failures leave the
lines of text as they are, whatever their number and wherever they come, and that each report says
where the line before it ended.

The reports are found by what a step adds to the lines underway (`Attentive.adds`): some lines of
text, or one report, which is made when all lines of what was read are in the channel
(`Attentive.committed_eq`).
-/

namespace LogFollower

/-- A file only grows, and its path leads to it or cannot be followed for another reason than that
there is nothing at its end. Nobody stops the tailer. -/
def Obstructed (path : Path) (n : Nat) (w : World) : Move → Prop
  | .edit change => (w.fs.edit change).NotGone path n ∧
      ∃ old more, w.fs.bytes? n = some old ∧ (w.fs.edit change).bytes? n = some (old ++ more)
  | .stop => False
  | .cleanup => False
  | _ => True

theorem OnlyGrows.obstructed {path : Path} {n : Nat} {w : World} {m : Move}
    (h : OnlyGrows path n w m) : Obstructed path n w m := by
  cases m with
  | edit change => exact ⟨.inl h.1, h.2⟩
  | stop | cleanup => exact h
  | _ => trivial

/-- Each report of an error has no text, names the file, and says where the last line of text before
it ended. -/
def ReportsPlaced (start : Nat) (identifier : FileIdentifier) (lines : List Line) : Prop :=
  ∀ before l, before ++ [l] <+: lines → l.isError = true →
    l.text = "" ∧ l.identifier = some identifier ∧ l.offset = lastOffset start before

namespace ReportsPlaced

variable {start : Nat} {identifier : FileIdentifier} {lines more : List Line}

theorem mono (h : ReportsPlaced start identifier more) (hp : lines <+: more) :
    ReportsPlaced start identifier lines :=
  fun before l hl => h before l (hl.trans hp)

theorem append_texts (h : ReportsPlaced start identifier lines)
    (hmore : ∀ l ∈ more, l.isError = false) : ReportsPlaced start identifier (lines ++ more) := by
  intro before l hl he
  rcases List.prefix_or_prefix_of_prefix hl (List.prefix_append lines more) with hin | hout
  · exact h before l hin he
  -- the line ends the lines before, or comes behind them and is a line of text
  rcases List.prefix_concat_iff.1 hout with heq | ⟨between, rfl⟩
  · exact h before l (heq ▸ List.prefix_rfl) he
  · rw [List.append_assoc, List.prefix_append_right_inj] at hl
    have hmem : l ∈ more := hl.subset (List.mem_append_right _ (List.mem_singleton.2 rfl))
    rw [hmore l hmem] at he
    cases he

theorem append_report (h : ReportsPlaced start identifier lines) {error : TailError} {offset : Nat}
    (ho : offset = lastOffset start lines) :
    ReportsPlaced start identifier (lines ++ [.ofError error offset (some identifier)]) := by
  intro before l hl he
  rcases List.prefix_concat_iff.1 hl with heq | hin
  · obtain ⟨rfl, hline⟩ := List.append_inj' heq rfl
    obtain rfl := List.singleton_inj.1 hline
    exact ⟨rfl, rfl, ho⟩
  · exact h before l hin he

end ReportsPlaced

theorem lastOffset_texts (start : Nat) (lines : List Line) :
    lastOffset start (texts lines) = lastOffset start lines := by
  unfold lastOffset texts
  rw [List.filter_filter]
  simp only [Bool.and_self]

namespace Attentive

open Tailer Engine

variable {path : Path} {config : Config} {n : Nat} {w : World} {s : Section} {bytes : Bytes}

theorem committed_eq (h : Attentive path config n w) (hs : Holding w s [] bytes) :
    w.tailer.engine.splitter.committed = lastOffset s.base w.stream := by
  obtain ⟨hcut, htexts⟩ := h.reading hs
  rw [hcut, Section.committed_splitter s h.limit_ne_zero, ← lastOffset_texts s.base w.stream,
    htexts]
  rfl

theorem identifier_eq (h : Attentive path config n w) :
    w.tailer.engine.identifier = some (FileSystem.identify n) := by
  obtain ⟨position, ho⟩ := h.opened
  unfold Engine.identifier
  rw [ho]

end Attentive

/-- A tailer on a file that grows while its path is obstructed now and then. -/
structure Hampered (path : Path) (config : Config) (n o : Nat) (w : World) : Prop where
  attentive : Attentive path config n w
  reads : ∃ s bytes, Abreast path w s [] bytes ∧ s.object = n ∧ s.base = o
  reports : ReportsPlaced o (FileSystem.identify n) w.stream

namespace Hampered

open Tailer

variable {path : Path} {config : Config} {n o : Nat} {w : World}

theorem work (h : Hampered path config n o w) : Hampered path config n o (w.move .work) := by
  obtain ⟨s, bytes, hs, hobject, hbase⟩ := h.reads
  obtain ⟨s', hs', hobject', hbase'⟩ := h.attentive.reads_on (m := .work) hs rfl
  refine ⟨h.attentive.routine rfl, ⟨s', bytes, hs', hobject'.trans hobject, hbase'.trans hbase⟩, ?_⟩
  have ht := turn_step h.attentive.accounted.sound.fits w.fs w.now
  obtain ⟨more, hstream, hmore⟩ | ⟨stage, error, next, -, -, hstream⟩ := h.attentive.adds ht
  · show ReportsPlaced o _ (w.after _).stream
    rw [hstream]
    exact h.reports.append_texts hmore
  · show ReportsPlaced o _ (w.after _).stream
    rw [hstream, Engine.errorLine, h.attentive.identifier_eq]
    exact h.reports.append_report (by rw [h.attentive.committed_eq hs.toHolding, hbase])

/-- Whatever obstructs the path, the engine reads on in its file, and its reports are right. -/
theorem move (h : Hampered path config n o w) {m : Move} (hm : Obstructed path n w m) :
    Hampered path config n o (w.move m) := by
  obtain ⟨s, bytes, hs, hobject, hbase⟩ := h.reads
  cases m with
  | edit change =>
    obtain ⟨hthere, old, more, hold, hnew⟩ := hm
    obtain rfl := Option.some.inj (hold.symm.trans (hobject ▸ hs.file))
    exact ⟨h.attentive.edit hthere, ⟨s, _, hs.grow (hobject ▸ hnew), hobject, hbase⟩, h.reports⟩
  | work => exact h.work
  | wait | notify =>
    exact ⟨h.attentive.routine rfl, ⟨s, bytes, hs.outer nofun fun _ => nofun, hobject, hbase⟩,
      h.reports⟩
  | receive max =>
    exact ⟨h.attentive.routine rfl, ⟨s, bytes, hs.outer nofun fun _ => nofun, hobject, hbase⟩,
      w.stream_receive max ▸ h.reports⟩
  | stop | cleanup => exact hm.elim

theorem texts_eq (h : Hampered path config n o w) (hq : w.Quiet) {now : Bytes}
    (hb : w.fs.bytes? n = some now) :
    texts (w.taken ++ w.tailer.queue) = linesFrom config.maxLineSize o n now := by
  obtain ⟨s, bytes, hs, hobject, hbase⟩ := h.reads
  obtain rfl := Option.some.inj (hb.symm.trans (hobject ▸ hs.file))
  obtain ⟨-, -, -, hlines⟩ := hs.caughtUp h.attentive.accounted hq
  rw [h.attentive.accounted.told, hs.sections, told_cons, hlines, hobject, hbase,
    h.attentive.config_eq]
  rfl

end Hampered

theorem hampered_start {fs : FileSystem} {path : Path} {config : Config} {t : Tailer} {n o : Nat}
    {bytes : Bytes} (h : Tailer.start fs path config = .ok t) (hf : config.follow = true)
    (hn : fs.find path = .ok n) (hb : fs.bytes? n = some bytes)
    (ho : config.startOffset (FileSystem.identify n) bytes.length = .ok o)
    (hle : o ≤ bytes.length) : Hampered path config n o (World.start fs t) := by
  refine ⟨attentive_start h hf hn hb ho, ⟨_, bytes, abreast_start h hn hb ho hle, rfl, rfl⟩, ?_⟩
  rw [stream_start h]
  intro before l hl
  exact absurd (List.prefix_nil.1 hl) (by simp)

/-- Failures to follow the path do not disturb the stream. Each of them is reported without a
text, for the file that is open, at the offset where the last line of text before the report ended.
When the engine waits, the lines of text are those of the file, and those that any run gives out in
which the path always leads to the file, once the file has the same content. -/
theorem lines_past_obstacles {fs : FileSystem} {path : Path} {config : Config} {t : Tailer}
    {n o : Nat} {bytes : Bytes} (h : Tailer.start fs path config = .ok t)
    (hf : config.follow = true) (hn : fs.find path = .ok n) (hb : fs.bytes? n = some bytes)
    (ho : config.startOffset (FileSystem.identify n) bytes.length = .ok o)
    (hle : o ≤ bytes.length) {w : World}
    (hw : (World.start fs t).Reaches (Obstructed path n) w) :
    (∀ before l, before ++ [l] <+: w.taken ++ w.tailer.queue → l.isError = true →
        l.text = "" ∧ l.identifier = some (FileSystem.identify n) ∧
          l.offset = lastOffset o before) ∧
      ∃ now, w.fs.bytes? n = some now ∧
        (w.Quiet → texts (w.taken ++ w.tailer.queue) = linesFrom config.maxLineSize o n now ∧
          ∀ w' : World, (World.start fs t).Reaches (OnlyGrows path n) w' →
            w'.fs.bytes? n = some now → w'.Quiet →
            texts (w'.taken ++ w'.tailer.queue) = texts (w.taken ++ w.tailer.queue)) := by
  have hstart := hampered_start h hf hn hb ho hle
  have hreached : Hampered path config n o w := hw.invariant hstart fun u m hu hm => hu.move hm
  obtain ⟨now, hnow⟩ := hreached.attentive.regular
  refine ⟨hreached.reports.mono ?_, now, hnow, fun hq => ⟨hreached.texts_eq hq hnow, ?_⟩⟩
  · rw [World.stream, ← List.append_assoc]
    exact List.prefix_append _ _
  · intro w' hw' hnow' hq'
    have hreached' : Hampered path config n o w' :=
      hw'.invariant hstart fun u m hu hm => hu.move hm.obstructed
    rw [hreached'.texts_eq hq' hnow', hreached.texts_eq hq hnow]

namespace Sample

def third : Path := ⟨[0x63]⟩

def doubled : World := ((World.start files tailer).works 3).move (.edit (.hardlink name other))

/-- A link that leads to itself takes the place of the first name, and the engine meets it. -/
def looped : World :=
  ((doubled.move (.edit (.symlink third name))).move (.edit (.rename third name))).works 5

def restored : World :=
  ((((looped.move (.edit (.append other [0x7A, lineFeed]))).move (.edit (.rename other name))).move
    (.wait 250)).works 7).move (.receive none)

theorem reaches_restored : (World.start files tailer).Reaches (Obstructed name 1) restored := by
  have hstart : (World.start files tailer).Reaches (Obstructed name 1)
      (World.start files tailer) := .here
  have hfirst := World.reaches_works hstart (fun _ => trivial) 3
  have hdoubled := hfirst.move (m := .edit (.hardlink name other))
    ⟨.inl (by decide), firstBytes, [], by decide, by decide⟩
  have hlinked := hdoubled.move (m := .edit (.symlink third name))
    ⟨.inl (by decide), firstBytes, [], by decide, by decide⟩
  have hlooped := hlinked.move (m := .edit (.rename third name))
    ⟨.inr ⟨.system .tooManyLinks, by decide, rfl⟩, firstBytes, [], by decide, by decide⟩
  have hgrown := (World.reaches_works hlooped (fun _ => trivial) 5).move
    (m := .edit (.append other [0x7A, lineFeed]))
    ⟨.inr ⟨.system .tooManyLinks, by decide, rfl⟩, firstBytes, [0x7A, lineFeed], by decide,
      by decide⟩
  have hback := hgrown.move (m := .edit (.rename other name))
    ⟨.inl (by decide), firstBytes ++ [0x7A, lineFeed], [], by decide, by decide⟩
  have hwoken := hback.move (m := .wait 250) trivial
  exact (World.reaches_works hwoken (fun _ => trivial) 7).move (m := .receive none) trivial

end Sample

theorem lines_past_obstacles_restored :
    Sample.restored.Quiet ∧ Sample.restored.taken.map Line.isError = [false, true, false] ∧
      (∀ before l, before ++ [l] <+: Sample.restored.taken ++ Sample.restored.tailer.queue →
        l.isError = true → l.text = "" ∧ l.identifier = some (FileSystem.identify 1) ∧
          l.offset = lastOffset 0 before) ∧
      texts (Sample.caughtUp.taken ++ Sample.caughtUp.tailer.queue) =
        texts (Sample.restored.taken ++ Sample.restored.tailer.queue) := by
  have hfind : Sample.files.find Sample.name = .ok 1 := by decide
  have hbytes : Sample.files.bytes? 1 = some Sample.firstBytes := by decide
  have hquiet : Sample.restored.Quiet := ⟨by decide, 500, .clear, by decide⟩
  obtain ⟨hreports, now, hnow, hlines⟩ := lines_past_obstacles Sample.start_eq rfl hfind hbytes
    (by decide) (Nat.zero_le _) Sample.reaches_restored
  have hsame : Sample.caughtUp.fs.bytes? 1 = some now :=
    (show Sample.caughtUp.fs.bytes? 1 = Sample.restored.fs.bytes? 1 by decide).trans hnow
  have hquiet' : Sample.caughtUp.Quiet := ⟨by decide, 250, .clear, by decide⟩
  exact ⟨hquiet, by decide, hreports,
    (hlines hquiet).2 Sample.caughtUp Sample.reaches_caughtUp hsame hquiet'⟩

end LogFollower
