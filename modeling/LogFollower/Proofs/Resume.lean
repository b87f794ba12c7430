import LogFollower.Proofs.OneShot
import LogFollower.Proofs.Seek.Written
import LogFollower.Proofs.Splitter.Lines

/-!
# Starting again behind a line

A line hands out the position behind it. Written down and read again, the position lets another
one-shot run go on where the first stood, though the file has grown meanwhile: `resume_after_line`.
Against another file the position means its beginning.

This needs that splitting has no memory: from the end of a piece on, be it a whole line or what the
limit cut off, the split goes on as if it had started there (`linesFrom_append`).
-/

namespace LogFollower

variable {limit : Option Nat} {start k n : Nat} {l : Line}

/-! ## The lines of a file -/

/-- The complete lines of a file from an offset on. -/
def linesFrom (limit : Option Nat) (start n : Nat) (bytes : Bytes) : List Line :=
  (Greedy.pieces limit start (bytes.drop start)).map (Line.ofPiece (some (FileSystem.identify n)))

theorem linesFrom_eq_push (hl : limit ≠ some 0) (start n : Nat) (bytes : Bytes) :
    linesFrom limit start n bytes = ((Splitter.start start limit).push (bytes.drop start)).1.map
      (Line.ofPiece (some (FileSystem.identify n))) := by
  rw [Splitter.push_start hl]
  rfl

theorem piece_of_linesFrom {bytes : Bytes} (h : (linesFrom limit start n bytes)[k]? = some l) :
    ∃ p, (Greedy.pieces limit start (bytes.drop start))[k]? = some p ∧
      l = Line.ofPiece (some (FileSystem.identify n)) p ∧ start ≤ bytes.length := by
  rw [linesFrom, List.getElem?_map, Option.map_eq_some_iff] at h
  obtain ⟨p, hp, rfl⟩ := h
  refine ⟨p, hp, rfl, ?_⟩
  by_contra hlt
  rw [List.drop_of_length_le (by omega), Greedy.pieces,
    Greedy.split_of_cut_none (Greedy.cut_nil _)] at hp
  cases hp

theorem mem_linesFrom (hl : limit ≠ some 0) {bytes : Bytes}
    (h : (linesFrom limit start n bytes)[k]? = some l) :
    l.identifier = some (FileSystem.identify n) ∧ l.offset ≤ bytes.length := by
  obtain ⟨p, hp, rfl, hstart⟩ := piece_of_linesFrom h
  have hstop := Greedy.stop_le hl hp
  rw [List.length_drop] at hstop
  refine ⟨rfl, ?_⟩
  show p.stop ≤ bytes.length
  omega

/-- The lines of a file that grew are those up to one that it had before, and then those from
the offset of that line on. -/
theorem linesFrom_append (hl : limit ≠ some 0) {old : Bytes}
    (h : (linesFrom limit start n old)[k]? = some l) (new : Bytes) :
    linesFrom limit start n (old ++ new) =
      (linesFrom limit start n old).take (k + 1) ++ linesFrom limit l.offset n (old ++ new) := by
  obtain ⟨p, hp, rfl, hstart⟩ := piece_of_linesFrom h
  obtain ⟨hk, -⟩ := List.getElem?_eq_some_iff.1 hp
  -- the split of the grown file begins with that of the old one, so the piece is in both
  have hgrown := Greedy.pieces_append hl start (old.drop start) new
  have hp' : (Greedy.pieces limit start (old.drop start ++ new))[k]? = some p := by
    rw [hgrown, List.getElem?_append_left hk, hp]
  obtain ⟨hle, hsplit⟩ := Greedy.pieces_from_stop hl hp'
  rw [hgrown, List.take_append_of_le_length hk, ← hgrown,
    ← List.drop_append_of_le_length hstart, List.drop_drop, Nat.add_sub_cancel' hle] at hsplit
  show _ = _ ++ linesFrom limit p.stop n (old ++ new)
  unfold linesFrom
  rw [hsplit, List.map_append, List.map_take]

/-! ## Runs from a position -/

/-- The configuration reads once from a position on, and gives out complete lines only. -/
structure Config.ReadsOnce (config : Config) (limit : Option Nat) (seek : SeekInfo) : Prop where
  valid : config.fault? = none
  once : config.follow = false
  complete : config.completeLines = true
  limit : config.maxLineSize = limit
  location : config.location = some seek

/-- What one-shot runs give out from a position on, whatever else they are told. -/
def DeliversFrom (fs : FileSystem) (path : Path) (limit : Option Nat) (seek : SeekInfo)
    (lines : List Line) : Prop :=
  ∀ config : Config, config.ReadsOnce limit seek → Delivers fs path config lines

variable {fs fs' : FileSystem} {path : Path} {seek : SeekInfo}

theorem exists_readsOnce (hl : limit ≠ some 0) (seek : SeekInfo) :
    ∃ config : Config, config.ReadsOnce limit seek := by
  refine ⟨{ Config.default with
    location := some seek, completeLines := true, maxLineSize := limit }, ?_, rfl, rfl, rfl, rfl⟩
  simp [Config.fault?, Config.default, Config.defaultPollInterval, Config.defaultChannelCapacity,
    hl]

theorem DeliversFrom.unique (hl : limit ≠ some 0) {lines lines' : List Line}
    (h : DeliversFrom fs path limit seek lines) (h' : DeliversFrom fs path limit seek lines') :
    lines = lines' := by
  obtain ⟨config, hc⟩ := exists_readsOnce hl seek
  exact (h config hc).unique (h' config hc)

/-- A run from a position on gives out the lines of the file from where the position is in it. -/
theorem deliversFrom_linesFrom {bytes : Bytes} {offset : Nat} (hn : fs.find path = .ok n)
    (hb : fs.bytes? n = some bytes)
    (ho : seek.resolve (FileSystem.identify n) bytes.length = .ok offset) :
    DeliversFrom fs path limit seek (linesFrom limit offset n bytes) := by
  intro config hc
  have hoffset : config.startOffset (FileSystem.identify n) bytes.length = .ok offset := by
    unfold Config.startOffset
    rw [hc.location]
    exact ho
  have h := delivers_share hc.valid hc.once hn hb hoffset
  rwa [share_eq config offset (.inr hc.complete), hc.limit] at h

/-- **Starting again behind a line.** Of the lines that a one-shot run over a file gives out, take
any, write its position down and read it again. A run from there over the file, to which more was
appended, gives out what one run over the whole file does behind that line. If another file is at
the path, the run gives out its lines from its beginning. No file is longer than a signed 64-bit
number can say. -/
theorem resume_after_line {old new : Bytes} (hl : limit ≠ some 0)
    (hn : fs.find path = .ok n) (hb : fs.bytes? n = some old)
    (hn' : fs'.find path = .ok n) (hb' : fs'.bytes? n = some (old ++ new))
    (hmax : (old.length : Int) ≤ maxOffset) :
    ∃ first whole, DeliversFrom fs path limit .start first ∧
      DeliversFrom fs' path limit .start whole ∧
      ∀ k l, first[k]? = some l → ∃ seek, SeekInfo.parse l.seekInfo.json = .ok seek ∧
        (∃ second, DeliversFrom fs' path limit seek second ∧
          first.take (k + 1) ++ second = whole) ∧
        ∀ fs'' m bytes, fs''.find path = .ok m → fs''.bytes? m = some bytes →
          FileSystem.identify m ≠ FileSystem.identify n →
          ∃ lines, DeliversFrom fs'' path limit seek lines ∧
            DeliversFrom fs'' path limit .start lines := by
  refine ⟨linesFrom limit 0 n old, linesFrom limit 0 n (old ++ new),
    deliversFrom_linesFrom hn hb rfl, deliversFrom_linesFrom hn' hb' rfl, fun k l hk => ?_⟩
  obtain ⟨hid, hoffset⟩ := mem_linesFrom hl hk
  have hread := SeekInfo.parse_json (SeekInfo.offset_resume l.offset l.identifier)
  refine ⟨l.seekInfo, hread, ⟨linesFrom limit l.offset n (old ++ new), ?_,
    (linesFrom_append hl hk new).symm⟩, ?_⟩
  · have hle : (l.offset : Int) ≤ maxOffset := (Int.ofNat_le.2 hoffset).trans hmax
    have hsame : ∀ id, l.identifier = some id → id = FileSystem.identify n :=
      fun id h => Option.some.inj (h.symm.trans hid)
    refine deliversFrom_linesFrom hn' hb' ?_
    show (SeekInfo.resume l.offset l.identifier).resolve _ _ = _
    rw [SeekInfo.resolve_resume hsame, min_eq_left hle]
    rfl
  · intro fs'' m bytes hfind hbytes hne
    have hzero : l.seekInfo.resolve (FileSystem.identify m) bytes.length = .ok 0 :=
      SeekInfo.resolve_of_ne hid hne.symm bytes.length
    exact ⟨linesFrom limit 0 m bytes, deliversFrom_linesFrom hfind hbytes hzero,
      deliversFrom_linesFrom hfind hbytes rfl⟩

namespace Sample

def begun : FileSystem :=
  ⟨[.directory [(name.bytes, .object 1)], .regular [0x61, 0x62, 0x63, 0x64]]⟩

def ended : FileSystem :=
  ⟨[.directory [(name.bytes, .object 1)],
    .regular ([0x61, 0x62, 0x63, 0x64] ++ [carriageReturn, lineFeed])]⟩

def exchanged : FileSystem :=
  ⟨[.directory [(name.bytes, .object 2)], .regular [], .regular [0x7A, lineFeed]]⟩

/-- Read once from a position, with lines of three bytes. -/
def once (seek : SeekInfo) : Config :=
  { Config.default with location := some seek, completeLines := true, maxLineSize := some 3 }

theorem readsOnce_once (seek : SeekInfo) : (once seek).ReadsOnce (some 3) seek :=
  ⟨rfl, rfl, rfl, rfl, rfl⟩

/-- What the limit cuts off the line. -/
def cutOff : Line := .ofText "abc" 3 (some (FileSystem.identify 1))

theorem linesFrom_begun : linesFrom (some 3) 0 1 [0x61, 0x62, 0x63, 0x64] = [cutOff] := by
  rw [linesFrom_eq_push (by decide)]
  decide

end Sample

theorem resume_after_line_cut :
    ∃ second whole lines, Sample.cutOff :: second = whole ∧
      Delivers Sample.ended Sample.name (Sample.once .start) whole ∧
      Delivers Sample.ended Sample.name (Sample.once Sample.cutOff.seekInfo) second ∧
      Delivers Sample.exchanged Sample.name (Sample.once .start) lines ∧
      Delivers Sample.exchanged Sample.name (Sample.once Sample.cutOff.seekInfo) lines := by
  have hbegun : Sample.begun.find Sample.name = .ok 1 := by decide
  have hended : Sample.ended.find Sample.name = .ok 1 := by decide
  obtain ⟨first, whole, hfirst, hwhole, h⟩ := resume_after_line
    (show some 3 ≠ some 0 by decide) hbegun rfl hended rfl (by decide)
  have hlines : first = [Sample.cutOff] := by
    rw [← Sample.linesFrom_begun]
    exact hfirst.unique (by decide) (deliversFrom_linesFrom hbegun rfl rfl)
  obtain ⟨seek, hread, ⟨second, hsecond, hsum⟩, hother⟩ := h 0 Sample.cutOff (by rw [hlines]; rfl)
  have hwritten := SeekInfo.parse_json (SeekInfo.offset_resume 3 (some (FileSystem.identify 1)))
  obtain rfl : Sample.cutOff.seekInfo = seek := Except.ok.inj (hwritten.symm.trans hread)
  obtain ⟨lines, hlines', hstart⟩ := hother Sample.exchanged 2 [0x7A, lineFeed] (by decide) rfl
    (by decide)
  rw [hlines] at hsum
  exact ⟨second, whole, lines, hsum, hwhole _ (Sample.readsOnce_once _),
    hsecond _ (Sample.readsOnce_once _), hstart _ (Sample.readsOnce_once _),
    hlines' _ (Sample.readsOnce_once _)⟩

end LogFollower
