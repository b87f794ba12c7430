import LogFollower.Program.Follow
import LogFollower.Proofs.Arguments
import LogFollower.Proofs.Program.Live

/-!
# The command, and the positions that it prints

Without a flag to follow, the command reads a file once and ends: it prints the lines of the file
from where it starts, and what is left over behind the last line feed (`run_eq`). The offset and the
identity that it prints with a line say where the next line begins, so a command that is given them
prints what comes after the line (`printed_positions_resume`). To the identity of another file it
prints the whole file.
-/

namespace LogFollower.Follow

open Greedy Arguments

variable {fs : FileSystem} {n start : Nat} {bytes : Bytes} {l : Line}

/-! ## All lines of a file -/

/-- The lines of a file from an offset on, what is left over included. -/
def allLines (start n : Nat) (bytes : Bytes) : List Line :=
  (pieces none start (bytes.drop start) ++ remainder none start (bytes.drop start)).map
    (Line.ofPiece (some (FileSystem.identify n)))

theorem allLines_eq {parts : List Bytes} {left : Bytes}
    (h : Divides none (bytes.drop start) parts left) (n : Nat) :
    allLines start n bytes =
      (place start (parts ++ leftover left)).map (Line.ofPiece (some (FileSystem.identify n))) := by
  have hsplit := (divides_iff (Option.some_ne_none 0).symm).1 h
  unfold allLines
  rw [pieces_append_remainder (Option.some_ne_none 0).symm, rest, hsplit]

/-- Behind a line, the lines of a file are those that come after it. -/
theorem allLines_behind {k : Nat} (h : (allLines start n bytes)[k]? = some l) :
    allLines l.offset n bytes = (allLines start n bytes).drop (k + 1) ∧
      l.offset ≤ start + (bytes.drop start).length := by
  obtain ⟨parts, left, hdiv⟩ : ∃ parts left, Divides none (bytes.drop start) parts left :=
    ⟨_, _, (divides_iff (Option.some_ne_none 0).symm).2 rfl⟩
  obtain ⟨parts', left', hdiv', hparts⟩ := hdiv.drop k
  rw [allLines_eq hdiv, List.getElem?_map, Option.map_eq_some_iff] at h
  obtain ⟨p, hp, rfl⟩ := h
  have hstop : p.stop = _ := stop_place hp
  have hflat := congrArg List.length (hdiv.flatten (Option.some_ne_none 0).symm)
  have htake := congrArg (fun ps => (List.flatten ps).length)
    (List.take_append_drop (k + 1) (parts ++ leftover left))
  simp only [List.flatten_append, List.length_append] at hflat htake
  rw [List.drop_drop, ← hstop] at hdiv'
  constructor
  · show allLines p.stop n bytes = _
    rw [allLines_eq hdiv', allLines_eq hdiv, hparts, ← List.map_drop, drop_place, ← hstop]
  · show p.stop ≤ _
    omega

/-! ## What is printed -/

/-- A line as it is printed, behind its offset and the identity of its file if that is asked for. -/
def shown (offsets : Bool) (id : FileIdentifier) (l : Line) : String :=
  if offsets then toString l.offset ++ "\t" ++ id.token ++ "\t" ++ l.text else l.text

theorem format_allLines (a : Arguments) (start n : Nat) (bytes : Bytes) :
    (allLines start n bytes).map (format a) =
      (allLines start n bytes).map fun l =>
        .out (shown a.showOffsets (FileSystem.identify n) l) := by
  unfold allLines
  rw [List.map_map, List.map_map]
  refine List.map_congr_left fun p _ => ?_
  show (if a.showOffsets then Printed.out _ else .out _) = .out (if a.showOffsets then _ else _)
  exact (apply_ite Printed.out _ _ _).symm

theorem ofPrinted_out (exitCode : Nat) (lines : List Line) (text : Line → String) :
    Outcome.ofPrinted exitCode (lines.map fun l => .out (text l)) =
      ⟨exitCode, unlines (lines.map text), ""⟩ := by
  unfold Outcome.ofPrinted
  rw [List.filterMap_map, List.filterMap_map]
  show Outcome.mk exitCode (unlines (lines.filterMap (some ∘ text)))
    (unlines (lines.filterMap fun _ => none)) = _
  rw [List.filterMap_eq_map, List.filterMap_none]
  rfl

/-- What the command does that reads a file once: it prints the lines of the file from where it
starts. -/
theorem run_eq {arguments : List String} {a : Arguments} (hparse : parse arguments = .ok a)
    (hv : a.config.fault? = none) (hf : a.config.follow = false)
    (hn : fs.find (.ofString a.path) = .ok n) (hb : fs.bytes? n = some bytes)
    (ho : a.config.startOffset (FileSystem.identify n) bytes.length = .ok start) :
    run fs arguments .never = some ⟨0,
      unlines ((allLines start n bytes).map (shown a.showOffsets (FileSystem.identify n))), ""⟩ := by
  obtain ⟨t, ht⟩ := (delivers_share hv hf hn hb ho).starts
  have hshare : share a.config start true n bytes = allLines start n bytes := by
    unfold share allLines
    rw [if_pos ⟨rfl, rfl⟩]
    rfl
  have hgives := World.gives_share ht hf hn hb ho none
  have hlength : (share a.config start true n bytes).length ≤ fs.size + 1 := by
    have hsize : bytes.length ≤ fs.size :=
      FileSystem.length_of_bytes? hb ▸ fs.length_le_size n
    exact (length_share_le hv start n bytes).trans (Nat.succ_le_succ hsize)
  obtain ⟨live, hlive, hprinted, -⟩ :=
    Live.run_of_gives hgives hlength (Nat.zero_le _) (format a) []
  rw [hshare, List.nil_append, format_allLines] at hprinted
  unfold run
  simp only [hparse, ht, hlive, Option.map_some, hprinted, ofPrinted_out]

/-! ## Command lines -/

def offsetFlags (offsets : Bool) : List Flag := if offsets then [.showOffsets] else []

def fromStart (offsets : Bool) (file : String) : List String :=
  words (.fromStart :: offsetFlags offsets) none file

def fromPosition (offsets : Bool) (offset : Nat) (id : FileIdentifier) (file : String) :
    List String :=
  words (offsetFlags offsets) (some (offset, id)) file

example : fromStart true "app.log" = ["--from-start", "--show-offsets", "app.log"] := rfl

example : fromPosition false 7 ⟨"1:2"⟩ "app.log" =
    ["--offset", "7", "--identifier", "1:2", "app.log"] := by decide

section Runs

variable {file : String} (hfile : Operand file) (hn : fs.find (.ofString file) = .ok n)
  (hb : fs.bytes? n = some bytes)

include hn in
theorem ne_empty_of_find : file ≠ "" := by
  rintro rfl
  cases hn

include hfile hn hb

theorem run_fromStart (offsets : Bool) :
    run fs (fromStart offsets file) .never = some ⟨0,
      unlines ((allLines 0 n bytes).map (shown offsets (FileSystem.identify n))), ""⟩ := by
  have hflags : (Flag.fromStart :: offsetFlags offsets).Nodup := by cases offsets <;> decide
  have hw : Written (.fromStart :: offsetFlags offsets) none := fun _ _ h => by cases h
  have hparse := parse_words hflags hfile (ne_empty_of_find hn) hw
  cases offsets <;> exact run_eq hparse rfl rfl hn hb rfl

/-- From a position on, what is printed begins where the position resolves to. -/
theorem run_fromPosition (offsets : Bool) {offset : Nat} {id : FileIdentifier}
    (ho : offset < 0x10000000000000000) (hid : Operand id.token)
    (hstart : (SeekInfo.resume offset (some id)).resolve (FileSystem.identify n) bytes.length =
      .ok start) :
    run fs (fromPosition offsets offset id file) .never = some ⟨0,
      unlines ((allLines start n bytes).map (shown offsets (FileSystem.identify n))), ""⟩ := by
  have hflags : (offsetFlags offsets).Nodup := by cases offsets <;> decide
  have hw : Written (offsetFlags offsets) (some (offset, id)) := by
    intro _ _ h
    cases h
    exact ⟨by cases offsets <;> decide, ho, hid⟩
  have hparse := parse_words hflags hfile (ne_empty_of_find hn) hw
  cases offsets <;> exact run_eq hparse rfl rfl hn hb hstart

end Runs

/-- **The positions that are printed say where to go on.** From its start on, all lines of a file
are printed, each behind its offset and the identity of the file if that is asked for; they are the
parts of its bytes that line feeds end, and what is left over. Of a command that is given the offset
of one of them and the identity of the file, only the lines behind that one are printed, and all of
them if the identity is of another file. No file is longer than a signed 64-bit number can say. -/
theorem printed_positions_resume {file : String} (hfile : Operand file)
    (hn : fs.find (.ofString file) = .ok n) (hb : fs.bytes? n = some bytes)
    (hmax : (bytes.length : Int) ≤ maxOffset) :
    (∃ parts left, Divides none bytes parts left ∧ allLines 0 n bytes =
      (place 0 (parts ++ leftover left)).map (Line.ofPiece (some (FileSystem.identify n)))) ∧
    ∀ offsets,
      run fs (fromStart offsets file) .never = some ⟨0,
        unlines ((allLines 0 n bytes).map (shown offsets (FileSystem.identify n))), ""⟩ ∧
      ∀ k l, (allLines 0 n bytes)[k]? = some l →
        run fs (fromPosition offsets l.offset (FileSystem.identify n) file) .never = some ⟨0,
          unlines (((allLines 0 n bytes).drop (k + 1)).map
            (shown offsets (FileSystem.identify n))), ""⟩ ∧
        ∀ device object, FileIdentifier.ofObject device object ≠ FileSystem.identify n →
          run fs (fromPosition offsets l.offset (.ofObject device object) file) .never = some ⟨0,
            unlines ((allLines 0 n bytes).map (shown offsets (FileSystem.identify n))), ""⟩ := by
  have hdiv : Divides none (bytes.drop 0) (split none bytes).1 (rest none bytes) :=
    (divides_iff (Option.some_ne_none 0).symm).2 rfl
  refine ⟨⟨_, _, hdiv, allLines_eq hdiv n⟩, fun offsets =>
    ⟨run_fromStart hfile hn hb offsets, fun k l hl => ?_⟩⟩
  obtain ⟨hbehind, hle⟩ := allLines_behind hl
  rw [Nat.zero_add, List.drop_zero] at hle
  have hle' : (l.offset : Int) ≤ maxOffset := (Int.ofNat_le.2 hle).trans hmax
  have hsmall : l.offset < 0x10000000000000000 := by
    unfold maxOffset at hle'
    omega
  constructor
  · have hid : Operand (FileSystem.identify n).token := operand_ofObject _ _
    have hsame : ∀ id, some (FileSystem.identify n) = some id → id = FileSystem.identify n :=
      fun id h => (Option.some.inj h).symm
    have hresolve : (SeekInfo.resume l.offset (some (FileSystem.identify n))).resolve
        (FileSystem.identify n) bytes.length = .ok l.offset := by
      rw [SeekInfo.resolve_resume hsame, min_eq_left hle', Int.toNat_natCast]
    rw [run_fromPosition hfile hn hb offsets hsmall hid hresolve, hbehind]
  · intro device object hne
    have hresolve : (SeekInfo.resume l.offset (some (.ofObject device object))).resolve
        (FileSystem.identify n) bytes.length = .ok 0 := SeekInfo.resolve_of_ne rfl hne bytes.length
    rw [run_fromPosition hfile hn hb offsets hsmall (operand_ofObject device object) hresolve]

namespace Sample

def content : Bytes := [0x61, lineFeed, 0x62]

def files : FileSystem := ⟨[.directory [([0x6C], .object 1)], .regular content]⟩

def firstLine : Line := .ofText "a" 2 (some (FileSystem.identify 1))

def unfinished : Line := .ofText "b" 3 (some (FileSystem.identify 1))

theorem allLines_content : allLines 0 1 content = [firstLine, unfinished] := by
  have hline : lineFeed ∉ [(0x61 : UInt8)] := by decide
  have hrest : lineFeed ∉ [(0x62 : UInt8)] := by decide
  have hsplit : Divides none ([0x61] ++ lineFeed :: [0x62]) [[0x61] ++ [lineFeed]] [0x62] :=
    .line hline (fun _ h => by cases h) (.rest hrest fun _ h => by cases h)
  have hdiv : Divides none (content.drop 0) [[0x61] ++ [lineFeed]] [0x62] := hsplit
  rw [allLines_eq hdiv]
  decide

end Sample

theorem printed_positions_resume_unfinished :
    run Sample.files (fromStart true "l") .never =
      some ⟨0, "2\t66310:1\ta\n3\t66310:1\tb\n", ""⟩ ∧
    run Sample.files (fromPosition false 2 (FileSystem.identify 1) "l") .never =
      some ⟨0, "b\n", ""⟩ ∧
    run Sample.files (fromPosition false 3 (FileSystem.identify 1) "l") .never =
      some ⟨0, "", ""⟩ ∧
    run Sample.files (fromPosition false 2 (FileSystem.identify 2) "l") .never =
      some ⟨0, "a\nb\n", ""⟩ := by
  have hfile : Operand "l" := fun c rest h => by cases h
  have hfind : Sample.files.find (.ofString "l") = .ok 1 := rfl
  obtain ⟨-, h⟩ := printed_positions_resume hfile hfind rfl (by decide)
  rw [Sample.allLines_content] at h
  obtain ⟨hfirst, hother⟩ := (h false).2 0 Sample.firstLine rfl
  have hlast := ((h false).2 1 Sample.unfinished rfl).1
  refine ⟨(h true).1.trans ?_, hfirst.trans ?_, hlast.trans ?_,
    (hother FileSystem.device 2 (by decide)).trans ?_⟩
  all_goals decide

end LogFollower.Follow
