import LogFollower.Line
import LogFollower.Proofs.Seek.Members

/-!
# Positions that are written and read again

What is written is an object text with the three members that count (`objectText_json`), so it is
read as itself, whatever its identifier spells: `parse_json`. Its offset has to be one that a signed
64-bit number holds, and `resume` makes no others. So a line's position may be kept as a text:
`survives_writing`.
-/

namespace LogFollower

/-! ## Texts -/

namespace Json.Grammar

theorem spells_jsonChar (c : Char) : Spells c (Text.jsonChar c) := by
  unfold Text.jsonChar
  split
  case h_8 hquote hslash _ _ _ _ _ =>
    split_ifs with hc
    · have hzero : HexDigit '0' 0 := ⟨by decide, .inl rfl⟩
      have hunit := CodeUnit.mk hzero hzero
        (⟨by omega, .inl rfl⟩ : HexDigit (Nat.digitChar (c.toNat / 16)) (c.toNat / 16))
        (⟨by omega, .inl rfl⟩ : HexDigit (Nat.digitChar (c.toNat % 16)) (c.toNat % 16))
      rw [zero_mul, zero_add, zero_mul, zero_add, Nat.div_add_mod'] at hunit
      exact .unit hunit
    · exact .plain hquote hslash hc
  all_goals exact .short (by decide)

theorem quotes_json (text : String) : Quotes text (Text.json text).toList := by
  refine ⟨text.toList.map Text.jsonChar, ?_, ?_⟩
  · rw [List.forall₂_map_right_iff, List.forall₂_same]
    exact fun c _ => spells_jsonChar c
  · rw [Text.json, String.toList_ofList, List.flatMap_def]
    rfl

end Json.Grammar

namespace SeekInfo

open Json Json.Grammar

/-! ## Positions -/

def writtenIdentifier : Option FileIdentifier → List Char
  | some id => (Text.json id.token).toList
  | none => ['n', 'u', 'l', 'l']

theorem identifies_written (identifier : Option FileIdentifier) :
    Identifies identifier (writtenIdentifier identifier) := by
  cases identifier with
  | none => rfl
  | some id => exact quotes_json id.token

theorem value_written (identifier : Option FileIdentifier) :
    Value (writtenIdentifier identifier) := by
  cases identifier with
  | none => exact .null
  | some id => exact .string (quotes_json id.token).literal

def writtenMembers (s : SeekInfo) : List (String × List Char) :=
  [("Offset", (toString s.offset).toList), ("Whence", (toString s.whence.number).toList),
    ("FileIdentifier", writtenIdentifier s.identifier)]

theorem objectText_json (s : SeekInfo) : ObjectText s.writtenMembers s.json := by
  refine ⟨.bare _, [(.bare "\"Offset\"".toList, .bare (toString s.offset).toList),
    (.bare "\"Whence\"".toList, .bare (toString s.whence.number).toList),
    (.bare "\"FileIdentifier\"".toList, .bare (writtenIdentifier s.identifier))], _, ?_, rfl,
    .parts (List.cons_ne_nil _ _), ?_⟩
  · unfold json
    cases s.identifier with
    | none => simp [writtenIdentifier, Padded.text, Padded.bare, commas, entry,
        List.intercalate_cons_cons]
    | some id => simp [writtenIdentifier, Padded.text, Padded.bare, commas, entry,
        List.intercalate_cons_cons]
  · have hoffset : Value (toString s.offset).toList := .number (number_int s.offset)
    have hwhence : Value (toString s.whence.number).toList := .number (number_int s.whence.number)
    exact .cons ⟨quotes_known (by decide : "Offset" ∈ knownKeys), rfl, hoffset⟩
      (.cons ⟨quotes_known (by decide : "Whence" ∈ knownKeys), rfl, hwhence⟩
        (.cons ⟨quotes_known (by decide : "FileIdentifier" ∈ knownKeys), rfl,
          value_written s.identifier⟩ .nil))

/-- A written position is read as itself. -/
theorem parse_json {s : SeekInfo} (h : minOffset ≤ s.offset ∧ s.offset ≤ maxOffset) :
    parse s.json = .ok s := by
  have hkeys : s.writtenMembers.map Prod.fst = knownKeys := rfl
  refine parse_gives h (objectText_json s) ?_ ?_ ?_ ?_ (.inr ?_)
  · simp only [writtenMembers, List.forall_mem_cons]
    exact ⟨gives_offset s, gives_whence s, gives_identifier (identifies_written s.identifier),
      List.forall_mem_nil _⟩
  all_goals
    rw [hkeys]
    decide

theorem offset_resume (offset : Nat) (identifier : Option FileIdentifier) :
    minOffset ≤ (resume offset identifier).offset ∧
      (resume offset identifier).offset ≤ maxOffset := by
  have hoffset : (resume offset identifier).offset = min (offset : Int) maxOffset := rfl
  rw [hoffset]
  unfold minOffset maxOffset
  omega

/-- A position survives being written, whatever its identifier spells. So a line that names its
file can be gone on from when its position was kept as a text: in that file, however long it is by
then, reading starts behind the line, and in every other file at the beginning. -/
theorem survives_writing :
    (∀ s : SeekInfo, minOffset ≤ s.offset ∧ s.offset ≤ maxOffset → parse s.json = .ok s) ∧
    ∀ (l : Line) (id : FileIdentifier), l.identifier = some id → (l.offset : Int) ≤ maxOffset →
      ∃ s, parse l.seekInfo.json = .ok s ∧
        (∀ length, s.resolve id length = .ok l.offset) ∧
        ∀ other length, other ≠ id → s.resolve other length = .ok 0 := by
  refine ⟨fun s hs => parse_json hs, fun l id hid hle => ?_⟩
  have hown : ∀ id', l.identifier = some id' → id' = id := by
    rw [hid]
    rintro _ ⟨⟩
    rfl
  refine ⟨l.seekInfo, parse_json (offset_resume _ _), fun length => ?_, fun other length hne => ?_⟩
  · rw [Line.seekInfo, resolve_resume hown, min_eq_left hle, Int.toNat_natCast]
  · exact resolve_of_ne hid hne.symm length

theorem survives_writing_escaped :
    let id : FileIdentifier := ⟨"\"\\\x01\n𝄞"⟩
    let s : SeekInfo := ⟨minOffset, .finish, some id⟩
    let l : Line := .ofText "x" maxOffset.toNat (some id)
    id.json = "\"\\\"\\\\\\u0001\\n𝄞\"" ∧ parse s.json = .ok s ∧
      ∃ p, parse l.seekInfo.json = .ok p ∧ p.resolve id 0 = .ok maxOffset.toNat ∧
        p.resolve ⟨"1:1"⟩ 0 = .ok 0 := by
  intro id s l
  obtain ⟨hwritten, hlines⟩ := survives_writing
  obtain ⟨p, hp, hown, hother⟩ := hlines l id rfl (by decide)
  exact ⟨by decide +kernel, hwritten s (by decide), p, hp, hown 0, hother _ 0 (by decide)⟩

end SeekInfo
end LogFollower
