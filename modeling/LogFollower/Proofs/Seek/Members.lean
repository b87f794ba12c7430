import LogFollower.Proofs.Json.Nested
import LogFollower.Seek.Reader

/-!
# Positions among other members

The reader takes the members of an object one by one (`readMembers_member`): a known one into its
draft, and every other one not at all, whatever its value. So it reads what the known members give
(`parse_gives`), and what it reads had each of them once at most, and those that are required
(`count_of_parse`). `reads_known_members` has both, and the arrays.
-/

namespace LogFollower.SeekInfo

open Json Json.Grammar

/-! ## Members one by one -/

variable {d d' : Draft} {key : String} {value rest : List Token}

/-- A member whose value has these tokens. Only the first counts, and only for a known key. -/
def Draft.take (d : Draft) (key : String) (value : List Token) : Except ReadFault Draft :=
  (d.member? key (value.headD .bad)).getD (.ok d)

def readRest (rest : List Token) (d : Draft) : Except ReadFault SeekInfo :=
  match rest with
  | [.closeObject] => d.complete
  | .comma :: rest => readMembers d rest
  | _ => .error .malformed

theorem offsetOf_number {n : Int} (h : minOffset ≤ n ∧ n ≤ maxOffset) :
    offsetOf (.number (some n)) = .ok n := if_pos h

@[simp] theorem whenceOf_number (w : Whence) : whenceOf (.number (some w.number)) = .ok w := by
  cases w <;> rfl

def identifierToken : Option FileIdentifier → Token
  | some id => .string (some id.token)
  | none => .null

@[simp] theorem identifierOf_identifierToken (identifier : Option FileIdentifier) :
    identifierOf (identifierToken identifier) = .ok identifier := by
  cases identifier <;> rfl

theorem scalar_of_offsetOf {t : Token} {n : Int} (h : offsetOf t = .ok n) : t.scalar = true := by
  cases t <;> first | rfl | cases h

theorem scalar_of_whenceOf {t : Token} {w : Whence} (h : whenceOf t = .ok w) :
    t.scalar = true := by
  cases t <;> first | rfl | cases h

theorem scalar_of_identifierOf {t : Token} {i : Option FileIdentifier}
    (h : identifierOf t = .ok i) : t.scalar = true := by
  cases t <;> first | rfl | cases h

theorem ok_of_map {α β : Type} {x : Except ReadFault α} {f : α → β} {b : β}
    (h : x.map f = .ok b) : ∃ a, x = .ok a ∧ b = f a := by
  cases x with
  | error _ => cases h
  | ok a =>
    cases h
    exact ⟨a, rfl, rfl⟩

/-- What it takes to take a known member: a value that is one token, and no such member before. -/
theorem member?_cases {t : Token} (h : d.member? key t = some (.ok d')) :
    t.scalar = true ∧
      (key = "Offset" ∧ d.offset = none ∧ (∃ n, d' = { d with offset := some n }) ∨
        key = "Whence" ∧ d.whence = none ∧ (∃ w, d' = { d with whence := some w }) ∨
        key = "FileIdentifier" ∧ d.identifier = none ∧
          ∃ i, d' = { d with identifier := some i }) := by
  unfold Draft.member? at h
  split_ifs at h with hoffset hdone hwhence hdone hidentifier hdone
  · cases h
  · obtain ⟨n, hvalue, rfl⟩ := ok_of_map (Option.some.inj h)
    exact ⟨scalar_of_offsetOf hvalue, .inl ⟨hoffset, by simpa using hdone, n, rfl⟩⟩
  · cases h
  · obtain ⟨w, hvalue, rfl⟩ := ok_of_map (Option.some.inj h)
    exact ⟨scalar_of_whenceOf hvalue, .inr (.inl ⟨hwhence, by simpa using hdone, w, rfl⟩)⟩
  · cases h
  · obtain ⟨i, hvalue, rfl⟩ := ok_of_map (Option.some.inj h)
    exact ⟨scalar_of_identifierOf hvalue,
      .inr (.inr ⟨hidentifier, by simpa using hdone, i, rfl⟩)⟩

/-- A member is read, and what comes behind it with the draft that it leaves. -/
theorem readMembers_member (hvalue : Passed value) (d : Draft) (key : String)
    (rest : List Token) :
    readMembers d (.string (some key) :: .colon :: (value ++ rest)) =
      d.take key value >>= readRest rest := by
  have hskip := hvalue.skip rest
  obtain ⟨t, more, rfl, hbegins⟩ := hvalue.begins
  rw [List.cons_append] at hskip ⊢
  rw [readMembers]
  unfold Draft.take
  rw [List.headD_cons]
  split
  · rename_i f hmember
    rw [hmember]
    rfl
  · rename_i d' hmember
    -- a bracket would not have been taken, so there is nothing more to the value
    obtain ⟨hscalar, -⟩ := member?_cases hmember
    have hmore : more = [] := by
      rcases hbegins with ⟨-, hmore⟩ | rfl | rfl
      · exact hmore
      · cases hscalar
      · cases hscalar
    subst hmore
    rw [hmember]
    rfl
  · rename_i hmember
    rw [hmember]
    show _ = readRest rest d
    split
    · rename_i hrest
      rw [hskip] at hrest
      cases hrest
      rfl
    · rename_i more hrest
      rw [hskip] at hrest
      cases hrest
      rfl
    · rename_i hclose hcomma
      rw [hskip] at hclose hcomma
      unfold readRest
      split
      · exact absurd rfl hclose
      · exact absurd rfl (hcomma _)
      · rfl

/-! ## All members -/

def Draft.read (d : Draft) (m : String × List Char) : Except ReadFault Draft :=
  d.take m.1 (scanned m.2)

theorem readRest_members {members : List (String × List Char)}
    (h : ∀ m ∈ members, Passed (scanned m.2)) (d : Draft) :
    readRest ((members.map memberTokens).flatMap (.comma :: ·) ++ [.closeObject]) d =
      members.foldlM Draft.read d >>= Draft.complete := by
  induction members generalizing d with
  | nil => rfl
  | cons m members ih =>
    have hm := h m List.mem_cons_self
    have hmembers (d' : Draft) := ih (fun n hn => h n (List.mem_cons_of_mem m hn)) d'
    rw [List.foldlM_cons, bind_assoc, List.map_cons, List.flatMap_cons, List.append_assoc]
    show readMembers d (.string (some m.1) :: .colon :: (scanned m.2 ++ _)) = _
    rw [readMembers_member hm]
    exact bind_congr hmembers

theorem parse_object {members : List (String × List Char)} {text : String}
    (h : ObjectText members text) :
    parse text = members.foldlM Draft.read .empty >>= Draft.complete := by
  obtain ⟨hscan, hvalues⟩ := scan_object h
  unfold parse
  rw [hscan, ofTokens]
  cases members with
  | nil =>
    have hclose : readMembers .empty [.closeObject] = .error .malformed := by
      rw [readMembers]
      intro key value rest h
      cases h
    exact hclose
  | cons m members =>
    have hm := hvalues m List.mem_cons_self
    have hmembers := readRest_members fun n hn => hvalues n (List.mem_cons_of_mem m hn)
    rw [List.foldlM_cons, bind_assoc, List.map_cons, intercalate_comma, List.append_assoc]
    show readMembers .empty (.string (some m.1) :: .colon :: (scanned m.2 ++ _)) = _
    rw [readMembers_member hm]
    exact bind_congr hmembers

/-! ## What members give -/

def knownKeys : List String := ["Offset", "Whence", "FileIdentifier"]

theorem quotes_known (hkey : key ∈ knownKeys) : Quotes key ('"' :: (key.toList ++ ['"'])) := by
  have hplain : knownKeys.all (fun k => k.toList.all fun c =>
      c ≠ '"' ∧ c ≠ '\\' ∧ ¬ c.toNat < 32) = true := by decide
  exact quotes_plain (List.all_eq_true.mp hplain key hkey)

/-- The ways to write an identifier, or that there is none. -/
def Identifies : Option FileIdentifier → List Char → Prop
  | some id, cs => Quotes id.token cs
  | none, cs => cs = ['n', 'u', 'l', 'l']

/-- A member has its part of a position, if its key is known. An integer is written in one way
only. -/
structure Gives (s : SeekInfo) (m : String × List Char) : Prop where
  offset : m.1 = "Offset" → m.2 = (toString s.offset).toList
  whence : m.1 = "Whence" → m.2 = (toString s.whence.number).toList
  identifier : m.1 = "FileIdentifier" → Identifies s.identifier m.2

theorem gives_offset (s : SeekInfo) : s.Gives ("Offset", (toString s.offset).toList) where
  offset _ := rfl
  whence h := absurd h (show ¬ "Offset" = "Whence" by decide)
  identifier h := absurd h (show ¬ "Offset" = "FileIdentifier" by decide)

theorem gives_whence (s : SeekInfo) : s.Gives ("Whence", (toString s.whence.number).toList) where
  offset h := absurd h (show ¬ "Whence" = "Offset" by decide)
  whence _ := rfl
  identifier h := absurd h (show ¬ "Whence" = "FileIdentifier" by decide)

theorem gives_identifier {s : SeekInfo} {cs : List Char} (h : Identifies s.identifier cs) :
    s.Gives ("FileIdentifier", cs) where
  offset h := absurd h (show ¬ "FileIdentifier" = "Offset" by decide)
  whence h := absurd h (show ¬ "FileIdentifier" = "Whence" by decide)
  identifier _ := h

theorem gives_other (s : SeekInfo) {key : String} (h : key ∉ knownKeys) (cs : List Char) :
    s.Gives (key, cs) where
  offset hkey := absurd (show key ∈ knownKeys by rw [show key = "Offset" from hkey]; decide) h
  whence hkey := absurd (show key ∈ knownKeys by rw [show key = "Whence" from hkey]; decide) h
  identifier hkey :=
    absurd (show key ∈ knownKeys by rw [show key = "FileIdentifier" from hkey]; decide) h

theorem scanned_identifier {identifier : Option FileIdentifier} {cs : List Char}
    (h : Identifies identifier cs) : scanned cs = [identifierToken identifier] := by
  cases identifier with
  | none =>
    have hnull : cs = ['n', 'u', 'l', 'l'] := h
    rw [hnull]
    rfl
  | some id => exact (scans_quotes h).eq

theorem scanned_whence (w : Whence) :
    scanned (toString w.number).toList = [.number (some (w.number : Int))] :=
  (scans_int w.number).eq

/-- The draft of a position when some keys have been seen. -/
def Draft.seen (s : SeekInfo) (keys : List String) : Draft where
  offset := if "Offset" ∈ keys then some s.offset else none
  whence := if "Whence" ∈ keys then some s.whence else none
  identifier := if "FileIdentifier" ∈ keys then some s.identifier else none

variable {s : SeekInfo} {m : String × List Char} {members : List (String × List Char)}

/-- A member with its part of a position is taken, unless its key has been seen. -/
theorem read_seen (hs : minOffset ≤ s.offset ∧ s.offset ≤ maxOffset) (hm : s.Gives m)
    {keys : List String} (hnew : m.1 ∈ knownKeys → m.1 ∉ keys) :
    (Draft.seen s keys).read m = .ok (.seen s (m.1 :: keys)) := by
  obtain ⟨key, value⟩ := m
  obtain ⟨hoffset, hwhence, hidentifier⟩ := hm
  dsimp only at hoffset hwhence hidentifier hnew
  unfold Draft.read Draft.take
  by_cases ho : key = "Offset"
  · subst ho
    have hkeys := hnew (by decide)
    rw [hoffset rfl, (scans_int s.offset).eq]
    simp [Draft.member?, Draft.seen, hkeys, offsetOf_number hs, Except.map]
  · by_cases hw : key = "Whence"
    · subst hw
      have hkeys := hnew (by decide)
      rw [hwhence rfl, scanned_whence]
      simp [Draft.member?, Draft.seen, hkeys, Except.map]
    · by_cases hi : key = "FileIdentifier"
      · subst hi
        have hkeys := hnew (by decide)
        rw [scanned_identifier (hidentifier rfl)]
        simp [Draft.member?, Draft.seen, hkeys, Except.map]
      · simp [Draft.member?, Draft.seen, ho, hw, hi, Ne.symm ho, Ne.symm hw, Ne.symm hi]

theorem foldlM_seen (hs : minOffset ≤ s.offset ∧ s.offset ≤ maxOffset)
    (hmembers : ∀ m ∈ members, s.Gives m) {keys : List String}
    (honce : ∀ k ∈ knownKeys, (members.map Prod.fst).count k + keys.count k ≤ 1) :
    members.foldlM Draft.read (.seen s keys) =
      .ok (.seen s ((members.map Prod.fst).reverse ++ keys)) := by
  induction members generalizing keys with
  | nil => rfl
  | cons m members ih =>
    have hnew : m.1 ∈ knownKeys → m.1 ∉ keys := by
      intro hk hmem
      have hcount := honce m.1 hk
      have hpos := List.count_pos_iff.mpr hmem
      rw [List.map_cons, List.count_cons_self] at hcount
      omega
    have hkeys : ∀ k ∈ knownKeys,
        (members.map Prod.fst).count k + (m.1 :: keys).count k ≤ 1 := by
      intro k hk
      have hcount := honce k hk
      rw [List.map_cons, List.count_cons] at hcount
      rw [List.count_cons]
      omega
    rw [List.foldlM_cons, read_seen hs (hmembers m List.mem_cons_self) hnew, List.map_cons,
      List.reverse_cons, List.append_assoc]
    exact ih (fun n hn => hmembers n (List.mem_cons_of_mem m hn)) hkeys

/-- An object that gives a position is read as it. -/
theorem parse_gives (hs : minOffset ≤ s.offset ∧ s.offset ≤ maxOffset) {text : String}
    (h : ObjectText members text) (hmembers : ∀ m ∈ members, s.Gives m)
    (honce : ∀ k ∈ knownKeys, (members.map Prod.fst).count k ≤ 1)
    (hoffset : "Offset" ∈ members.map Prod.fst) (hwhence : "Whence" ∈ members.map Prod.fst)
    (hidentifier : s.identifier = none ∨ "FileIdentifier" ∈ members.map Prod.fst) :
    parse text = .ok s := by
  have hread : members.foldlM Draft.read (.seen s []) = _ := foldlM_seen hs hmembers honce
  have hempty : Draft.seen s [] = .empty := rfl
  rw [hempty, List.append_nil] at hread
  rw [parse_object h, hread]
  show Draft.complete (.seen s _) = _
  have hlast : (if "FileIdentifier" ∈ members.map Prod.fst then some s.identifier else none).getD
      none = s.identifier := by
    split_ifs with hmem
    · rfl
    · exact (hidentifier.resolve_right hmem).symm
  simp only [Draft.complete, Draft.seen, List.mem_reverse, if_pos hoffset, if_pos hwhence, hlast]

/-! ## What is refused -/

theorem unknown_of_member? {t : Token} (h : d.member? key t = none) : key ∉ knownKeys := by
  unfold Draft.member? at h
  split_ifs at h with hoffset hwhence hidentifier
  simp [knownKeys, hoffset, hwhence, hidentifier]

/-- How many members with a key a draft has. -/
def Draft.held (d : Draft) (key : String) : Nat :=
  if key = "Offset" then d.offset.isSome.toNat
  else if key = "Whence" then d.whence.isSome.toNat
  else if key = "FileIdentifier" then d.identifier.isSome.toNat
  else 0

theorem held_le (d : Draft) (key : String) : d.held key ≤ 1 := by
  unfold Draft.held
  split_ifs
  · exact Bool.toNat_le _
  · exact Bool.toNat_le _
  · exact Bool.toNat_le _
  · exact Nat.zero_le 1

theorem held_of_take (h : d.take key value = .ok d') {k : String} (hk : k ∈ knownKeys) :
    d'.held k = d.held k + if key = k then 1 else 0 := by
  unfold Draft.take at h
  cases hmember : d.member? key (value.headD .bad) with
  | none =>
    rw [hmember] at h
    cases h
    have hkey : key ≠ k := by
      rintro rfl
      exact unknown_of_member? hmember hk
    rw [if_neg hkey, add_zero]
  | some taken =>
    rw [hmember] at h
    have htaken : taken = .ok d' := h
    subst htaken
    have hk' : k = "Offset" ∨ k = "Whence" ∨ k = "FileIdentifier" := by
      simpa [knownKeys] using hk
    obtain ⟨-, hcases⟩ := member?_cases hmember
    rcases hcases with ⟨rfl, hnone, n, rfl⟩ | ⟨rfl, hnone, w, rfl⟩ | ⟨rfl, hnone, i, rfl⟩
    · rcases hk' with rfl | rfl | rfl <;> simp [Draft.held, hnone]
    · rcases hk' with rfl | rfl | rfl <;> simp [Draft.held, hnone]
    · rcases hk' with rfl | rfl | rfl <;> simp [Draft.held, hnone]

theorem held_of_foldlM (h : members.foldlM Draft.read d = .ok d') {k : String}
    (hk : k ∈ knownKeys) : d'.held k = d.held k + (members.map Prod.fst).count k := by
  induction members generalizing d with
  | nil =>
    cases h
    rfl
  | cons m members ih =>
    rw [List.foldlM_cons] at h
    cases hm : d.read m with
    | error f =>
      rw [hm] at h
      cases h
    | ok next =>
      rw [hm] at h
      have hnext := held_of_take hm hk
      have hrest := ih h
      simp only [List.map_cons, List.count_cons, beq_iff_eq]
      omega

theorem held_of_complete (h : d.complete = .ok s) :
    d.held "Offset" = 1 ∧ d.held "Whence" = 1 := by
  obtain ⟨offset, whence, identifier⟩ := d
  cases offset with
  | none => cases h
  | some n =>
    cases whence with
    | none => cases h
    | some w => exact ⟨rfl, rfl⟩

/-- What an object has to have to be read: every known key at most once, and two of them. -/
theorem count_of_parse {text : String} (h : ObjectText members text) (hs : parse text = .ok s) :
    (∀ k ∈ knownKeys, (members.map Prod.fst).count k ≤ 1) ∧
      "Offset" ∈ members.map Prod.fst ∧ "Whence" ∈ members.map Prod.fst := by
  rw [parse_object h] at hs
  cases hread : members.foldlM Draft.read .empty with
  | error f =>
    rw [hread] at hs
    cases hs
  | ok d =>
    rw [hread] at hs
    have hheld {k : String} (hk : k ∈ knownKeys) : d.held k = (members.map Prod.fst).count k := by
      have hempty : Draft.held .empty k = 0 := by
        unfold Draft.held
        split_ifs <;> rfl
      rw [held_of_foldlM hread hk, hempty, zero_add]
    obtain ⟨hoffset, hwhence⟩ := held_of_complete hs
    rw [hheld (by decide)] at hoffset hwhence
    refine ⟨fun k hk => hheld hk ▸ held_le d k, List.count_pos_iff.mp ?_, List.count_pos_iff.mp ?_⟩
    · omega
    · omega

/-! ## Arrays -/

/-- The values of a position in their order. Without an identifier there may be two of them. -/
inductive Lists (s : SeekInfo) : List (List Char) → Prop
  | three {identifier : List Char} (h : Identifies s.identifier identifier) :
      Lists s [(toString s.offset).toList, (toString s.whence.number).toList, identifier]
  | two (h : s.identifier = none) :
      Lists s [(toString s.offset).toList, (toString s.whence.number).toList]

/-- An array that lists a position is read as it. -/
theorem parse_lists (hs : minOffset ≤ s.offset ∧ s.offset ≤ maxOffset)
    {values : List (List Char)} {text : String} (h : ArrayText values text)
    (hvalues : s.Lists values) : parse text = .ok s := by
  obtain ⟨offset, whence, identifier⟩ := s
  have hoffset := offsetOf_number hs
  have hnumber := (scans_int offset).eq
  unfold parse
  rw [(scan_array h).1, ofTokens]
  cases hvalues with
  | @three written hwritten =>
    rw [List.map_cons, List.map_cons, List.map_singleton, hnumber, scanned_whence,
      scanned_identifier hwritten]
    show readValues [.number (some offset), .comma, .number (some whence.number), .comma,
      identifierToken identifier, .closeArray] = _
    simp only [readValues, hoffset, whenceOf_number, identifierOf_identifierToken]
    rfl
  | two hnone =>
    have hidentifier : identifier = none := hnone
    subst hidentifier
    rw [List.map_cons, List.map_singleton, hnumber, scanned_whence]
    show readValues [.number (some offset), .comma, .number (some whence.number),
      .closeArray] = _
    simp only [readValues, hoffset, whenceOf_number]
    rfl

theorem parse_short {values : List (List Char)} {text : String} (h : ArrayText values text)
    (hlength : values.length < 2) : ∃ f, parse text = .error f := by
  obtain ⟨hscan, hvalues⟩ := scan_array h
  unfold parse
  rw [hscan, ofTokens]
  cases values with
  | nil => exact ⟨.malformed, rfl⟩
  | cons v values =>
    have hnil : values = [] := by
      rw [List.length_cons] at hlength
      exact List.length_eq_zero_iff.mp (by omega)
    subst hnil
    obtain ⟨t, more, heq, hbegins⟩ := (hvalues v List.mem_cons_self).begins
    rw [List.map_singleton, List.intercalate_singleton, heq]
    rcases hbegins with ⟨-, rfl⟩ | rfl | rfl
    · have hread : readValues [t, .closeArray] = offsetOf t >>= fun _ => .error .malformed := rfl
      show ∃ f, readValues [t, .closeArray] = .error f
      rw [hread]
      cases offsetOf t with
      | error f => exact ⟨f, rfl⟩
      | ok n => exact ⟨.malformed, rfl⟩
    · exact ⟨.malformed, rfl⟩
    · exact ⟨.malformed, rfl⟩

/-! ## The reader -/

/-- Only the known members count. An object that gives a position is read as it: in whatever
order the known members come, however they are written, and whatever stands between them that is
well formed. So is an array that lists the position. An object with a known key twice, or without
one of the two that it has to have, is refused, and an array that is too short for them. -/
theorem reads_known_members :
    (∀ s : SeekInfo, minOffset ≤ s.offset ∧ s.offset ≤ maxOffset →
      (∀ members text, ObjectText members text → (∀ m ∈ members, s.Gives m) →
        (∀ k ∈ knownKeys, (members.map Prod.fst).count k ≤ 1) →
        "Offset" ∈ members.map Prod.fst → "Whence" ∈ members.map Prod.fst →
        (s.identifier = none ∨ "FileIdentifier" ∈ members.map Prod.fst) → parse text = .ok s) ∧
      ∀ values text, ArrayText values text → s.Lists values → parse text = .ok s) ∧
    (∀ members text, ObjectText members text →
      ((∃ k ∈ knownKeys, 2 ≤ (members.map Prod.fst).count k) ∨
        "Offset" ∉ members.map Prod.fst ∨ "Whence" ∉ members.map Prod.fst) →
      ∃ f, parse text = .error f) ∧
    ∀ values text, ArrayText values text → values.length < 2 → ∃ f, parse text = .error f := by
  refine ⟨fun s hs => ⟨fun members text h hmembers honce hoffset hwhence hidentifier => ?_,
    fun values text h hvalues => parse_lists hs h hvalues⟩, fun members text h hwrong => ?_,
    fun values text h hlength => parse_short h hlength⟩
  · exact parse_gives hs h hmembers honce hoffset hwhence hidentifier
  · cases hread : parse text with
    | error f => exact ⟨f, rfl⟩
    | ok s =>
      obtain ⟨honce, hoffset, hwhence⟩ := count_of_parse h hread
      rcases hwrong with ⟨k, hk, htwice⟩ | hmissing | hmissing
      · have hcount := honce k hk
        omega
      · exact absurd hoffset hmissing
      · exact absurd hwhence hmissing

/-- A position among other members: the keys out of order, one member that nobody asks for with a
known key deep in it and half a pair, escapes where none are needed, and white space. With another
`Whence` it is refused. -/
theorem reads_known_members_nested :
    parse ("\x7b\"e\\u0078tra\":\x7b\"Offset\":[1.5e+3,\"\\uD800\"]\x7d ,\n"
        ++ "\"FileIdentifier\":\"a\\/b\",\"Whence\": 2,\"Offset\":-5\x7d\t") =
          .ok ⟨-5, .finish, some ⟨"a/b"⟩⟩ ∧
      parse "[-5, 2]" = .ok ⟨-5, .finish, none⟩ ∧
      ∃ f, parse "\x7b\"Whence\":2,\"Offset\":-5,\"Whence\":2\x7d" = .error f := by
  obtain ⟨hreads, hrefused, -⟩ := reads_known_members
  obtain ⟨hobject, -⟩ := hreads ⟨-5, .finish, some ⟨"a/b"⟩⟩ (by decide)
  obtain ⟨-, harray⟩ := hreads ⟨-5, .finish, none⟩ (by decide)
  have hoffset : Quotes "Offset" "\"Offset\"".toList := quotes_known (by decide)
  have hwhence : Quotes "Whence" "\"Whence\"".toList := quotes_known (by decide)
  have hfile : Quotes "FileIdentifier" "\"FileIdentifier\"".toList := quotes_known (by decide)
  have hid : Quotes "a/b" "\"a\\/b\"".toList :=
    ⟨[['a'], ['\\', '/'], ['b']], .cons (.plain (by decide) (by decide) (by decide))
      (.cons (.short (by decide)) (.cons (.plain (by decide) (by decide) (by decide)) .nil)), rfl⟩
  have hzero : HexDigit '0' 0 := ⟨by decide, .inl rfl⟩
  have hextra : Quotes "extra" "\"e\\u0078tra\"".toList := by
    have hx : CodeUnit ['\\', 'u', '0', '0', '7', '8'] 'x'.toNat :=
      .mk (k := 7) (l := 8) hzero hzero ⟨by decide, .inl rfl⟩ ⟨by decide, .inl rfl⟩
    have hplain (c : Char) (h : c ≠ '"' ∧ c ≠ '\\' ∧ ¬ c.toNat < 32) : Spells c [c] :=
      .plain h.1 h.2.1 h.2.2
    exact ⟨[['e'], ['\\', 'u', '0', '0', '7', '8'], ['t'], ['r'], ['a']],
      .cons (hplain 'e' (by decide)) (.cons (.unit hx) (.cons (hplain 't' (by decide))
        (.cons (hplain 'r' (by decide)) (.cons (hplain 'a' (by decide)) .nil)))), rfl⟩
  have htwo : Value ['2'] := .number (number_int 2)
  have hminus : Value ['-', '5'] := by
    have hwritten : (toString (-5 : Int)).toList = ['-', '5'] := rfl
    exact hwritten ▸ .number (number_int (-5))
  have hdeep : Value "\x7b\"Offset\":[1.5e+3,\"\\uD800\"]\x7d".toList := by
    have hnumber : Value "1.5e+3".toList :=
      .number ⟨[], ['1'], ['.', '5'], ['e', '+', '3'], .inl rfl,
        .inr ⟨⟨by decide, by simp⟩, by decide⟩, .inr ⟨['5'], ⟨by decide, by simp⟩, rfl⟩,
        .inr ⟨'e', ['+'], ['3'], .inl rfl, .inr (.inl rfl), ⟨by decide, by simp⟩, rfl⟩, rfl⟩
    have hhalf : CodeUnit ['\\', 'u', 'D', '8', '0', '0'] 0xD800 :=
      .mk (i := 13) (j := 8) ⟨by decide, .inr rfl⟩ ⟨by decide, .inl rfl⟩ hzero hzero
    have hstring : Value "\"\\uD800\"".toList :=
      .string ⟨[_], List.forall_mem_singleton.mpr (.unit hhalf), rfl⟩
    have harray : Value "[1.5e+3,\"\\uD800\"]".toList :=
      @Value.array [.bare "1.5e+3".toList, .bare "\"\\uD800\"".toList] _
        (.parts (List.cons_ne_nil _ _))
        (List.forall_mem_cons.mpr ⟨hnumber, List.forall_mem_singleton.mpr hstring⟩)
    exact @Value.object [(.bare "\"Offset\"".toList, .bare "[1.5e+3,\"\\uD800\"]".toList)] _
      (.parts (List.cons_ne_nil _ _)) (List.forall_mem_singleton.mpr hoffset.literal)
      (List.forall_mem_singleton.mpr harray)
  refine ⟨hobject [("extra", "\x7b\"Offset\":[1.5e+3,\"\\uD800\"]\x7d".toList),
    ("FileIdentifier", "\"a\\/b\"".toList), ("Whence", ['2']), ("Offset", ['-', '5'])] _ ?_ ?_
      (by decide) (by decide) (by decide) (.inr (by decide)),
    harray [['-', '5'], ['2']] _ ?_ (.two rfl),
    hrefused [("Whence", ['2']), ("Offset", ['-', '5']), ("Whence", ['2'])] _ ?_
      (.inl ⟨"Whence", by decide, by decide⟩)⟩
  · exact ⟨⟨[], _, ['\t'], by decide, by decide⟩,
      [(.bare "\"e\\u0078tra\"".toList,
          ⟨[], "\x7b\"Offset\":[1.5e+3,\"\\uD800\"]\x7d".toList, [' '], by decide, by decide⟩),
        (⟨['\n'], "\"FileIdentifier\"".toList, [], by decide, by decide⟩,
          .bare "\"a\\/b\"".toList),
        (.bare "\"Whence\"".toList, ⟨[' '], ['2'], [], by decide, by decide⟩),
        (.bare "\"Offset\"".toList, .bare ['-', '5'])], _, by decide, rfl,
      .parts (List.cons_ne_nil _ _),
      .cons ⟨hextra, rfl, hdeep⟩ (.cons ⟨hfile, rfl, .string hid.literal⟩
        (.cons ⟨hwhence, rfl, htwo⟩ (.cons ⟨hoffset, rfl, hminus⟩ .nil)))⟩
  · simp only [List.forall_mem_cons]
    exact ⟨gives_other _ (by decide) _, gives_identifier hid, gives_whence _, gives_offset _,
      List.forall_mem_nil _⟩
  · exact ⟨.bare "[-5, 2]".toList, [.bare ['-', '5'], ⟨[' '], ['2'], [], by decide, by decide⟩], _,
      by decide, rfl, .parts (List.cons_ne_nil _ _), rfl,
      List.forall_mem_cons.mpr ⟨hminus, List.forall_mem_singleton.mpr htwo⟩⟩
  · exact ⟨.bare _, [(.bare "\"Whence\"".toList, .bare ['2']),
        (.bare "\"Offset\"".toList, .bare ['-', '5']),
        (.bare "\"Whence\"".toList, .bare ['2'])], _, by decide, rfl,
      .parts (List.cons_ne_nil _ _),
      .cons ⟨hwhence, rfl, htwo⟩ (.cons ⟨hoffset, rfl, hminus⟩ (.cons ⟨hwhence, rfl, htwo⟩ .nil))⟩

end LogFollower.SeekInfo
