import LogFollower.Json.Value
import LogFollower.Seek

/-!
# Reading positions

A `SeekInfo` is written as a JSON object with the members `Offset`, `Whence` and `FileIdentifier`,
in any order and among others that mean nothing, or as an array of the three values. The identifier
may be missing or null.

A whence that is no whence has a fault of its own, unless something is wrong before it.
-/

namespace LogFollower

/-- Why a text is no position. -/
inductive ReadFault
  | malformed
  | whence (number : Nat)
  deriving DecidableEq, Repr

namespace SeekInfo

open Json (Token)

/-- The members read so far. -/
structure Draft where
  offset : Option Int
  whence : Option Whence
  identifier : Option (Option FileIdentifier)
  deriving DecidableEq, Repr

def Draft.empty : Draft := ⟨none, none, none⟩

/-- The position, when nothing that is required is missing. -/
def Draft.complete (d : Draft) : Except ReadFault SeekInfo :=
  match d.offset, d.whence with
  | some offset, some whence => .ok ⟨offset, whence, d.identifier.getD none⟩
  | _, _ => .error .malformed

def offsetOf : Token → Except ReadFault Int
  | .number (some n) => if minOffset ≤ n ∧ n ≤ maxOffset then .ok n else .error .malformed
  | _ => .error .malformed

/-- The value of `Whence`, a number below 256. -/
def whenceOf : Token → Except ReadFault Whence
  | .number (some n) =>
    if 0 ≤ n ∧ n < 256 then
      match Whence.ofNumber? n.toNat with
      | some w => .ok w
      | none => .error (.whence n.toNat)
    else .error .malformed
  | _ => .error .malformed

def identifierOf : Token → Except ReadFault (Option FileIdentifier)
  | .null => .ok none
  | .string (some s) => .ok (some ⟨s⟩)
  | _ => .error .malformed

/-- A member with a known key and a value. `none` if the key is not known. -/
def Draft.member? (d : Draft) (key : String) (value : Token) : Option (Except ReadFault Draft) :=
  if key = "Offset" then
    some (if d.offset.isSome then .error .malformed
      else (offsetOf value).map fun n => { d with offset := some n })
  else if key = "Whence" then
    some (if d.whence.isSome then .error .malformed
      else (whenceOf value).map fun w => { d with whence := some w })
  else if key = "FileIdentifier" then
    some (if d.identifier.isSome then .error .malformed
      else (identifierOf value).map fun i => { d with identifier := some i })
  else none

def readMembers (d : Draft) : List Token → Except ReadFault SeekInfo
  | .string (some key) :: .colon :: value :: rest =>
    match d.member? key value with
    | some (.error f) => .error f
    | some (.ok d) =>
      match rest with
      | [.closeObject] => d.complete
      | .comma :: rest => readMembers d rest
      | _ => .error .malformed
    | none =>
      match _h : Json.skip (value :: rest) with
      | some [.closeObject] => d.complete
      | some (.comma :: rest) => readMembers d rest
      | _ => .error .malformed
  | _ => .error .malformed
termination_by tokens => tokens.length
decreasing_by
  · simp only [List.length_cons]; omega
  · have := Json.length_skip _h
    simp only [List.length_cons] at *
    omega

/-- Reads the values of an array from the first on. -/
def readValues : List Token → Except ReadFault SeekInfo
  | offset :: rest => do
    let offset ← offsetOf offset
    match rest with
    | .comma :: whence :: rest =>
      let whence ← whenceOf whence
      match rest with
      | [.closeArray] => .ok ⟨offset, whence, none⟩
      | .comma :: identifier :: rest =>
        let identifier ← identifierOf identifier
        if rest = [.closeArray] then .ok ⟨offset, whence, identifier⟩ else .error .malformed
      | _ => .error .malformed
    | _ => .error .malformed
  | [] => .error .malformed

def ofTokens : List Token → Except ReadFault SeekInfo
  | .openObject :: rest => readMembers .empty rest
  | .openArray :: rest => readValues rest
  | _ => .error .malformed

def parse (text : String) : Except ReadFault SeekInfo := ofTokens (Json.scan text)

def json (s : SeekInfo) : String :=
  let identifier :=
    match s.identifier with
    | some id => Text.json id.token
    | none => "null"
  "\x7b\"Offset\":" ++ toString s.offset ++ ",\"Whence\":" ++ toString s.whence.number
    ++ ",\"FileIdentifier\":" ++ identifier ++ "\x7d"

end SeekInfo

namespace FileIdentifier

def parse (text : String) : Option FileIdentifier :=
  match Json.scan text with
  | [.string (some s)] => some ⟨s⟩
  | _ => none

def json (id : FileIdentifier) : String := Text.json id.token

end FileIdentifier
end LogFollower
