import LogFollower.Json.Token

/-!
# Passing over values

`skip` passes over one well-formed value, nested to any depth, and gives the tokens behind it. It
keeps the open brackets in a stack of its own.
-/

namespace LogFollower.Json

inductive Bracket
  | object
  | array
  deriving DecidableEq, Repr

/-- What may come next inside the brackets that are open. -/
inductive Expect
  | value
  /-- A value, or the end of the array that was just opened. -/
  | firstValue
  | key
  /-- A key, or the end of the object that was just opened. -/
  | firstKey
  | colon
  /-- A comma or the end of the innermost bracket. -/
  | next
  deriving DecidableEq, Repr

/-- Whether a token is a value by itself. -/
def Token.scalar : Token → Bool
  | .string _ | .number _ | .null | .bool _ => true
  | _ => false

/-- One token inside open brackets, innermost first: what is expected after it, and the brackets
that are open then. -/
def skipToken (stack : List Bracket) (expect : Expect) (t : Token) :
    Option (Expect × List Bracket) :=
  let begin : Option (Expect × List Bracket) :=
    if t.scalar then some (.next, stack)
    else
      match t with
      | .openObject => some (.firstKey, .object :: stack)
      | .openArray => some (.firstValue, .array :: stack)
      | _ => none
  match expect, t, stack with
  | .value, _, _ => begin
  | .firstValue, .closeArray, _ :: stack => some (.next, stack)
  | .firstValue, _, _ => begin
  | .firstKey, .closeObject, _ :: stack => some (.next, stack)
  | .firstKey, .string _, _ => some (.colon, stack)
  | .key, .string _, _ => some (.colon, stack)
  | .colon, .colon, _ => some (.value, stack)
  | .next, .comma, .object :: _ => some (.key, stack)
  | .next, .comma, .array :: _ => some (.value, stack)
  | .next, .closeObject, .object :: stack => some (.next, stack)
  | .next, .closeArray, .array :: stack => some (.next, stack)
  | _, _, _ => none

/-- Passes over tokens until all brackets are closed. -/
def skipFrom : List Token → List Bracket → Expect → Option (List Token)
  | [], _, _ => none
  | t :: rest, stack, expect =>
    match skipToken stack expect t with
    | some (.next, []) => some rest
    | some (expect, stack) => skipFrom rest stack expect
    | none => none

/-- The tokens behind a value. -/
def skip (tokens : List Token) : Option (List Token) := skipFrom tokens [] .value

theorem length_skipFrom {tokens rest : List Token} {stack : List Bracket} {expect : Expect}
    (h : skipFrom tokens stack expect = some rest) : rest.length < tokens.length := by
  induction tokens generalizing stack expect with
  | nil => simp [skipFrom] at h
  | cons t more ih =>
    unfold skipFrom at h
    split at h
    · cases h; simp
    · have := ih h; simp only [List.length_cons]; omega
    · simp at h

theorem length_skip {tokens rest : List Token} (h : skip tokens = some rest) :
    rest.length < tokens.length := length_skipFrom h

end LogFollower.Json
