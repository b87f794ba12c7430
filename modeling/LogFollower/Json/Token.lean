/-!
# Tokens of a JSON text

`scan` cuts a text into tokens, one character at a time. It stops at the first character that no
token can have and puts `bad` there, so that a reader of the tokens meets the fault where the text
has it and not before.

A string token has no text if it spells a lone surrogate, and a number token no value if it is not
written as an integer. Both are well formed, and may stand where nobody looks at them.
-/

namespace LogFollower.Json

inductive Token
  | openObject
  | closeObject
  | openArray
  | closeArray
  | comma
  | colon
  | string (text : Option String)
  | number (value : Option Int)
  | null
  | bool (value : Bool)
  | bad
  deriving DecidableEq, Repr

/-- A character between tokens that means nothing. -/
def isBlank (c : Char) : Bool := c = ' ' || c = '\n' || c = '\t' || c = '\r'

/-- The value of a digit in base sixteen. -/
def hexValue? (c : Char) : Option Nat :=
  if '0' ≤ c ∧ c ≤ '9' then some (c.toNat - 48)
  else if 'a' ≤ c ∧ c ≤ 'f' then some (c.toNat - 87)
  else if 'A' ≤ c ∧ c ≤ 'F' then some (c.toNat - 55)
  else none

/-! ## Strings -/

/-- Where the scanner stands in a string. -/
inductive StringState
  | plain
  /-- Behind a backslash. -/
  | escape
  /-- Within the four digits of a code unit: how many are owed, and their value so far. -/
  | unit (owed value : Nat)
  deriving DecidableEq, Repr

/-- A string so far: its characters, newest first; the first half of a pair that waits for the
second; and whether every code unit found its place. -/
structure Spelled where
  done : List Char
  high : Option Nat
  sound : Bool
  deriving DecidableEq, Repr

namespace Spelled

def empty : Spelled := ⟨[], none, true⟩

/-- A further character. It leaves the first half of a pair alone. -/
def push (s : Spelled) (c : Char) : Spelled := ⟨c :: s.done, none, s.sound && s.high.isNone⟩

def pushUnit (s : Spelled) (n : Nat) : Spelled :=
  if 0xDC00 ≤ n ∧ n < 0xE000 then
    match s.high with
    | some h => ⟨Char.ofNat (0x10000 + (h - 0xD800) * 0x400 + (n - 0xDC00)) :: s.done, none, s.sound⟩
    | none => { s with sound := false }
  else if 0xD800 ≤ n ∧ n < 0xDC00 then ⟨s.done, some n, s.sound && s.high.isNone⟩
  else s.push (Char.ofNat n)

/-- The text, if no code unit was left alone. -/
def text (s : Spelled) : Option String :=
  if s.sound ∧ s.high = none then some (String.ofList s.done.reverse) else none

end Spelled

/-- The character that a backslash and another character stand for. -/
def escaped? : Char → Option Char
  | '"' => some '"'
  | '\\' => some '\\'
  | '/' => some '/'
  | 'b' => some '\x08'
  | 'f' => some '\x0c'
  | 'n' => some '\n'
  | 'r' => some '\r'
  | 't' => some '\t'
  | _ => none

/-! ## Numbers -/

/-- Where the scanner stands in a number. -/
inductive NumberState
  | minus
  | zero
  | digits
  | point
  | fraction
  | exponent
  | exponentSign
  | exponentDigits
  deriving DecidableEq, Repr

/-- Whether a number may end here. -/
def NumberState.complete : NumberState → Bool
  | zero | digits | fraction | exponentDigits => true
  | _ => false

/-- Where a further character of a number leads. -/
def NumberState.next? (s : NumberState) (c : Char) : Option NumberState :=
  match s with
  | minus => if c = '0' then some zero else if c.isDigit then some digits else none
  | zero => fractional c
  | digits => if c.isDigit then some digits else fractional c
  | point => if c.isDigit then some fraction else none
  | fraction => if c.isDigit then some fraction else exponential c
  | exponent =>
    if c = '+' ∨ c = '-' then some exponentSign
    else if c.isDigit then some exponentDigits else none
  | exponentSign => if c.isDigit then some exponentDigits else none
  | exponentDigits => if c.isDigit then some exponentDigits else none
where
  /-- What may follow an integer. -/
  fractional (c : Char) : Option NumberState := if c = '.' then some point else exponential c
  /-- What may follow a number without an exponent. -/
  exponential (c : Char) : Option NumberState :=
    if c = 'e' ∨ c = 'E' then some exponent else none

/-- The value of a number that ends in a state: integers only, and not `-0`. -/
def NumberState.value (s : NumberState) (negative : Bool) (magnitude : Nat) : Option Int :=
  match s with
  | zero => if negative then none else some 0
  | digits => some (if negative then -magnitude else magnitude)
  | _ => none

/-! ## The scanner -/

/-- What the scanner is in. -/
inductive Mode
  | between
  | string (state : StringState) (spelled : Spelled)
  | number (state : NumberState) (negative : Bool) (magnitude : Nat)
  /-- In a word, with the letters that are owed. -/
  | word (owed : List Char) (token : Token)
  | stuck
  deriving DecidableEq, Repr

/-- A character between tokens; tokens are kept newest first. -/
def scanBetween (c : Char) (done : List Token) : Mode × List Token :=
  if isBlank c then (.between, done)
  else if c = '-' then (.number .minus true 0, done)
  else if c = '0' then (.number .zero false 0, done)
  else if c.isDigit then (.number .digits false (c.toNat - 48), done)
  else
    match c with
    | '\x7b' => (.between, .openObject :: done)
    | '\x7d' => (.between, .closeObject :: done)
    | '[' => (.between, .openArray :: done)
    | ']' => (.between, .closeArray :: done)
    | ',' => (.between, .comma :: done)
    | ':' => (.between, .colon :: done)
    | '"' => (.string .plain .empty, done)
    | 'n' => (.word ['u', 'l', 'l'] .null, done)
    | 't' => (.word ['r', 'u', 'e'] (.bool true), done)
    | 'f' => (.word ['a', 'l', 's', 'e'] (.bool false), done)
    | _ => (.stuck, .bad :: done)

def scanString (state : StringState) (s : Spelled) (c : Char) (done : List Token) :
    Mode × List Token :=
  match state with
  | .plain =>
    if c = '"' then (.between, .string s.text :: done)
    else if c = '\\' then (.string .escape s, done)
    else if c.toNat < 32 then (.stuck, .bad :: done)
    else (.string .plain (s.push c), done)
  | .escape =>
    if c = 'u' then (.string (.unit 4 0) s, done)
    else
      match escaped? c with
      | some d => (.string .plain (s.push d), done)
      | none => (.stuck, .bad :: done)
  | .unit owed value =>
    match hexValue? c with
    | none => (.stuck, .bad :: done)
    | some d =>
      let value := value * 16 + d
      if owed ≤ 1 then (.string .plain (s.pushUnit value), done)
      else (.string (.unit (owed - 1) value) s, done)

def scanChar (mode : Mode) (c : Char) (done : List Token) : Mode × List Token :=
  match mode with
  | .between => scanBetween c done
  | .string state s => scanString state s c done
  | .number state negative magnitude =>
    match state.next? c with
    | some next => (.number next negative (magnitude * 10 + (c.toNat - 48)), done)
    | none =>
      if state = .zero ∧ c.isDigit then (.stuck, .bad :: done)
      else if state.complete then
        scanBetween c (.number (state.value negative magnitude) :: done)
      else (.stuck, .bad :: done)
  | .word [] token => scanBetween c (token :: done)
  | .word (d :: owed) token =>
    if c = d then (if owed = [] then (.between, token :: done) else (.word owed token, done))
    else (.stuck, .bad :: done)
  | .stuck => (.stuck, done)

def scanEnd (mode : Mode) (done : List Token) : List Token :=
  match mode with
  | .between => done.reverse
  | .number state negative magnitude =>
    if state.complete then (.number (state.value negative magnitude) :: done).reverse
    else (.bad :: done).reverse
  | .stuck => done.reverse
  | _ => (.bad :: done).reverse

/-- Scans characters from a mode on. -/
def scanFrom : List Char → Mode → List Token → List Token
  | [], mode, done => scanEnd mode done
  | c :: rest, mode, done =>
    let (mode, done) := scanChar mode c done
    scanFrom rest mode done

def scan (text : String) : List Token := scanFrom text.toList .between []

end LogFollower.Json
