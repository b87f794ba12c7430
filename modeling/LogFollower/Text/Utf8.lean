/-!
# Bytes and text

Text is written as UTF-8 and read back with repair: what is no character becomes one U+FFFD for
each longest run of bytes that starts a character and is not finished by the byte after it.

The reader takes one byte at a time. Between characters its state is `none`; inside one it is the
`Begun` character. `decode` runs it, `text?` is the strict reader that refuses what needs repair.
-/

namespace LogFollower

abbrev Bytes := List UInt8

namespace Text

/-- What stands in a text for bytes that are no character. -/
def replacement : Char := '\uFFFD'

/-- A character whose first bytes were read: the bits so far, how many bytes are still owed, and
the least and the greatest byte that may come next. -/
structure Begun where
  bits : Nat
  owed : Nat
  low : UInt8
  high : UInt8
  deriving DecidableEq, Repr

/-- What a byte does between two characters. -/
inductive Lead
  | whole (c : Char)
  | begun (b : Begun)
  | refused
  deriving DecidableEq, Repr

/-- The byte `b` between two characters. -/
def lead (b : UInt8) : Lead :=
  if b < 0x80 then .whole (Char.ofNat b.toNat)
  else if b < 0xC2 then .refused
  else if b < 0xE0 then .begun ⟨b.toNat % 32, 1, 0x80, 0xBF⟩
  else if b = 0xE0 then .begun ⟨0, 2, 0xA0, 0xBF⟩
  else if b = 0xED then .begun ⟨13, 2, 0x80, 0x9F⟩
  else if b < 0xF0 then .begun ⟨b.toNat % 16, 2, 0x80, 0xBF⟩
  else if b = 0xF0 then .begun ⟨0, 3, 0x90, 0xBF⟩
  else if b < 0xF4 then .begun ⟨b.toNat % 8, 3, 0x80, 0xBF⟩
  else if b = 0xF4 then .begun ⟨4, 3, 0x80, 0x8F⟩
  else .refused

/-- The byte `b` after a complete character; characters are kept newest first. -/
def readLead (b : UInt8) (done : List Char) : Option Begun × List Char :=
  match lead b with
  | .whole c => (none, c :: done)
  | .begun s => (some s, done)
  | .refused => (none, replacement :: done)

/-- The byte `b` in any state. A byte that cannot go on ends the begun character and is read
again as a first byte. -/
def readByte (state : Option Begun) (b : UInt8) (done : List Char) : Option Begun × List Char :=
  match state with
  | none => readLead b done
  | some s =>
    if s.low ≤ b ∧ b ≤ s.high then
      let bits := s.bits * 64 + b.toNat % 64
      if s.owed ≤ 1 then (none, Char.ofNat bits :: done)
      else (some ⟨bits, s.owed - 1, 0x80, 0xBF⟩, done)
    else readLead b (replacement :: done)

/-- Reads bytes from a state to their end; `done` holds the characters before, newest first. -/
def decodeFrom : Bytes → Option Begun → List Char → List Char
  | [], none, done => done.reverse
  | [], some _, done => (replacement :: done).reverse
  | b :: rest, state, done =>
    let (state, done) := readByte state b done
    decodeFrom rest state done

def decode (bytes : Bytes) : List Char := decodeFrom bytes none []

/-- The text of a string of bytes, repaired. -/
def lossy (bytes : Bytes) : String := String.ofList (decode bytes)

def encode (s : String) : Bytes := s.toList.flatMap String.utf8EncodeChar

/-- The text of a string of bytes that needs no repair. -/
def text? (bytes : Bytes) : Option String :=
  let s := lossy bytes
  if encode s = bytes then some s else none

end Text
end LogFollower
