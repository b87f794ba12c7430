import LogFollower.Seek
import LogFollower.Splitter

/-!
# Lines

What a consumer gets: a line of text, or the report of an error, with the offset just behind it and
the file it belongs to.
-/

namespace LogFollower

/-- One item of the stream. -/
structure Line where
  /-- The line without its terminator; empty in an error line. -/
  text : String
  offset : Nat
  identifier : Option FileIdentifier
  error : Option TailError
  deriving DecidableEq, Repr

namespace Line

def ofText (text : String) (offset : Nat) (identifier : Option FileIdentifier) : Line :=
  ⟨text, offset, identifier, none⟩

def ofError (error : TailError) (offset : Nat) (identifier : Option FileIdentifier) : Line :=
  ⟨"", offset, identifier, some error⟩

/-- The line of a piece of a file. -/
def ofPiece (identifier : Option FileIdentifier) (p : Piece) : Line :=
  ofText p.text p.stop identifier

def isError (l : Line) : Bool := l.error.isSome

/-- Where to start to get what follows the line. -/
def seekInfo (l : Line) : SeekInfo := .resume l.offset l.identifier

end Line
end LogFollower
