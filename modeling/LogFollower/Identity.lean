/-!
# File identity

A `FileIdentifier` names one incarnation of a file, whatever path leads to it. A file that was
renamed away and created anew has another identifier; one that was truncated keeps its own.
-/

namespace LogFollower

/-- The token of one incarnation of a file. Only equality of tokens means anything. -/
structure FileIdentifier where
  token : String
  deriving DecidableEq, Repr

namespace FileIdentifier

def ofObject (device object : Nat) : FileIdentifier :=
  ⟨toString device ++ ":" ++ toString object⟩

end FileIdentifier
end LogFollower
