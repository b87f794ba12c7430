import LogFollower.Fault.SystemError
import LogFollower.Text.Quoted

/-!
# Faults of input and output

A `Fault` is what an operation on a file fails with: an error number of the operating system, or a
kind of its own with or without a text.
-/

namespace LogFollower

/-- Why an operation on a file failed. -/
inductive Fault
  | system (error : SystemError)
  | plain (kind : FaultKind)
  | described (kind : FaultKind) (text : String)
  deriving DecidableEq, Repr

namespace Fault

def kind : Fault → FaultKind
  | system e => e.kind
  | plain k => k
  | described k _ => k

def notFound (f : Fault) : Bool := f.kind = .notFound

def text : Fault → String
  | system e => e.text ++ " (os error " ++ toString e.number ++ ")"
  | plain k => k.description
  | described _ s => s

def shown : Fault → String
  | system e =>
    "Os \x7b code: " ++ toString e.number ++ ", kind: " ++ e.kind.name ++ ", message: "
      ++ Text.shown e.text ++ " \x7d"
  | plain k => "Kind(" ++ k.name ++ ")"
  | described k s => "Error \x7b kind: " ++ k.name ++ ", message: " ++ Text.shown s ++ " \x7d"

/-- A path that holds the byte zero names nothing. -/
def zeroByte : Fault := .described .invalidInput "file name contained an unexpected NUL byte"

/-- The bytes of a file are no text. -/
def noText : Fault := .described .invalidData "stream did not contain valid UTF-8"

instance : Coe SystemError Fault := ⟨.system⟩

end Fault
end LogFollower
