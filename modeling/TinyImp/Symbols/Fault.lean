import TinyImp.Ty

/-!
# Faults

The ways in which a program that is well formed as a text can still misuse its names. A fault has
a message that names the cause and a hint at a cure.
-/

namespace TinyImp

/-- A misuse of a variable or a function. -/
inductive Fault where
  /-- An assignment to a variable that no open scope declares. -/
  | assignedUndeclared (name : String)
  /-- A use of a variable that no open scope declares. -/
  | readUndeclared (name : String)
  /-- A call of a function that is not declared. -/
  | unknownFunction (name : String)
  /-- A call with the wrong number of arguments. -/
  | argumentCount (name : String) (expected got : Nat)
  /-- A call with an argument of the wrong type; positions count from one. -/
  | argumentType (name : String) (position : Nat) (expected got : Ty)
  deriving DecidableEq

end TinyImp
