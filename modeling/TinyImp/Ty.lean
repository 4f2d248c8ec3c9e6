/-!
# Types

The static types of the language. A program declares variables, parameters and functions of type
`int` or `float`; a comparison is a `bool`, and a name that is not declared anywhere is `unknown`.
-/

namespace TinyImp

/-- The static type of a variable or an expression. -/
inductive Ty where
  | int
  | float
  | bool
  | unknown
  deriving DecidableEq, Inhabited

/-- The word for a type in messages and trees. -/
def Ty.text : Ty → String
  | .int => "int"
  | .float => "float"
  | .bool => "bool"
  | .unknown => "unknown"

/-- A formal parameter of a function. -/
structure Param where
  name : String
  type : Ty
  deriving DecidableEq, Inhabited

/-- A parameter as a declaration: type first. -/
def Param.text (p : Param) : String :=
  p.type.text ++ " " ++ p.name

end TinyImp
