import TinyImp.Number.Written
import TinyImp.Ty

/-!
# Expressions

Expressions as the parser builds them: every variable carries the type it had where it was read,
and every arithmetic node the type of its result.
-/

namespace TinyImp

/-- A literal constant. -/
inductive Const where
  | int (value : Int)
  | float (value : Binary64)
  deriving DecidableEq

namespace Const

/-- The type of a constant. -/
def type : Const → Ty
  | .int _ => .int
  | .float _ => .float

/-- The constant as it is written. -/
def text : Const → String
  | .int value => integerText value
  | .float value => value.text

end Const

/-- The arithmetic operators. -/
inductive ArithOp where
  | add
  | sub
  | mul
  | div
  deriving DecidableEq

/-- The operator as it is written. -/
def ArithOp.text : ArithOp → String
  | .add => "+"
  | .sub => "-"
  | .mul => "*"
  | .div => "/"

/-- The comparison operators. -/
inductive CompareOp where
  | less
  | greater
  | equal
  deriving DecidableEq

/-- The operator as it is written. -/
def CompareOp.text : CompareOp → String
  | .less => "<"
  | .greater => ">"
  | .equal => "=="

/-- A typed expression. -/
inductive Expr where
  | const (value : Const)
  | var (name : String) (type : Ty)
  | arith (op : ArithOp) (type : Ty) (lhs rhs : Expr)
  | compare (op : CompareOp) (lhs rhs : Expr)
  deriving DecidableEq

namespace Expr

/-- The static type that an expression carries. -/
def type : Expr → Ty
  | .const value => value.type
  | .var _ type => type
  | .arith _ type _ _ => type
  | .compare _ _ _ => .bool

/-- The type of an arithmetic result: `float` as soon as one operand is, else `int`. -/
def arithType (lhs rhs : Ty) : Ty :=
  if lhs = .float ∨ rhs = .float then .float else .int

/-- The arithmetic node over two operands, with the type that they determine. -/
def ofArith (op : ArithOp) (lhs rhs : Expr) : Expr :=
  .arith op (arithType lhs.type rhs.type) lhs rhs

end Expr

/-- A binary operator of either kind. -/
inductive BinaryOp where
  | arith (op : ArithOp)
  | compare (op : CompareOp)
  deriving DecidableEq

namespace BinaryOp

/-- How tightly an operator binds; all of them group to the left. -/
def precedence : BinaryOp → Nat
  | .arith .mul => 50
  | .arith .div => 50
  | .arith .add => 45
  | .arith .sub => 45
  | .compare _ => 35

/-- The expression that joins two operands by the operator. -/
def apply : BinaryOp → Expr → Expr → Expr
  | .arith op, lhs, rhs => .ofArith op lhs rhs
  | .compare op, lhs, rhs => .compare op lhs rhs

end BinaryOp

end TinyImp
