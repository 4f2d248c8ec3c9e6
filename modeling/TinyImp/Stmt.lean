import TinyImp.Expr

/-!
# Statements and programs

There is no `for` statement here: a `for` loop is a block with its first statement and a `while`
loop whose body ends with the step.
-/

namespace TinyImp

/-- A statement. Bodies are lists of statements. -/
inductive Stmt where
  /-- A declaration without a value. -/
  | declare (name : String) (type : Ty)
  /-- A declaration with a first value. -/
  | declareAssign (name : String) (type : Ty) (init : Expr)
  | assign (name : String) (value : Expr)
  | ifThen (condition : Expr) (body : List Stmt)
  | ifElse (condition : Expr) (body otherwise : List Stmt)
  | loop (condition : Expr) (body : List Stmt)
  | block (body : List Stmt)
  | function (name : String) (returnType : Ty) (params : List Param) (body : List Stmt)
  | call (name : String) (args : List Expr)
  | ret (value : Expr)

/-- A program is the list of its top-level statements. -/
structure Program where
  body : List Stmt

/-- The name that a statement declares as a variable, if it declares one. -/
def Stmt.declared? : Stmt → Option String
  | .declare name _ => some name
  | .declareAssign name _ _ => some name
  | _ => none

end TinyImp
