import Mathlib.Logic.Function.Basic
import TinyImp.Stmt

/-!
# The meaning of programs without functions

A program without functions, calls and returns acts on **one flat store** of named variables. The
values are left open: an `Interpretation` says what the constants are, what the four arithmetic
operators compute, and when two values compare equal. An operator may fail, as division by zero
does, and a statement whose evaluation fails has no outcome.

`Expr.eval` evaluates an expression in a store, and `Stmt.Executes I s σ σ'` says that the
statement `s`, started in the store `σ`, terminates in the store `σ'`. There is one rule for each
way in which a statement can go, so that a loop executes exactly if it comes to an end. A
comparison evaluates both of its sides and **has the value of its left side**; a condition holds
if its value is not zero.
-/

namespace TinyImp

variable {V : Type}

/-- **An interpretation of values**: the constants, the arithmetic operators, each of which may
fail, and the test that decides whether two values are equal. -/
structure Interpretation (V : Type) where
  const : Const → V
  arith : ArithOp → V → V → Option V
  equal : V → V → Bool

/-- The zero test: comparison with the constant zero. Every test on values is the zero test of
some interpretation, since nothing is asked of `equal`. -/
def Interpretation.isZero (I : Interpretation V) (v : V) : Bool :=
  I.equal v (I.const (.int 0))

/-- The integers as values. Division goes toward zero and fails at zero; a constant with a
fraction, which is not an integer, counts as zero. -/
def Interpretation.integers : Interpretation Int where
  const
    | .int value => value
    | .float _ => 0
  arith
    | .add, a, b => some (a + b)
    | .sub, a, b => some (a - b)
    | .mul, a, b => some (a * b)
    | .div, a, b => if b = 0 then none else some (a.tdiv b)
  equal a b := decide (a = b)

/-- A store gives a value to every name. -/
abbrev Store (V : Type) := String → V

/-- The value of an expression in a store, unless an operator fails on the way. A comparison
evaluates both sides and has the value of the left one. -/
def Expr.eval (I : Interpretation V) (σ : Store V) : Expr → Option V
  | .const value => some (I.const value)
  | .var name _ => some (σ name)
  | .arith op _ lhs rhs =>
    (lhs.eval I σ).bind fun a => (rhs.eval I σ).bind fun b => I.arith op a b
  | .compare _ lhs rhs => (lhs.eval I σ).bind fun a => (rhs.eval I σ).map fun _ => a

/-- **Execution of a statement**: from the store before to the store after. A body is executed as
a block, one statement after the other. -/
inductive Stmt.Executes (I : Interpretation V) : Stmt → Store V → Store V → Prop where
  /-- A declaration alone does nothing. -/
  | declare {name type σ} : Executes I (.declare name type) σ σ
  | declareAssign {name type init σ v} (hinit : init.eval I σ = some v) :
    Executes I (.declareAssign name type init) σ (Function.update σ name v)
  | assign {name value σ v} (hvalue : value.eval I σ = some v) :
    Executes I (.assign name value) σ (Function.update σ name v)
  | ifThenHolds {e body σ σ' v} (he : e.eval I σ = some v) (hv : I.isZero v = false)
    (hbody : Executes I (.block body) σ σ') : Executes I (.ifThen e body) σ σ'
  | ifThenFails {e body σ v} (he : e.eval I σ = some v) (hv : I.isZero v = true) :
    Executes I (.ifThen e body) σ σ
  | ifElseHolds {e body otherwise σ σ' v} (he : e.eval I σ = some v) (hv : I.isZero v = false)
    (hbody : Executes I (.block body) σ σ') : Executes I (.ifElse e body otherwise) σ σ'
  | ifElseFails {e body otherwise σ σ' v} (he : e.eval I σ = some v) (hv : I.isZero v = true)
    (hotherwise : Executes I (.block otherwise) σ σ') :
    Executes I (.ifElse e body otherwise) σ σ'
  /-- A loop whose condition holds executes its body and then the loop again. -/
  | loopHolds {e body σ σ₁ σ' v} (he : e.eval I σ = some v) (hv : I.isZero v = false)
    (hbody : Executes I (.block body) σ σ₁) (hloop : Executes I (.loop e body) σ₁ σ') :
    Executes I (.loop e body) σ σ'
  | loopFails {e body σ v} (he : e.eval I σ = some v) (hv : I.isZero v = true) :
    Executes I (.loop e body) σ σ
  | blockNil {σ} : Executes I (.block []) σ σ
  | blockCons {s rest σ σ₁ σ'} (hs : Executes I s σ σ₁) (hrest : Executes I (.block rest) σ₁ σ') :
    Executes I (.block (s :: rest)) σ σ'

/-- A program executes as the block of its statements does. -/
def Program.Executes (I : Interpretation V) (p : Program) (σ σ' : Store V) : Prop :=
  Stmt.Executes I (.block p.body) σ σ'

/-! ### Programs without functions -/

mutual

/-- No function, call or return stands anywhere in the statement. -/
def Stmt.functionFree : Stmt → Bool
  | .declare _ _ => true
  | .declareAssign _ _ _ => true
  | .assign _ _ => true
  | .ifThen _ body => Stmt.functionFreeAll body
  | .ifElse _ body otherwise => Stmt.functionFreeAll body && Stmt.functionFreeAll otherwise
  | .loop _ body => Stmt.functionFreeAll body
  | .block body => Stmt.functionFreeAll body
  | .function _ _ _ _ => false
  | .call _ _ => false
  | .ret _ => false

/-- No function, call or return stands anywhere in the statements. -/
def Stmt.functionFreeAll : List Stmt → Bool
  | [] => true
  | s :: rest => s.functionFree && Stmt.functionFreeAll rest

end

end TinyImp
