import TinyImp.Parser.Basic

/-!
# Parsing expressions

Operators are read by precedence: an expression of least precedence `m` is an operand followed by
operators that bind at least as tightly as `m`, each with a right-hand side of the next higher
precedence, so that operators of equal precedence group to the left.
-/

namespace TinyImp.Parser

/-- An operand: a variable, a constant, or an expression in parentheses. -/
def operand (inner : Parser Expr) : Parser Expr := do
  match ← peek with
  | some (.identifier _) =>
    let (name, line) ← identifier
    let type ← ask (·.typeOf name line)
    pure (.var name type)
  | some (.intLit value) =>
    let _ ← next
    pure (.const (.int value))
  | some (.floatLit value) =>
    let _ ← next
    pure (.const (.float value))
  | some .openParen =>
    expect .openParen
    let e ← inner
    expect .closeParen
    pure e
  | _ => reject .expectedExpression

/-- Extends an expression by the operators that follow it and bind at least as tightly as `least`.
The right-hand side of an operator is read by `rhs`, which takes its least precedence. -/
def operators (rhs : Nat → Parser Expr) (least : Nat) : Nat → Expr → Parser Expr
  | 0, lhs => pure lhs
  | n + 1, lhs => do
    match (← peek).bind Token.operator? with
    | none => pure lhs
    | some op =>
      if op.precedence < least then pure lhs
      else
        let _ ← next
        let right ← rhs (op.precedence + 1)
        operators rhs least n (op.apply lhs right)

/-- An expression of the given least precedence, within a number of tokens. -/
def expressionWithin : Nat → Nat → Parser Expr
  | 0, _ => failAtEnd
  | n + 1, least => do
    let lhs ← operand (expressionWithin n 0)
    operators (expressionWithin n) least n lhs

/-- An expression. -/
def expression : Parser Expr :=
  bounded fun n => expressionWithin n 0

end TinyImp.Parser
