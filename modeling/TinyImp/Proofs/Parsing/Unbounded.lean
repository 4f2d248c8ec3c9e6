import TinyImp.Proofs.Parsing.Cursor

/-!
# The parser without bounds

The parser counts down from the number of tokens left, in its loops as well as in its recursion, and
so it comes to an end whatever it does; and since it has no other record of where it is than the
tokens left, it cannot go past their end. Here is the same parser with neither. It moves a cursor,
which nothing keeps within the tokens. What calls itself is a **procedure** (`Procedure`): a loop
goes on until a token or the end of the text stops it, and the recursion is as deep as the text asks
for. The body of a procedure (`Unbounded.body`) calls procedures by name, so nothing in these
definitions promises an end.

A run **comes to an end** if there is a derivation of its outcome (`Unbounded.Ends`), in which every
call is replaced by the body of what is called. Derivations are finite, and a run that goes on
forever has none. There is at most one outcome (`Unbounded.Ends.unique`).

A **round** of a loop leads from one call of its procedure to the next one, through whatever is read
in between (`Unbounded.Enters`).
-/

namespace TinyImp

/-- What calls itself, directly or by way of others. -/
inductive Procedure : Type → Type
  /-- An expression of a least precedence. -/
  | expression (least : Nat) : Procedure Expr
  /-- An operand: a variable, a constant, or an expression in parentheses. -/
  | operand : Procedure Expr
  /-- The loop over the operators that bind at least as tightly as `least`, behind `lhs`. -/
  | operators (least : Nat) (lhs : Expr) : Procedure Expr
  /-- The loop over the arguments of a call. -/
  | arguments : Procedure (List Expr)
  /-- The loop over the parameters of a function. -/
  | parameters : Procedure (List Param)
  | statement : Procedure Stmt
  /-- A block: statements between braces, in a scope of their own. -/
  | block : Procedure (List Stmt)
  /-- The loop over the statements up to a closing brace, which is read too. -/
  | untilBrace : Procedure (List Stmt)
  /-- The loop over the statements up to the end of the text. -/
  | untilEnd : Procedure (List Stmt)

/-- A parser that may call procedures: one that calls none, a call, or two in sequence. -/
inductive Unbounded : Type → Type 1
  | run {α : Type} (p : CursorParser α) : Unbounded α
  | call {α : Type} (procedure : Procedure α) : Unbounded α
  | seq {α β : Type} (u : Unbounded α) (v : α → Unbounded β) : Unbounded β

namespace Unbounded

open Cursor

variable {α β : Type}

instance : Monad Unbounded where
  pure a := run (pure a)
  bind := seq

instance : MonadLift CursorParser Unbounded := ⟨run⟩

/-! ### Operators and lists -/

/-- One round over the operators: the operator at the position, which has the given precedence, and
its right-hand side. -/
def operation (precedence : Nat) (lhs : Expr) : Unbounded Expr := do
  let op ← take Token.operator? .unexpected
  let right ← call (.expression (precedence + 1))
  pure (op.1.apply lhs right)

/-- One round over the items of a list: an item, and whether a comma follows it, which is then gone
past. -/
def element (item : Unbounded α) : Unbounded (α × Bool) := do
  let a ← item
  let more ← bumpIf .comma
  pure (a, more)

/-- One or more items with commas between them, where `others` reads those behind a comma. -/
def commaSeparated (item : Unbounded α) (others : Unbounded (List α)) : Unbounded (List α) := do
  let first ← element item
  if first.2 then
    let rest ← others
    pure (first.1 :: rest)
  else
    pure [first.1]

/-- A list in parentheses whose opening parenthesis has been read. -/
def listInParens (items : Unbounded (List α)) : Unbounded (List α) := do
  let inside ← if (← peek) = some .closeParen then pure [] else items
  expect .closeParen
  pure inside

/-! ### Statements without blocks -/

/-- The rest of a variable declaration, behind its name. -/
def variableTail (type : Ty) (name : String) (line : Nat) : Unbounded Stmt := do
  if ← bumpIf .assign then
    let init ← call (.expression 0)
    tell (·.declare name type)
    tell (·.assign name line)
    pure (.declareAssign name type init)
  else
    tell (·.declare name type)
    pure (.declare name type)

/-- An assignment or a call, without the semicolon. -/
def assignOrCall : Unbounded Stmt := do
  let target ← identifier
  match ← peek with
  | some .assign =>
    bump
    let value ← call (.expression 0)
    tell (·.assign target.1 target.2)
    pure (.assign target.1 value)
  | some .openParen =>
    bump
    let args ← listInParens (call .arguments)
    tell (·.call target.1 args target.2)
    pure (.call target.1 args)
  | _ => unexpected

/-- A statement in the header of a `for` loop. -/
def simpleStatement : Unbounded Stmt := do
  match ← peekOrFail with
  | .identifier _ => assignOrCall
  | .kwInt | .kwFloat =>
    let type ← typeSpecifier
    let target ← identifier
    variableTail type target.1 target.2
  | _ => unexpected

/-- A condition in parentheses. -/
def condition : Unbounded Expr := do
  expect .openParen
  let e ← call (.expression 0)
  expect .closeParen
  pure e

/-- A `return` statement. -/
def returnStatement : Unbounded Stmt := do
  expect .kwReturn
  let e ← call (.expression 0)
  expect .semicolon
  pure (.ret e)

/-! ### Statements with blocks -/

/-- A parameter of a function. -/
def parameter : Unbounded Param := do
  let type ← typeSpecifier
  let target ← identifier
  pure ⟨target.1, type⟩

/-- The rest of a function declaration, behind its name. -/
def functionTail (returnType : Ty) (name : String) : Unbounded Stmt := do
  expect .openParen
  let params ← listInParens (call .parameters)
  tell (·.declareFunction name returnType params)
  let body ← call .block
  pure (.function name returnType params body)

/-- A declaration of a function or of a variable. -/
def declaration : Unbounded Stmt := do
  let type ← typeSpecifier
  let target ← identifier
  if (← peek) = some .openParen then
    functionTail type target.1
  else
    let s ← variableTail type target.1 target.2
    expect .semicolon
    pure s

/-- A conditional statement, with or without an alternative. -/
def ifStatement : Unbounded Stmt := do
  expect .kwIf
  let e ← condition
  let body ← call .block
  if ← bumpIf .kwElse then
    let otherwise ← call .block
    pure (.ifElse e body otherwise)
  else
    pure (.ifThen e body)

/-- A `while` loop. -/
def whileStatement : Unbounded Stmt := do
  expect .kwWhile
  let e ← condition
  let body ← call .block
  pure (.loop e body)

/-- A `for` loop. -/
def forStatement : Unbounded Stmt := do
  expect .kwFor
  expect .openParen
  tell Checker.openScope
  let init ← simpleStatement
  expect .semicolon
  let e ← call (.expression 0)
  expect .semicolon
  let step ← simpleStatement
  expect .closeParen
  let body ← call .block
  tell Checker.closeScope
  pure (.block [init, .loop e (body ++ [step])])

/-- A whole program. -/
def program : Unbounded Program := do
  let body ← call .untilEnd
  tell (·.note (.parsed body.length))
  pure ⟨body⟩

/-! ### Procedures -/

/-- What a procedure does. -/
def body : {α : Type} → Procedure α → Unbounded α
  | _, .expression least => do
    let lhs ← call .operand
    call (.operators least lhs)
  | _, .operand => do
    match ← peekOrFail with
    | .identifier _ =>
      let target ← identifier
      let type ← ask (·.typeOf target.1 target.2)
      pure (.var target.1 type)
    | .intLit value =>
      bump
      pure (.const (.int value))
    | .floatLit value =>
      bump
      pure (.const (.float value))
    | .openParen =>
      expect .openParen
      let e ← call (.expression 0)
      expect .closeParen
      pure e
    | w => failHere (.expectedExpression w)
  | _, .operators least lhs => do
    match (← peek).bind Token.operator? with
    | none => pure lhs
    | some op =>
      if op.precedence < least then pure lhs
      else
        let extended ← operation op.precedence lhs
        call (.operators least extended)
  | _, .arguments => commaSeparated (call (.expression 0)) (call .arguments)
  | _, .parameters => commaSeparated parameter (call .parameters)
  | _, .statement => do
    match ← peekOrFail with
    | .kwInt | .kwFloat => declaration
    | .identifier _ =>
      let s ← assignOrCall
      expect .semicolon
      pure s
    | .kwReturn => returnStatement
    | .kwIf => ifStatement
    | .kwWhile => whileStatement
    | .kwFor => forStatement
    | _ => unexpected
  | _, .block => do
    expect .openBrace
    tell Checker.openScope
    let body ← call .untilBrace
    tell Checker.closeScope
    pure body
  | _, .untilBrace => do
    if ← bumpIf .closeBrace then
      pure []
    else
      let s ← call .statement
      let rest ← call .untilBrace
      pure (s :: rest)
  | _, .untilEnd => do
    if ← atEnd then
      pure []
    else
      let s ← call .statement
      let rest ← call .untilEnd
      pure (s :: rest)

/-! ### Runs -/

/-- **A run comes to an end** with an outcome. A call runs the body of the procedure, and a failure
leaves out the rest of a sequence. -/
inductive Ends : {α : Type} → Unbounded α → Cursor → EStateM.Result ParseError Cursor α →
    Prop
  | run {α : Type} (p : CursorParser α) (c : Cursor) : Ends (.run p) c (p c)
  | call {α : Type} {procedure : Procedure α} {c : Cursor}
      {r : EStateM.Result ParseError Cursor α} (h : Ends (body procedure) c r) :
      Ends (.call procedure) c r
  | ok {α β : Type} {u : Unbounded α} {v : α → Unbounded β} {c c₁ : Cursor} {a : α}
      {r : EStateM.Result ParseError Cursor β} (hu : Ends u c (.ok a c₁))
      (hv : Ends (v a) c₁ r) : Ends (.seq u v) c r
  | error {α β : Type} {u : Unbounded α} {v : α → Unbounded β} {c c₁ : Cursor}
      {e : ParseError} (hu : Ends u c (.error e c₁)) : Ends (.seq u v) c (.error e c₁)

/-- A run ends in one way. -/
theorem Ends.unique {α : Type} {u : Unbounded α} {c : Cursor}
    {r r' : EStateM.Result ParseError Cursor α} (h : Ends u c r) (h' : Ends u c r') :
    r = r' := by
  induction h with
  | run p c =>
    cases h'
    rfl
  | call _ ih =>
    cases h' with
    | call h' => exact ih h'
  | ok _ _ ihu ihv =>
    cases h' with
    | ok hu' hv' =>
      cases ihu hu'
      exact ihv hv'
    | error hu' => cases ihu hu'
  | error _ ih =>
    cases h' with
    | ok hu' _ => cases ih hu'
    | error hu' =>
      cases ih hu'
      rfl

/-! ### Loops -/

/-- The loops of the parser. -/
inductive Loop where
  | operators (least : Nat)
  | arguments
  | parameters
  | untilBrace
  | untilEnd

/-- The loop that a procedure goes through, if it does. A call of the procedure is at the head of
the loop. -/
def loop? : {α : Type} → Procedure α → Option Loop
  | _, .operators least _ => some (.operators least)
  | _, .arguments => some .arguments
  | _, .parameters => some .parameters
  | _, .untilBrace => some .untilBrace
  | _, .untilEnd => some .untilEnd
  | _, _ => none

/-- A run from `c` **comes to the head of a loop** at `c'`. What other procedures do in
between is not looked into, so if the run is that of the body of the loop, then one round of the
loop has led from `c` to `c'`. -/
inductive Enters (loop : Loop) : {α : Type} → Unbounded α → Cursor → Cursor → Prop
  | call {α : Type} {procedure : Procedure α} {c : Cursor} (h : loop? procedure = some loop) :
      Enters loop (.call procedure) c c
  | first {α β : Type} {u : Unbounded α} {v : α → Unbounded β} {c c' : Cursor}
      (h : Enters loop u c c') : Enters loop (.seq u v) c c'
  | second {α β : Type} {u : Unbounded α} {v : α → Unbounded β} {c c₁ c' : Cursor} {a : α}
      (hu : Ends u c (.ok a c₁)) (h : Enters loop (v a) c₁ c') : Enters loop (.seq u v) c c'

section Enters

variable {loop : Loop} {c c' : Cursor}

/-- A parser that calls nothing comes to the head of no loop. -/
theorem not_enters_run {p : CursorParser α} : ¬ Enters loop (.run p) c c' := by
  intro h
  cases h

/-- A call is at the head of the loop that the procedure goes through, and of no other. -/
theorem enters_call {procedure : Procedure α} :
    Enters loop (.call procedure) c c' ↔ loop? procedure = some loop ∧ c' = c := by
  constructor
  · intro h
    cases h with
    | call h => exact ⟨h, rfl⟩
  · rintro ⟨h, rfl⟩
    exact .call h

/-- A sequence comes to the head of a loop in its first part, or in the second one behind the first.
-/
theorem enters_bind {u : Unbounded α} {v : α → Unbounded β} :
    Enters loop (u >>= v) c c' ↔
      Enters loop u c c' ∨ ∃ a c₁, Ends u c (.ok a c₁) ∧ Enters loop (v a) c₁ c' := by
  constructor
  · intro h
    cases h with
    | first h => exact .inl h
    | second hu h => exact .inr ⟨_, _, hu, h⟩
  · rintro (h | ⟨a, c₁, hu, h⟩)
    · exact .first h
    · exact .second hu h

end Enters

end Unbounded

end TinyImp
