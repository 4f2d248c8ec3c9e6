import TinyImp.Checker

/-!
# Resolution as a pass of its own

A finished tree without types can be resolved after the fact: a recursion over the tree that looks
up every variable, puts the types back, keeps a symbol table and collects the faults. It visits the
parts of a statement in the order in which they stand in the text. The one statement for which this
is not the order of the tree is the `for` loop, whose step stands in front of the body in the text
and behind it in the tree.
-/

namespace TinyImp

/-! ### Trees without types -/

/-- The expression without the types of its variables and results. -/
def Expr.erase : Expr → Expr
  | .const value => .const value
  | .var name _ => .var name .unknown
  | .arith op _ lhs rhs => .arith op .unknown lhs.erase rhs.erase
  | .compare op lhs rhs => .compare op lhs.erase rhs.erase

/-- An operator makes the same of operands that differ in their types only, but for the types. -/
theorem BinaryOp.erase_apply_congr (op : BinaryOp) {lhs rhs lhs' rhs' : Expr}
    (hlhs : lhs'.erase = lhs.erase) (hrhs : rhs'.erase = rhs.erase) :
    (op.apply lhs' rhs').erase = (op.apply lhs rhs).erase := by
  cases op with
  | arith op => simp [BinaryOp.apply, Expr.ofArith, Expr.erase, hlhs, hrhs]
  | compare op => simp [BinaryOp.apply, Expr.erase, hlhs, hrhs]

mutual

/-- The statement with all its expressions erased. -/
def Stmt.erase : Stmt → Stmt
  | .declare name type => .declare name type
  | .declareAssign name type init => .declareAssign name type init.erase
  | .assign name value => .assign name value.erase
  | .ifThen e body => .ifThen e.erase (Stmt.eraseAll body)
  | .ifElse e body otherwise => .ifElse e.erase (Stmt.eraseAll body) (Stmt.eraseAll otherwise)
  | .loop e body => .loop e.erase (Stmt.eraseAll body)
  | .block body => .block (Stmt.eraseAll body)
  | .function name type params body => .function name type params (Stmt.eraseAll body)
  | .call name args => .call name (args.map Expr.erase)
  | .ret value => .ret value.erase

/-- The statements with all their expressions erased. -/
def Stmt.eraseAll : List Stmt → List Stmt
  | [] => []
  | s :: rest => s.erase :: Stmt.eraseAll rest

end

/-- The program with all its expressions erased. -/
def Program.erase (p : Program) : Program :=
  ⟨Stmt.eraseAll p.body⟩

/-! ### The state of resolution -/

/-- What resolution knows: the options, the symbol table, and the faults found so far. -/
structure Resolution where
  options : Options
  symbols : Symbols
  faults : List Fault := []

/-- A step of resolution that returns a value. -/
abbrev Resolve := StateM Resolution

namespace Resolve

/-- Changes the symbol table. -/
def update (f : Symbols → Symbols) : Resolve Unit :=
  modify fun r => { r with symbols := f r.symbols }

/-- Adds faults to those found so far. -/
def report (faults : List Fault) : Resolve Unit :=
  modify fun r => { r with faults := r.faults ++ faults }

/-- Runs a step in a scope of its own. -/
def inScope {α : Type} (step : Resolve α) : Resolve α := do
  update Symbols.openScope
  let a ← step
  update Symbols.closeScope
  pure a

/-- The type of a variable where it is read. -/
def typeOf (name : String) : Resolve Ty := do
  let r ← get
  match r.symbols.typeOf name with
  | .ok type => pure type
  | .error fault =>
    if r.options.assumeIntParams && r.symbols.inParamScope then
      pure .int
    else
      report [fault]
      pure .unknown

/-- Marks a variable as assigned to. -/
def assign (name : String) : Resolve Unit := do
  match (← get).symbols.assign name with
  | .ok symbols => update fun _ => symbols
  | .error fault => report [fault]

/-- The type of an argument of a call. A variable is looked up once more. -/
def argument : Expr → Resolve Ty
  | .var name _ => typeOf name
  | e => pure e.type

/-- The types of the arguments of a call. They are looked up only if the function is declared with
that number of parameters. -/
def arguments (name : String) (args : List Expr) : Resolve (List Ty) := do
  if (← get).symbols.arity name = some args.length then args.mapM argument
  else pure (args.map Expr.type)

/-- Checks a call. -/
def call (name : String) (args : List Expr) : Resolve Unit := do
  let types ← arguments name args
  report ((← get).symbols.callFaults name types)

end Resolve

/-! ### Resolution -/

/-- Puts the types back into an expression. -/
def Expr.resolve : Expr → Resolve Expr
  | .const value => pure (.const value)
  | .var name _ => do
    pure (.var name (← Resolve.typeOf name))
  | .arith op _ lhs rhs => do
    let lhs ← lhs.resolve
    let rhs ← rhs.resolve
    pure (.ofArith op lhs rhs)
  | .compare op lhs rhs => do
    let lhs ← lhs.resolve
    let rhs ← rhs.resolve
    pure (.compare op lhs rhs)

/-- Takes steps in order. -/
def Resolve.inOrder {α : Type} : List (Resolve α) → Resolve (List α)
  | [] => pure []
  | step :: rest => do
    let a ← step
    let as ← Resolve.inOrder rest
    pure (a :: as)

mutual

/-- Puts the types back into a statement. -/
def Stmt.resolve : Stmt → Resolve Stmt
  | .declare name type => do
    Resolve.update (·.declare name type)
    pure (.declare name type)
  | .declareAssign name type init => do
    let init ← init.resolve
    Resolve.update (·.declare name type)
    Resolve.assign name
    pure (.declareAssign name type init)
  | .assign name value => do
    let value ← value.resolve
    Resolve.assign name
    pure (.assign name value)
  | .ifThen e body => do
    let e ← e.resolve
    let body ← Resolve.inScope (Resolve.inOrder (Stmt.resolveEach body))
    pure (.ifThen e body)
  | .ifElse e body otherwise => do
    let e ← e.resolve
    let body ← Resolve.inScope (Resolve.inOrder (Stmt.resolveEach body))
    let otherwise ← Resolve.inScope (Resolve.inOrder (Stmt.resolveEach otherwise))
    pure (.ifElse e body otherwise)
  | .loop e body => do
    let e ← e.resolve
    let body ← Resolve.inScope (Resolve.inOrder (Stmt.resolveEach body))
    pure (.loop e body)
  | .block [init, .loop e body] =>
    -- the last statement of the body is the step, which stands in the header in the text
    let header := init.resolve
    let steps := Stmt.resolveEach body
    Resolve.inScope do
      let init ← header
      let e ← e.resolve
      let step ← Resolve.inOrder steps.getLast?.toList
      let body ← Resolve.inScope (Resolve.inOrder steps.dropLast)
      pure (.block [init, .loop e (body ++ step)])
  | .block body => do
    let body ← Resolve.inScope (Resolve.inOrder (Stmt.resolveEach body))
    pure (.block body)
  | .function name type params body => do
    Resolve.update (·.declareFunction name type params)
    let body ← Resolve.inScope (Resolve.inOrder (Stmt.resolveEach body))
    pure (.function name type params body)
  | .call name args => do
    let args ← args.mapM Expr.resolve
    Resolve.call name args
    pure (.call name args)
  | .ret value => do
    let value ← value.resolve
    pure (.ret value)

/-- The steps that put the types back into statements, one for each. -/
def Stmt.resolveEach : List Stmt → List (Resolve Stmt)
  | [] => []
  | s :: rest => s.resolve :: Stmt.resolveEach rest

end

/-- Types are erased one statement after the other. -/
theorem Stmt.eraseAll_append (ss rest : List Stmt) :
    Stmt.eraseAll (ss ++ rest) = Stmt.eraseAll ss ++ Stmt.eraseAll rest := by
  induction ss with
  | nil => rfl
  | cons s ss ih => simp [Stmt.eraseAll, ih]

private theorem Stmt.resolveEach_append (ss rest : List Stmt) :
    Stmt.resolveEach (ss ++ rest) = Stmt.resolveEach ss ++ Stmt.resolveEach rest := by
  induction ss with
  | nil => rfl
  | cons s ss ih => simp [Stmt.resolveEach, ih]

/-- A `for` loop is resolved in the order of its text. -/
theorem Stmt.resolve_for (init step : Stmt) (e : Expr) (body : List Stmt) :
    (Stmt.block [init, .loop e (body ++ [step])]).resolve = Resolve.inScope (do
      let init ← init.resolve
      let e ← e.resolve
      let step ← Resolve.inOrder [step.resolve]
      let body ← Resolve.inScope (Resolve.inOrder (Stmt.resolveEach body))
      pure (.block [init, .loop e (body ++ step)])) := by
  simp [Stmt.resolve, Stmt.resolveEach, Stmt.resolveEach_append]

/-- Puts the types back into a program. -/
def Program.resolve (p : Program) : Resolve Program := do
  let body ← Resolve.inOrder (Stmt.resolveEach p.body)
  pure ⟨body⟩

end TinyImp
