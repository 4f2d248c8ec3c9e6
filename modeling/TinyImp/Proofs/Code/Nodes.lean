import TinyImp.Asm.Code
import TinyImp.Proofs.Execution.Labels

/-!
# The nodes of a program

All statements and all expressions of a program, whatever they are nested in, and what can be
counted of them. The numbers of labels and registers in the code of a program are **counts of its
nodes**: `Program.labelsAll_body` and `Program.registersAll_body`.
-/

namespace TinyImp

/-! ### Expressions -/

namespace Expr

/-- The expression and all expressions inside it. -/
def nodes : Expr → List Expr
  | .const value => [.const value]
  | .var name type => [.var name type]
  | .arith op type lhs rhs => .arith op type lhs rhs :: (lhs.nodes ++ rhs.nodes)
  | .compare op lhs rhs => .compare op lhs rhs :: (lhs.nodes ++ rhs.nodes)

/-- The expression is a constant. -/
def isConst : Expr → Bool
  | .const _ => true
  | _ => false

/-- The expression is an arithmetic operator with its operands. -/
def isArith : Expr → Bool
  | .arith _ _ _ _ => true
  | _ => false

/-- An expression takes a register for each constant and each arithmetic operator. -/
theorem registers_eq (e : Expr) :
    e.registers = e.nodes.countP isConst + e.nodes.countP isArith := by
  induction e with
  | const value => rfl
  | var name type => rfl
  | arith op type lhs rhs ihl ihr =>
    simp only [registers, nodes, List.countP_cons, List.countP_append, ihl, ihr, isConst, isArith,
      if_true, Bool.false_eq_true, if_false]
    omega
  | compare op lhs rhs ihl ihr =>
    simp only [registers, nodes, List.countP_cons, List.countP_append, ihl, ihr, isConst, isArith,
      Bool.false_eq_true, if_false]
    omega

end Expr

/-- The registers in the code of a list of arguments, counted over their nodes. -/
theorem Args.registers_eq (args : List Expr) :
    registers args = (args.flatMap Expr.nodes).countP Expr.isConst +
      (args.flatMap Expr.nodes).countP Expr.isArith := by
  induction args with
  | nil => rfl
  | cons e rest ih =>
    simp only [registers, List.flatMap_cons, List.countP_append, e.registers_eq, ih]
    omega

/-! ### Statements -/

namespace Stmt

/-- The expressions that stand in the statement itself, outside of its blocks. -/
def expressions : Stmt → List Expr
  | .declareAssign _ _ init => [init]
  | .assign _ value => [value]
  | .ifThen condition _ => [condition]
  | .ifElse condition _ _ => [condition]
  | .loop condition _ => [condition]
  | .call _ args => args
  | .ret value => [value]
  | _ => []

/-- The name and the body of a function. -/
def function? : Stmt → Option (String × List Stmt)
  | .function name _ _ body => some (name, body)
  | _ => none

/-- The statement is a conditional without an alternative. -/
def isIfThen : Stmt → Bool
  | .ifThen _ _ => true
  | _ => false

/-- The statement is a conditional with an alternative. -/
def isIfElse : Stmt → Bool
  | .ifElse _ _ _ => true
  | _ => false

/-- The statement is a loop. -/
def isLoop : Stmt → Bool
  | .loop _ _ => true
  | _ => false

mutual

/-- The statement and all statements inside it, at any depth. -/
def nodes : Stmt → List Stmt
  | .ifThen condition body => .ifThen condition body :: nodesAll body
  | .ifElse condition body otherwise =>
    .ifElse condition body otherwise :: (nodesAll body ++ nodesAll otherwise)
  | .loop condition body => .loop condition body :: nodesAll body
  | .block body => .block body :: nodesAll body
  | .function name type params body => .function name type params body :: nodesAll body
  | .declare name type => [.declare name type]
  | .declareAssign name type init => [.declareAssign name type init]
  | .assign name value => [.assign name value]
  | .call name args => [.call name args]
  | .ret value => [.ret value]

/-- The statements and all statements inside them. -/
def nodesAll : List Stmt → List Stmt
  | [] => []
  | s :: rest => s.nodes ++ nodesAll rest

end

/-- Statements are listed in their order. -/
theorem nodesAll_append (first second : List Stmt) :
    nodesAll (first ++ second) = nodesAll first ++ nodesAll second := by
  induction first with
  | nil => rfl
  | cons s rest ih => simp [nodesAll, ih]

/-- All expressions in statements, and the expressions inside them. -/
def exprNodes (ss : List Stmt) : List Expr :=
  ss.flatMap fun s => s.expressions.flatMap Expr.nodes

/-- The expressions of the first statement come first. -/
@[simp]
theorem exprNodes_cons (s : Stmt) (rest : List Stmt) :
    exprNodes (s :: rest) = s.expressions.flatMap Expr.nodes ++ exprNodes rest := by
  simp [exprNodes]

/-- Expressions are in the order of their statements. -/
@[simp]
theorem exprNodes_append (first second : List Stmt) :
    exprNodes (first ++ second) = exprNodes first ++ exprNodes second := by
  simp [exprNodes]

/-- One label for each conditional without an alternative, two for each with one, and two for each
loop. -/
def labelNeed (ss : List Stmt) : Nat :=
  ss.countP isIfThen + 2 * ss.countP isIfElse + 2 * ss.countP isLoop

/-- One register for each constant and one for each arithmetic operator. -/
def registerNeed (ss : List Stmt) : Nat :=
  (exprNodes ss).countP Expr.isConst + (exprNodes ss).countP Expr.isArith

private theorem labelNeed_append (first second : List Stmt) :
    labelNeed (first ++ second) = labelNeed first + labelNeed second := by
  simp only [labelNeed, List.countP_append]
  omega

private theorem labelNeed_cons (s : Stmt) (rest : List Stmt) :
    labelNeed (s :: rest) = labelNeed [s] + labelNeed rest :=
  labelNeed_append [s] rest

private theorem registerNeed_append (first second : List Stmt) :
    registerNeed (first ++ second) = registerNeed first + registerNeed second := by
  simp only [registerNeed, exprNodes_append, List.countP_append]
  omega

/-- The registers for the expressions that stand in the statement itself. -/
theorem registerNeed_cons (s : Stmt) (rest : List Stmt) :
    registerNeed (s :: rest) = Args.registers s.expressions + registerNeed rest := by
  simp only [registerNeed, exprNodes_cons, List.countP_append, Args.registers_eq]
  omega

mutual

/-- The labels in the code of a statement, counted over its nodes. -/
theorem labels_eq : (s : Stmt) → s.labels = labelNeed s.nodes
  | .declare _ _ => rfl
  | .declareAssign _ _ _ => rfl
  | .assign _ _ => rfl
  | .ifThen e body => by
    rw [labels, nodes, labelNeed_cons, labelsAll_eq body]
    rfl
  | .ifElse e body otherwise => by
    rw [labels, nodes, labelNeed_cons, labelNeed_append, labelsAll_eq body,
      labelsAll_eq otherwise, Nat.add_assoc]
    rfl
  | .loop e body => by
    rw [labels, nodes, labelNeed_cons, labelsAll_eq body]
    rfl
  | .block body => by
    rw [labels, nodes, labelNeed_cons, labelsAll_eq body]
    exact (Nat.zero_add _).symm
  | .function _ _ _ body => by
    rw [labels, nodes, labelNeed_cons, labelsAll_eq body]
    exact (Nat.zero_add _).symm
  | .call _ _ => rfl
  | .ret _ => rfl

private theorem labelsAll_eq : (ss : List Stmt) → labelsAll ss = labelNeed (nodesAll ss)
  | [] => rfl
  | s :: rest => by rw [labelsAll, nodesAll, labelNeed_append, labels_eq s, labelsAll_eq rest]

end

mutual

/-- The registers in the code of a statement, counted over its nodes. -/
theorem registers_eq : (s : Stmt) → s.registers = registerNeed s.nodes
  | .declare _ _ => rfl
  | .declareAssign _ _ _ => by
    rw [nodes, registerNeed_cons]
    rfl
  | .assign _ _ => by
    rw [nodes, registerNeed_cons]
    rfl
  | .ifThen _ body => by
    rw [registers, nodes, registerNeed_cons, registersAll_eq body]
    rfl
  | .ifElse _ body otherwise => by
    rw [registers, nodes, registerNeed_cons, registerNeed_append, registersAll_eq body,
      registersAll_eq otherwise, Nat.add_assoc]
    rfl
  | .loop _ body => by
    rw [registers, nodes, registerNeed_cons, registersAll_eq body]
    rfl
  | .block body => by
    rw [registers, nodes, registerNeed_cons, registersAll_eq body]
    exact (Nat.zero_add _).symm
  | .function _ _ _ body => by
    rw [registers, nodes, registerNeed_cons, registersAll_eq body]
    exact (Nat.zero_add _).symm
  | .call _ _ => by
    rw [nodes, registerNeed_cons]
    rfl
  | .ret _ => by
    rw [nodes, registerNeed_cons]
    rfl

private theorem registersAll_eq : (ss : List Stmt) → registersAll ss = registerNeed (nodesAll ss)
  | [] => rfl
  | s :: rest => by
    rw [registersAll, nodesAll, registerNeed_append, registers_eq s, registersAll_eq rest]

end

mutual

/-- The functions in a statement are nodes of it. -/
theorem functionNames_eq : (s : Stmt) → s.functionNames = (s.nodes.filterMap function?).map (·.1)
  | .declare _ _ => rfl
  | .declareAssign _ _ _ => rfl
  | .assign _ _ => rfl
  | .ifThen _ body => functionNamesAll_eq body
  | .ifElse _ body otherwise => by
    rw [functionNames, functionNamesAll_eq body, functionNamesAll_eq otherwise, ← List.map_append,
      ← List.filterMap_append]
    rfl
  | .loop _ body => functionNamesAll_eq body
  | .block body => functionNamesAll_eq body
  | .function name _ _ body => congrArg (name :: ·) (functionNamesAll_eq body)
  | .call _ _ => rfl
  | .ret _ => rfl

private theorem functionNamesAll_eq : (ss : List Stmt) →
    functionNamesAll ss = ((nodesAll ss).filterMap function?).map (·.1)
  | [] => rfl
  | s :: rest => by
    rw [functionNamesAll, nodesAll, List.filterMap_append, List.map_append, functionNames_eq s,
      functionNamesAll_eq rest]

end

end Stmt

/-! ### Programs -/

namespace Program

/-- All statements of a program, at any depth. -/
def statements (p : Program) : List Stmt :=
  Stmt.nodesAll p.body

/-- The functions that a program declares at any depth, with their bodies. -/
def functions (p : Program) : List (String × List Stmt) :=
  p.statements.filterMap Stmt.function?

/-- The names of the functions that a program declares at any depth. -/
def functionNames (p : Program) : List String :=
  p.functions.map (·.1)

/-- The number of labels that a program needs. -/
def labelCount (p : Program) : Nat :=
  Stmt.labelNeed p.statements

/-- The number of registers that a program needs. -/
def registerCount (p : Program) : Nat :=
  Stmt.registerNeed p.statements

/-- The labels that the body takes are those of the program. -/
theorem labelsAll_body (p : Program) : Stmt.labelsAll p.body = p.labelCount :=
  Stmt.labelsAll_eq p.body

/-- The registers that the body takes are those of the program. -/
theorem registersAll_body (p : Program) : Stmt.registersAll p.body = p.registerCount :=
  Stmt.registersAll_eq p.body

/-- The functions in the body are those of the program. -/
theorem functionNamesAll_body (p : Program) :
    Stmt.functionNamesAll p.body = p.functionNames :=
  Stmt.functionNamesAll_eq p.body

end Program

end TinyImp
