import TinyImp.Asm
import TinyImp.Stmt

/-!
# Code

The code of an expression or a statement is a list of instructions, determined by the number of
its first free register and its first free label. How many of each it uses up is known without the
code, so that the code of a sequence is the codes of its parts, one after the other, each starting
where the numbers of the part before end.

An expression leaves its value in an operand: a constant and an arithmetic result in a register of
their own, a variable in its memory cell. A comparison sets the flags and hands on the operand of
its left side. A condition is then compared with zero.
-/

namespace TinyImp

open Asm

/-! ### Expressions -/

namespace Expr

/-- The number of registers in the code of an expression. -/
def registers : Expr → Nat
  | .const _ => 1
  | .var _ _ => 0
  | .arith _ _ lhs rhs => lhs.registers + rhs.registers + 1
  | .compare _ lhs rhs => lhs.registers + rhs.registers

/-- The operand that holds the value of an expression after its code. -/
def operand (reg : Nat) : Expr → Operand
  | .const _ => .reg reg
  | .var name _ => .data name
  | .arith _ _ lhs rhs => .reg (reg + lhs.registers + rhs.registers)
  | .compare _ lhs _ => lhs.operand reg

/-- Computes `lhs op rhs` into `result`. A division goes through the accumulator. -/
def arithCode (op : ArithOp) (lhs rhs result : Operand) : List Instr :=
  .mov result lhs ::
    match op with
    | .add => [.add result rhs]
    | .sub => [.sub result rhs]
    | .mul => [.imul result rhs]
    | .div => [.mov .eax lhs, .cdq, .idiv rhs, .mov result .eax]

/-- The code of an expression. -/
def code (reg : Nat) : Expr → List Instr
  | .const value => [.mov (.reg reg) (.imm value)]
  | .var _ _ => []
  | .arith op type lhs rhs =>
    lhs.code reg ++ rhs.code (reg + lhs.registers) ++
      arithCode op (lhs.operand reg) (rhs.operand (reg + lhs.registers))
        ((Expr.arith op type lhs rhs).operand reg)
  | .compare _ lhs rhs =>
    lhs.code reg ++ rhs.code (reg + lhs.registers) ++
      [.cmp (lhs.operand reg) (rhs.operand (reg + lhs.registers))]

/-- Goes on after the code if the expression is nonzero, and to the label if it is zero. -/
def conditionCode (reg : Nat) (condition : Expr) (ifZero : String) : List Instr :=
  condition.code reg ++ [.cmp (condition.operand reg) (.imm (.int 0)), .je ifZero]

end Expr

/-! ### Calls -/

namespace Args

/-- The number of registers in the code of a list of arguments. -/
def registers : List Expr → Nat
  | [] => 0
  | e :: rest => e.registers + registers rest

/-- The code of a list of arguments, first to last. -/
def code (reg : Nat) : List Expr → List Instr
  | [] => []
  | e :: rest => e.code reg ++ code (reg + e.registers) rest

/-- The operands that hold the arguments after their code. -/
def operands (reg : Nat) : List Expr → List Operand
  | [] => []
  | e :: rest => e.operand reg :: operands (reg + e.registers) rest

/-- The bytes that an argument takes on the stack. -/
def slotSize : Nat := 4

/-- Evaluates the arguments, pushes them in order, calls, and takes them off the stack again. -/
def callCode (reg : Nat) (name : String) (args : List Expr) : List Instr :=
  code reg args ++ (operands reg args).mapIdx (fun i src => .push src i) ++
    [.call name, .freeStack (args.length * slotSize)]

end Args

/-! ### Statements -/

/-- The name of the generated label with the given number. -/
def labelName (n : Nat) : String := "L" ++ digits n

mutual

/-- The number of registers in the code of a statement. -/
def Stmt.registers : Stmt → Nat
  | .declare _ _ => 0
  | .declareAssign _ _ init => init.registers
  | .assign _ value => value.registers
  | .ifThen condition body => condition.registers + Stmt.registersAll body
  | .ifElse condition body otherwise =>
    condition.registers + Stmt.registersAll body + Stmt.registersAll otherwise
  | .loop condition body => condition.registers + Stmt.registersAll body
  | .block body => Stmt.registersAll body
  | .function _ _ _ body => Stmt.registersAll body
  | .call _ args => Args.registers args
  | .ret value => value.registers

/-- The number of registers in the code of several statements. -/
def Stmt.registersAll : List Stmt → Nat
  | [] => 0
  | s :: rest => s.registers + Stmt.registersAll rest

end

mutual

/-- The number of generated labels in the code of a statement. -/
def Stmt.labels : Stmt → Nat
  | .declare _ _ => 0
  | .declareAssign _ _ _ => 0
  | .assign _ _ => 0
  | .ifThen _ body => 1 + Stmt.labelsAll body
  | .ifElse _ body otherwise => 2 + Stmt.labelsAll body + Stmt.labelsAll otherwise
  | .loop _ body => 2 + Stmt.labelsAll body
  | .block body => Stmt.labelsAll body
  | .function _ _ _ body => Stmt.labelsAll body
  | .call _ _ => 0
  | .ret _ => 0

/-- The number of generated labels in the code of several statements. -/
def Stmt.labelsAll : List Stmt → Nat
  | [] => 0
  | s :: rest => s.labels + Stmt.labelsAll rest

end

mutual

/-- The code of a statement. A statement with labels of its own takes the first free ones, before
those of its parts. -/
def Stmt.code (reg label : Nat) : Stmt → List Instr
  | .declare name _ => [.comment s!"declare {name}"]
  | .declareAssign name _ init => init.code reg ++ [.mov (.data name) (init.operand reg)]
  | .assign name value => value.code reg ++ [.mov (.data name) (value.operand reg)]
  | .ifThen condition body =>
    condition.conditionCode reg (labelName label) ++
      Stmt.codeAll (reg + condition.registers) (label + 1) body ++
      [.label (labelName label)]
  | .ifElse condition body otherwise =>
    condition.conditionCode reg (labelName label) ++
      Stmt.codeAll (reg + condition.registers) (label + 2) body ++
      [.jmp (labelName (label + 1)), .label (labelName label)] ++
      Stmt.codeAll (reg + condition.registers + Stmt.registersAll body)
        (label + 2 + Stmt.labelsAll body) otherwise ++
      [.label (labelName (label + 1))]
  | .loop condition body =>
    .label (labelName label) :: condition.conditionCode reg (labelName (label + 1)) ++
      Stmt.codeAll (reg + condition.registers) (label + 2) body ++
      [.jmp (labelName label), .label (labelName (label + 1))]
  | .block body => Stmt.codeAll reg label body
  | .function name _ _ body =>
    [.comment s!"Function {name}", .label name] ++ Stmt.codeAll reg label body ++ [.ret]
  | .call name args => Args.callCode reg name args
  | .ret value => value.code reg ++ [.mov .eax (value.operand reg), .ret]

/-- The code of several statements, one after the other. -/
def Stmt.codeAll (reg label : Nat) : List Stmt → List Instr
  | [] => []
  | s :: rest =>
    s.code reg label ++ Stmt.codeAll (reg + s.registers) (label + s.labels) rest

end

namespace Stmt

/-- Registers are taken by one statement after the other. -/
theorem registersAll_append (first second : List Stmt) :
    registersAll (first ++ second) = registersAll first + registersAll second := by
  induction first with
  | nil => simp [registersAll]
  | cons s rest ih => simp [registersAll, ih, Nat.add_assoc]

/-- Labels are taken by one statement after the other. -/
theorem labelsAll_append (first second : List Stmt) :
    labelsAll (first ++ second) = labelsAll first + labelsAll second := by
  induction first with
  | nil => simp [labelsAll]
  | cons s rest ih => simp [labelsAll, ih, Nat.add_assoc]

/-- The code of a sequence is the codes of its parts, the second numbered on from the first. -/
theorem codeAll_append (reg label : Nat) (first second : List Stmt) :
    codeAll reg label (first ++ second) =
      codeAll reg label first ++
        codeAll (reg + registersAll first) (label + labelsAll first) second := by
  induction first generalizing reg label with
  | nil => simp [codeAll, registersAll, labelsAll]
  | cons s rest ih => simp [codeAll, registersAll, labelsAll, ih, Nat.add_assoc]

end Stmt

/-! ### Programs -/

namespace Program

/-- The names declared at the top level, each at its first declaration only. -/
def dataNames (p : Program) : List String :=
  (p.body.filterMap Stmt.declared?).foldl
    (fun names name => if name ∈ names then names else names ++ [name]) []

/-- The assembly program that a program compiles to. -/
def assembly (p : Program) : Assembly where
  data := p.dataNames
  text := Stmt.codeAll 0 0 p.body

end Program

end TinyImp
