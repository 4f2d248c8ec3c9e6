import TinyImp.Proofs.Code.Registers
import TinyImp.Proofs.Execution.Blocks

/-!
# Names in the listing

The names of a program's variables and functions stand in the listing as they are, next to the names
of registers, of the accumulator and of generated labels. Nothing keeps the two kinds apart, so a
program can use a name that is taken: `taken_names_clash`.

Which names are taken follows from what the code of a program mentions. Its registers and labels are
known by their numbers; every other operand comes from a node of the program, and every node
contributes its own: `Program.mem_operands_iff`.
-/

namespace TinyImp

open Asm

/-! ### The operands of a piece of code -/

namespace Asm

/-- The operands of the lines of a piece of code, in order. -/
def operands (code : List Instr) : List Operand :=
  code.flatMap Instr.operands

@[simp]
theorem operands_nil : operands [] = [] := rfl

@[simp]
theorem operands_cons (i : Instr) (code : List Instr) :
    operands (i :: code) = i.operands ++ operands code := List.flatMap_cons

/-- The operands of code are in the order of the code. -/
@[simp]
theorem operands_append (first second : List Instr) :
    operands (first ++ second) = operands first ++ operands second := List.flatMap_append

private theorem Operand.ne_reg {o : Operand} (ho : o.register? = none) (r : Nat) : o ≠ .reg r := by
  rintro rfl
  cases ho

/-- The operand is a register or the accumulator. -/
def Operand.isMachine : Operand → Bool
  | .reg _ => true
  | .eax => true
  | _ => false

/-- The name of a variable is written like a register or the accumulator that the code uses. -/
def Clashes (text : List Instr) (name : String) : Prop :=
  ∃ o ∈ operands text, o.isMachine = true ∧ o.text = (Operand.data name).text

end Asm

/-! ### What the nodes of a program contribute -/

namespace Expr

/-- The operands other than registers that an expression contributes, apart from its parts. -/
def ownOperands : Expr → List Operand
  | .const value => [.imm value]
  | .var name _ => [.data name]
  | .arith .div _ _ _ => [.eax]
  | _ => []

/-- The operands other than registers that an expression contributes. -/
def mentioned (e : Expr) : List Operand :=
  e.nodes.flatMap ownOperands

/-- An operation has its sides and its result, and a division also the accumulator. -/
private theorem mem_operands_arithCode {o lhs rhs result : Operand} (op : ArithOp) :
    o ∈ operands (arithCode op lhs rhs result) ↔
      o = result ∨ o = lhs ∨ o = rhs ∨ op = .div ∧ o = .eax := by
  cases op <;> simp [arithCode, Instr.operands] <;> tauto

/-- An operation mentions what its sides mention, and a division also the accumulator. -/
theorem mem_mentioned_arith {o : Operand} {op : ArithOp} {type : Ty} {lhs rhs : Expr} :
    o ∈ (Expr.arith op type lhs rhs).mentioned ↔
      op = .div ∧ o = .eax ∨ o ∈ lhs.mentioned ∨ o ∈ rhs.mentioned := by
  cases op <;> simp [mentioned, nodes, ownOperands]

/-- What the nodes of an expression contribute is mentioned in its code, or is the operand with its
value. -/
theorem mem_mentioned_iff {o : Operand} (ho : o.register? = none) (e : Expr) (reg : Nat) :
    o ∈ e.mentioned ↔ o ∈ operands (e.code reg) ∨ o = e.operand reg := by
  induction e generalizing reg with
  | const value =>
    simp [code, operand, mentioned, nodes, ownOperands, Instr.operands, Operand.ne_reg ho]
  | var name type => simp [code, operand, mentioned, nodes, ownOperands]
  | arith op type lhs rhs ihl ihr =>
    rw [mem_mentioned_arith, ihl reg, ihr (reg + lhs.registers)]
    simp only [code, operand, operands_append, List.mem_append, mem_operands_arithCode,
      Operand.ne_reg ho]
    tauto
  | compare op lhs rhs ihl ihr =>
    have hparts : o ∈ (Expr.compare op lhs rhs).mentioned ↔
        o ∈ lhs.mentioned ∨ o ∈ rhs.mentioned := by
      simp [mentioned, nodes, ownOperands]
    rw [hparts, ihl reg, ihr (reg + lhs.registers)]
    simp only [code, operand, operands_append, operands_cons, operands_nil, Instr.operands,
      List.mem_append, List.mem_cons]
    tauto

/-- A condition is compared with zero. -/
theorem mem_operands_conditionCode {o : Operand} (ho : o.register? = none) (e : Expr) (reg : Nat)
    (ifZero : String) :
    o ∈ operands (e.conditionCode reg ifZero) ↔ o ∈ e.mentioned ∨ o = .imm (.int 0) := by
  rw [mem_mentioned_iff ho e reg]
  simp only [conditionCode, operands_append, operands_cons, operands_nil, Instr.operands,
    List.mem_append, List.mem_cons]
  tauto

/-- The value of an expression is moved away behind its code. -/
theorem mem_operands_move {o : Operand} (ho : o.register? = none) (e : Expr) (reg : Nat)
    (dst : Operand) :
    o ∈ operands (e.code reg ++ [.mov dst (e.operand reg)]) ↔ o = dst ∨ o ∈ e.mentioned := by
  rw [mem_mentioned_iff ho e reg]
  simp only [operands_append, operands_cons, operands_nil, Instr.operands, List.mem_append,
    List.mem_cons]
  tauto

end Expr

/-- What the arguments contribute is mentioned in their code, or is among their operands. -/
theorem Args.mem_mentioned_iff {o : Operand} (ho : o.register? = none) (args : List Expr)
    (reg : Nat) :
    o ∈ args.flatMap Expr.mentioned ↔
      o ∈ Asm.operands (code reg args) ∨ o ∈ operands reg args := by
  induction args generalizing reg with
  | nil => simp [code, operands]
  | cons e rest ih =>
    rw [List.flatMap_cons, List.mem_append, e.mem_mentioned_iff ho reg,
      ih (reg + e.registers)]
    simp only [code, operands, operands_append, List.mem_append, List.mem_cons]
    tauto

/-- A call mentions what its arguments contribute. -/
theorem Args.mem_operands_callCode {o : Operand} (ho : o.register? = none) (args : List Expr)
    (reg : Nat) (name : String) :
    o ∈ Asm.operands (callCode reg name args) ↔ o ∈ args.flatMap Expr.mentioned := by
  have hpush : o ∈ Asm.operands ((operands reg args).mapIdx fun i src => .push src i) ↔
      o ∈ operands reg args := by
    simp only [Asm.operands, List.mem_flatMap, List.mem_mapIdx]
    constructor
    · rintro ⟨_, ⟨k, hk, rfl⟩, hmem⟩
      rw [List.mem_singleton.mp hmem]
      exact List.getElem_mem hk
    · intro hmem
      obtain ⟨k, hk, rfl⟩ := List.getElem_of_mem hmem
      exact ⟨_, ⟨k, hk, rfl⟩, List.mem_singleton_self _⟩
  rw [mem_mentioned_iff ho args reg]
  simp only [callCode, operands_append, operands_cons, operands_nil, Instr.operands,
    List.append_nil, List.mem_append, hpush]

namespace Stmt

/-- The operands other than registers that a statement contributes, apart from its expressions and
the statements inside it. -/
def ownOperands : Stmt → List Operand
  | .declareAssign name _ _ => [.data name]
  | .assign name _ => [.data name]
  | .ifThen _ _ => [.imm (.int 0)]
  | .ifElse _ _ _ => [.imm (.int 0)]
  | .loop _ _ => [.imm (.int 0)]
  | .ret _ => [.eax]
  | _ => []

/-- The operands other than registers that statements contribute, with their expressions. -/
def mentioned (ss : List Stmt) : List Operand :=
  ss.flatMap fun s => s.ownOperands ++ s.expressions.flatMap Expr.mentioned

/-- Statements mention their own operands and those of their expressions. -/
@[simp]
theorem mem_mentioned_cons {o : Operand} {s : Stmt} {rest : List Stmt} :
    o ∈ mentioned (s :: rest) ↔
      (o ∈ s.ownOperands ∨ o ∈ s.expressions.flatMap Expr.mentioned) ∨ o ∈ mentioned rest := by
  rw [mentioned, List.flatMap_cons, List.mem_append, List.mem_append]
  rfl

@[simp]
theorem mentioned_nil : mentioned [] = [] := rfl

/-- What is mentioned is in the order of the statements. -/
@[simp]
theorem mentioned_append (first second : List Stmt) :
    mentioned (first ++ second) = mentioned first ++ mentioned second :=
  List.flatMap_append

/-- A statement with a condition contributes what stands in the code of the condition. -/
theorem mem_mentioned_condition {o : Operand} (ho : o.register? = none) {s : Stmt} {e : Expr}
    {rest : List Stmt} (hown : s.ownOperands = [.imm (.int 0)]) (he : s.expressions = [e])
    (reg : Nat) (ifZero : String) :
    o ∈ mentioned (s :: rest) ↔
      o ∈ operands (e.conditionCode reg ifZero) ∨ o ∈ mentioned rest := by
  rw [mem_mentioned_cons, hown, he, e.mem_operands_conditionCode ho, List.flatMap_singleton,
    List.mem_singleton, or_comm (a := o = _)]

mutual

/-- **The code of a statement** mentions what its nodes contribute, and nothing else but
registers. -/
theorem mem_operands_code {o : Operand} (ho : o.register? = none) (reg label : Nat) : (s : Stmt) →
    (o ∈ operands (s.code reg label) ↔ o ∈ mentioned s.nodes)
  | .declare _ _ => by simp [code, nodes, ownOperands, expressions, Instr.operands]
  | .declareAssign name _ init => by
    rw [code, init.mem_operands_move ho, nodes, mem_mentioned_cons]
    simp [ownOperands, expressions]
  | .assign name value => by
    rw [code, value.mem_operands_move ho, nodes, mem_mentioned_cons]
    simp [ownOperands, expressions]
  | .ifThen e body => by
    have hbody := mem_operands_codeAll ho (reg + e.registers) (label + 1) body
    rw [nodes, mem_mentioned_condition ho rfl rfl reg (labelName label), ← hbody]
    simp [code, Instr.operands]
  | .ifElse e body otherwise => by
    have hbody := mem_operands_codeAll ho (reg + e.registers) (label + 2) body
    have hotherwise := mem_operands_codeAll ho (reg + e.registers + registersAll body)
      (label + 2 + labelsAll body) otherwise
    rw [nodes, mem_mentioned_condition ho rfl rfl reg (labelName label), mentioned_append,
      List.mem_append, ← hbody, ← hotherwise]
    simp [code, Instr.operands]
  | .loop e body => by
    have hbody := mem_operands_codeAll ho (reg + e.registers) (label + 2) body
    rw [nodes, mem_mentioned_condition ho rfl rfl reg (labelName (label + 1)), ← hbody]
    simp [code, Instr.operands]
  | .block body => by
    rw [code, mem_operands_codeAll ho reg label body, nodes, mem_mentioned_cons]
    simp [ownOperands, expressions]
  | .function f _ _ body => by
    have hbody := mem_operands_codeAll ho reg label body
    simp only [code, nodes, operands_append, List.mem_append, hbody, mem_mentioned_cons]
    simp [ownOperands, expressions, Instr.operands]
  | .call name args => by
    rw [code, Args.mem_operands_callCode ho, nodes, mem_mentioned_cons]
    simp [ownOperands, expressions]
  | .ret value => by
    rw [code, nodes, mem_mentioned_cons, List.append_cons, operands_append, List.mem_append,
      value.mem_operands_move ho]
    simp [ownOperands, expressions, Instr.operands]

/-- The same for several statements. -/
theorem mem_operands_codeAll {o : Operand} (ho : o.register? = none) (reg label : Nat) :
    (ss : List Stmt) → (o ∈ operands (codeAll reg label ss) ↔ o ∈ mentioned (nodesAll ss))
  | [] => Iff.rfl
  | s :: rest => by
    rw [codeAll, nodesAll, operands_append, mentioned_append, List.mem_append, List.mem_append,
      mem_operands_code ho reg label s, mem_operands_codeAll ho _ _ rest]

end

end Stmt

/-! ### Programs -/

/-- The name of a variable that is read. -/
def Expr.readName? : Expr → Option String
  | .var name _ => some name
  | _ => none

/-- The expression is a division. -/
def Expr.isDivision : Expr → Bool
  | .arith .div _ _ _ => true
  | _ => false

/-- The name of a variable that the statement gives a value to. -/
def Stmt.target? : Stmt → Option String
  | .declareAssign name _ _ => some name
  | .assign name _ => some name
  | _ => none

/-- The statement returns from a function. -/
def Stmt.isReturn : Stmt → Bool
  | .ret _ => true
  | _ => false

namespace Program

/-- The variables that a program gives a value to or reads, at any depth. -/
def variableNames (p : Program) : List String :=
  p.statements.filterMap Stmt.target? ++ (Stmt.exprNodes p.statements).filterMap Expr.readName?

/-- Something in the program needs the accumulator: a return or a division. -/
def accumulates (p : Program) : Bool :=
  p.statements.any Stmt.isReturn || (Stmt.exprNodes p.statements).any Expr.isDivision

/-- **The names that a variable had better not have**: those of the registers that the program
needs, and that of the accumulator if it needs it. -/
def Reserves (p : Program) (name : String) : Prop :=
  (∃ r < p.registerCount, name = "r" ++ digits r) ∨ name = "eax" ∧ p.accumulates = true

/-- The code of a program mentions what its nodes contribute. -/
theorem mem_operands_iff (p : Program) {o : Operand} (ho : o.register? = none) :
    o ∈ operands p.assembly.text ↔
      (∃ s ∈ p.statements, o ∈ s.ownOperands) ∨
        ∃ e ∈ Stmt.exprNodes p.statements, o ∈ e.ownOperands := by
  have hcode : o ∈ operands p.assembly.text ↔ o ∈ Stmt.mentioned p.statements :=
    Stmt.mem_operands_codeAll ho 0 0 p.body
  rw [hcode, Stmt.mentioned, Stmt.exprNodes]
  simp only [List.mem_flatMap, List.mem_append, Expr.mentioned]
  constructor
  · rintro ⟨s, hs, hown | ⟨e, he, n, hn, hown⟩⟩
    · exact .inl ⟨s, hs, hown⟩
    · exact .inr ⟨n, ⟨s, hs, e, he, hn⟩, hown⟩
  · rintro (⟨s, hs, hown⟩ | ⟨n, ⟨s, hs, e, he, hn⟩, hown⟩)
    · exact ⟨s, hs, .inl hown⟩
    · exact ⟨s, hs, .inr ⟨e, he, n, hn, hown⟩⟩

private theorem data_mem_operands_iff (p : Program) (name : String) :
    .data name ∈ operands p.assembly.text ↔ name ∈ p.variableNames := by
  have hstmt (s : Stmt) : .data name ∈ s.ownOperands ↔ s.target? = some name := by
    cases s <;> simp [Stmt.ownOperands, Stmt.target?, eq_comm]
  have hexpr (e : Expr) : .data name ∈ e.ownOperands ↔ e.readName? = some name := by
    fun_cases Expr.ownOperands e <;> simp_all [Expr.readName?, eq_comm]
  rw [p.mem_operands_iff rfl, variableNames, List.mem_append, List.mem_filterMap,
    List.mem_filterMap]
  simp only [hstmt, hexpr]

private theorem eax_mem_operands_iff (p : Program) :
    .eax ∈ operands p.assembly.text ↔ p.accumulates = true := by
  have hstmt (s : Stmt) : .eax ∈ s.ownOperands ↔ s.isReturn = true := by
    cases s <;> simp [Stmt.ownOperands, Stmt.isReturn]
  have hexpr (e : Expr) : .eax ∈ e.ownOperands ↔ e.isDivision = true := by
    fun_cases Expr.ownOperands e <;> simp_all [Expr.isDivision]
  rw [p.mem_operands_iff rfl, accumulates, Bool.or_eq_true, List.any_eq_true, List.any_eq_true]
  simp only [hstmt, hexpr]

private theorem reg_mem_operands_iff (p : Program) (r : Nat) :
    .reg r ∈ operands p.assembly.text ↔ r < p.registerCount := by
  obtain ⟨w, hsteps, hw⟩ := p.steps_assembly
  rw [← hw, ← hsteps.exists_usesAt_iff, operands, List.mem_flatMap]
  constructor
  · rintro ⟨instr, hmem, hr⟩
    obtain ⟨i, hi⟩ := List.mem_iff_getElem?.mp hmem
    exact ⟨i, instr, hi, Instr.mem_registers.mpr hr⟩
  · rintro ⟨i, instr, hi, hr⟩
    exact ⟨instr, List.mem_of_getElem? hi, Instr.mem_registers.mp hr⟩

/-- A variable clashes with a register or the accumulator if the program reserves its name. -/
theorem clashes_iff (p : Program) (name : String) :
    Clashes p.assembly.text name ↔ p.Reserves name := by
  constructor
  · rintro ⟨o, ho, hmachine, htext⟩
    cases o with
    | reg r => exact .inl ⟨r, (p.reg_mem_operands_iff r).mp ho, htext.symm⟩
    | eax => exact .inr ⟨htext.symm, p.eax_mem_operands_iff.mp ho⟩
    | data => cases hmachine
    | imm => cases hmachine
  · rintro (⟨r, hr, rfl⟩ | ⟨rfl, hacc⟩)
    · exact ⟨.reg r, (p.reg_mem_operands_iff r).mpr hr, rfl, rfl⟩
    · exact ⟨.eax, p.eax_mem_operands_iff.mpr hacc, rfl, rfl⟩

/-- A label stands at two places if a function is declared twice or has the name of a generated
label that the program needs. -/
theorem nodup_labelNames_iff (p : Program) :
    (labelNames p.assembly.text).Nodup ↔
      p.functionNames.Nodup ∧ ∀ n < p.labelCount, labelName n ∉ p.functionNames := by
  have hlabels : (labelNames p.assembly.text).Perm
      (Stmt.generatedLabels 0 p.labelCount ++ p.functionNames) := by
    rw [← p.labelsAll_body, ← p.functionNamesAll_body]
    exact Stmt.labelNames_codeAll_perm 0 0 p.body
  rw [hlabels.nodup_iff, List.nodup_append']
  constructor
  · rintro ⟨-, hfunctions, hdisjoint⟩
    refine ⟨hfunctions, fun n hn => hdisjoint (List.mem_map_of_mem ?_)⟩
    simpa using hn
  · rintro ⟨hfunctions, hnames⟩
    refine ⟨Stmt.nodup_generatedLabels 0 _, hfunctions, fun name hname => ?_⟩
    obtain ⟨n, hn, rfl⟩ := List.mem_map.mp hname
    exact hnames n (by simpa using hn)

end Program

/-- **When names clash in the listing.** For every text that parses: no label stands at two places
if and only if no function is declared twice and none has the name of a generated label that the
program needs. The variables in the code are those that the program gives a value to or reads, and
one of them is written like a register or the accumulator in the same code if and only if it has the
name of a register that the program needs, or that of the accumulator in a program with a division
or a return. -/
theorem names_clash_iff {source : String} {options : Options} {p : Program}
    (hp : (compile source options).program = .ok p) :
    ∃ a, (compile source options).assembly = some a ∧
      ((labelNames a.text).Nodup ↔
        p.functionNames.Nodup ∧ ∀ n < p.labelCount, labelName n ∉ p.functionNames) ∧
      (∀ name, .data name ∈ operands a.text ↔ name ∈ p.variableNames) ∧
      ∀ name, Clashes a.text name ↔ p.Reserves name := by
  exact ⟨p.assembly, assembly_compile_of_program hp, p.nodup_labelNames_iff,
    p.data_mem_operands_iff, p.clashes_iff⟩

/-- A program with names that would be taken if it had a constant, a division or one more
conditional. -/
def narrowEscape : String :=
  "int r0 = eax; if (r0) \x7b \x7d int L1() \x7b \x7d"

def narrowEscapeTokens : List Located :=
  [.kwInt, .identifier "r0", .assign, .identifier "eax", .semicolon, .kwIf, .openParen,
    .identifier "r0", .closeParen, .openBrace, .closeBrace, .kwInt, .identifier "L1", .openParen,
    .closeParen, .openBrace, .closeBrace].map fun w => ⟨w, 1⟩

def narrowEscapeProgram : Program :=
  ⟨[.declareAssign "r0" .int (.var "eax" .unknown), .ifThen (.var "r0" .int) [],
    .function "L1" .int [] []]⟩

/-- Variables with the names of a register and of the accumulator do no harm where the code has no
such register. -/
theorem narrowEscape_no_clash :
    (compile narrowEscape {}).program = .ok narrowEscapeProgram ∧
      ∃ a, (compile narrowEscape {}).assembly = some a ∧ (labelNames a.text).Nodup ∧
        .data "r0" ∈ operands a.text ∧ ¬ Clashes a.text "r0" ∧
        .data "eax" ∈ operands a.text ∧ ¬ Clashes a.text "eax" := by
  have htokens : (scan narrowEscape).tokens = narrowEscapeTokens := by decide +kernel
  have hp : (compile narrowEscape {}).program = .ok narrowEscapeProgram := by
    rw [program_compile_of_scan htokens (by decide +kernel)]
    rfl
  have hreserves (name : String) : ¬ narrowEscapeProgram.Reserves name := by
    rintro (⟨r, hr, -⟩ | ⟨-, hacc⟩)
    · exact absurd hr (Nat.not_lt_zero r)
    · exact absurd hacc (by decide)
  obtain ⟨a, ha, hlabels, hvariables, hclashes⟩ := names_clash_iff hp
  exact ⟨hp, a, ha, hlabels.mpr ⟨by decide, by decide⟩, (hvariables _).mpr (by decide),
    (hclashes _).not.mpr (hreserves _), (hvariables _).mpr (by decide),
    (hclashes _).not.mpr (hreserves _)⟩

/-- A variable with the name of a register. -/
def takenRegister : String := "int r0 = 1;"

def takenRegisterTokens : List Located :=
  [.kwInt, .identifier "r0", .assign, .intLit 1, .semicolon].map fun w => ⟨w, 1⟩

def takenRegisterProgram : Program :=
  ⟨[.declareAssign "r0" .int (.const (.int 1))]⟩

/-- A variable with the name of the accumulator, and a division. -/
def takenAccumulator : String := "int eax = 1 / 1;"

def takenAccumulatorTokens : List Located :=
  [.kwInt, .identifier "eax", .assign, .intLit 1, .slash, .intLit 1,
    .semicolon].map fun w => ⟨w, 1⟩

def takenAccumulatorProgram : Program :=
  ⟨[.declareAssign "eax" .int (.arith .div .int (.const (.int 1)) (.const (.int 1)))]⟩

/-- A function with the name of a generated label, and a conditional. -/
def takenLabel : String := "int L0() \x7b return 1; \x7d if (1) \x7b \x7d"

def takenLabelTokens : List Located :=
  [.kwInt, .identifier "L0", .openParen, .closeParen, .openBrace, .kwReturn, .intLit 1, .semicolon,
    .closeBrace, .kwIf, .openParen, .intLit 1, .closeParen, .openBrace,
    .closeBrace].map fun w => ⟨w, 1⟩

def takenLabelProgram : Program :=
  ⟨[.function "L0" .int [] [.ret (.const (.int 1))], .ifThen (.const (.int 1)) []]⟩

/-- **Names can clash in the listing**, although no function is declared twice and there is no
diagnostic: a variable with a register, a variable with the accumulator, and a function with a
generated label. -/
theorem taken_names_clash :
    ((compile takenRegister {}).isClean = true ∧
      (compile takenRegister {}).program = .ok takenRegisterProgram ∧
      takenRegisterProgram.functionNames.Nodup ∧
      ∃ a, (compile takenRegister {}).assembly = some a ∧ .data "r0" ∈ operands a.text ∧
        .reg 0 ∈ operands a.text ∧ (Operand.data "r0").text = (Operand.reg 0).text) ∧
    ((compile takenAccumulator {}).isClean = true ∧
      (compile takenAccumulator {}).program = .ok takenAccumulatorProgram ∧
      takenAccumulatorProgram.functionNames.Nodup ∧
      ∃ a, (compile takenAccumulator {}).assembly = some a ∧ .data "eax" ∈ operands a.text ∧
        .eax ∈ operands a.text ∧ (Operand.data "eax").text = Operand.eax.text) ∧
    (compile takenLabel {}).isClean = true ∧
      (compile takenLabel {}).program = .ok takenLabelProgram ∧
      takenLabelProgram.functionNames.Nodup ∧
      ∃ a, (compile takenLabel {}).assembly = some a ∧ (labelNames a.text).count "L0" = 2 := by
  have hregister : (compile takenRegister {}).program = .ok takenRegisterProgram := by
    have htokens : (scan takenRegister).tokens = takenRegisterTokens := by decide +kernel
    rw [program_compile_of_scan htokens (by decide +kernel)]
    rfl
  have haccumulator : (compile takenAccumulator {}).program = .ok takenAccumulatorProgram := by
    have htokens : (scan takenAccumulator).tokens = takenAccumulatorTokens := by decide +kernel
    rw [program_compile_of_scan htokens (by decide +kernel)]
    rfl
  have hlabel : (compile takenLabel {}).program = .ok takenLabelProgram := by
    have htokens : (scan takenLabel).tokens = takenLabelTokens := by decide +kernel
    rw [program_compile_of_scan htokens (by decide +kernel)]
    rfl
  refine ⟨⟨by decide +kernel, hregister, by decide, _, assembly_compile_of_program hregister,
    by decide, by decide, rfl⟩, ⟨by decide +kernel, haccumulator, by decide, _,
    assembly_compile_of_program haccumulator, by decide, by decide, rfl⟩, by decide +kernel,
    hlabel, by decide, _, assembly_compile_of_program hlabel, by decide⟩

end TinyImp
