import TinyImp.Proofs.Code.DataSection
import TinyImp.Proofs.Scanning.Spacing

/-!
# The code of programs one behind the other

The code of a statement depends on the numbers of its first register and its first label in one way
only: higher numbers give the **same code with all numbers raised** (`Stmt.codeAll_add`). To raise a
label is to change its name, so the code of a function whose name looks like that of a generated
label would not stay as it is.

Programs can therefore be compiled one by one (`Program.assembly_append`): the code of `p ++ q` is
that of `p`, followed by that of `q` with its numbers raised by what `p` uses up; and its data names
are those of `p` and those that `q` adds.
-/

namespace TinyImp

open Asm

/-! ### Raising the numbers of registers and labels -/

namespace Asm

/-- The operand with the number of its register raised. -/
def Operand.raise (count : Nat) : Operand → Operand
  | .reg n => .reg (n + count)
  | .data name => .data name
  | .imm value => .imm value
  | .eax => .eax

/-- The number in a name that is an `L` followed by digits. -/
def labelNumber? (name : String) : Option Nat :=
  match name.toList with
  | 'L' :: ds => if !ds.isEmpty && ds.all Char.isDigit then some (decimalValue ds) else none
  | _ => none

/-- The label name with its number raised. Any other name stays as it is. -/
def raiseLabel (count : Nat) (name : String) : String :=
  match labelNumber? name with
  | some n => labelName (n + count)
  | none => name

/-- The instruction with the numbers of its registers and of its label raised. What it calls is not
a generated label, whatever its name. -/
def Instr.raise (regs labels : Nat) : Instr → Instr
  | .comment text => .comment text
  | .label name => .label (raiseLabel labels name)
  | .mov dst src => .mov (dst.raise regs) (src.raise regs)
  | .add dst src => .add (dst.raise regs) (src.raise regs)
  | .sub dst src => .sub (dst.raise regs) (src.raise regs)
  | .imul dst src => .imul (dst.raise regs) (src.raise regs)
  | .cdq => .cdq
  | .idiv src => .idiv (src.raise regs)
  | .cmp lhs rhs => .cmp (lhs.raise regs) (rhs.raise regs)
  | .je target => .je (raiseLabel labels target)
  | .jmp target => .jmp (raiseLabel labels target)
  | .push src index => .push (src.raise regs) index
  | .call name => .call name
  | .freeStack bytes => .freeStack bytes
  | .ret => .ret

/-- The number of a generated label can be read back. -/
private theorem labelNumber?_labelName (n : Nat) : labelNumber? (labelName n) = some n := by
  have hdigits : (Nat.toDigits 10 n).all Char.isDigit = true :=
    List.all_eq_true.mpr fun d hd => Nat.isDigit_of_mem_toDigits (by decide) (by decide) hd
  have hne : (Nat.toDigits 10 n).isEmpty = false :=
    List.isEmpty_eq_false_iff.mpr Nat.toDigits_ne_nil
  have hname : (labelName n).toList = 'L' :: Nat.toDigits 10 n := by simp [labelName, digits]
  simp only [labelNumber?, hname, hdigits, hne, Token.decimalValue_toDigits, Bool.not_false,
    Bool.and_true, if_true]

/-- The number of a generated label goes up. -/
@[simp]
theorem raiseLabel_labelName (count n : Nat) :
    raiseLabel count (labelName n) = labelName (n + count) := by
  rw [raiseLabel, labelNumber?_labelName]

/-- The label of a function is left as it is. -/
private theorem raiseLabel_of_not_labelLike {name : String} (h : ¬ LabelLike name) (count : Nat) :
    raiseLabel count name = name := by
  have hnone : labelNumber? name = none := by
    rw [labelNumber?]
    split
    · rename_i ds hds
      refine if_neg fun hlike => h ⟨ds, ?_, ?_, hds⟩
      · rintro rfl
        cases hlike
      · exact List.all_eq_true.mp (Bool.and_eq_true_iff.mp hlike).2
    · rfl
  rw [raiseLabel, hnone]

end Asm

/-! ### Code with higher numbers -/

namespace Expr

private theorem operand_add (reg count : Nat) (e : Expr) :
    e.operand (reg + count) = (e.operand reg).raise count := by
  induction e with
  | const value => rfl
  | var name type => rfl
  | arith op type lhs rhs =>
    simp only [operand, Operand.raise, Operand.reg.injEq]
    omega
  | compare op lhs rhs ihl => exact ihl

private theorem arithCode_raise (op : ArithOp) (lhs rhs result : Operand) (regs labels : Nat) :
    arithCode op (lhs.raise regs) (rhs.raise regs) (result.raise regs) =
      (arithCode op lhs rhs result).map (Instr.raise regs labels) := by
  cases op <;> rfl

/-- The code from a later register on is the code with its registers raised. -/
private theorem code_add (reg regs labels : Nat) (e : Expr) :
    e.code (reg + regs) = (e.code reg).map (Instr.raise regs labels) := by
  induction e generalizing reg with
  | const value => rfl
  | var name type => rfl
  | arith op type lhs rhs ihl ihr =>
    simp only [code, List.map_append, ← ihl, ← ihr, ← arithCode_raise, ← operand_add,
      Nat.add_right_comm reg regs]
  | compare op lhs rhs ihl ihr =>
    simp only [code, List.map_append, ← ihl, ← ihr, Nat.add_right_comm reg regs, operand_add]
    rfl

/-- A condition from a later register and label on is the condition with both raised. -/
private theorem conditionCode_add (reg regs label labels : Nat) (e : Expr) :
    e.conditionCode (reg + regs) (labelName (label + labels)) =
      (e.conditionCode reg (labelName label)).map (Instr.raise regs labels) := by
  rw [conditionCode, conditionCode, List.map_append, ← code_add, operand_add,
    ← raiseLabel_labelName]
  rfl

end Expr

namespace Args

private theorem code_add (reg regs labels : Nat) (args : List Expr) :
    code (reg + regs) args = (code reg args).map (Instr.raise regs labels) := by
  induction args generalizing reg with
  | nil => rfl
  | cons e rest ih =>
    rw [code, code, List.map_append, ← ih, ← e.code_add, Nat.add_right_comm]

private theorem operands_add (reg count : Nat) (args : List Expr) :
    operands (reg + count) args = (operands reg args).map (Operand.raise count) := by
  induction args generalizing reg with
  | nil => rfl
  | cons e rest ih =>
    rw [operands, operands, List.map_cons, ← ih, e.operand_add, Nat.add_right_comm]

/-- A call from a later register on is the call with its registers raised. -/
private theorem callCode_add (reg regs labels : Nat) (name : String) (args : List Expr) :
    callCode (reg + regs) name args = (callCode reg name args).map (Instr.raise regs labels) := by
  have hpush : ((operands reg args).map (Operand.raise regs)).mapIdx (fun i src => .push src i) =
      ((operands reg args).mapIdx fun i src => .push src i).map (Instr.raise regs labels) := by
    refine List.ext_getElem? fun i => ?_
    simp only [List.getElem?_mapIdx, List.getElem?_map, Option.map_map]
    rfl
  rw [callCode, callCode, List.map_append, List.map_append, ← code_add, operands_add, hpush]
  rfl

end Args

namespace Stmt

mutual

/-- Higher numbers give the same code of a statement, with all numbers raised. -/
theorem code_add (reg label regs labels : Nat) : (s : Stmt) →
    (∀ f ∈ s.functionNames, ¬ LabelLike f) →
    s.code (reg + regs) (label + labels) = (s.code reg label).map (Instr.raise regs labels)
  | .declare _ _, _ => rfl
  | .declareAssign _ _ init, _ => by
    rw [code, code, List.map_append, init.operand_add, ← init.code_add]
    rfl
  | .assign _ value, _ => by
    rw [code, code, List.map_append, value.operand_add, ← value.code_add]
    rfl
  | .ifThen e body, h => by
    have hbody := codeAll_add (reg + e.registers) (label + 1) regs labels body h
    simp only [code, List.map_append, ← e.conditionCode_add, ← hbody, List.map_cons, List.map_nil,
      Instr.raise, raiseLabel_labelName, Nat.add_right_comm _ regs, Nat.add_right_comm _ labels]
  | .ifElse e body otherwise, h => by
    obtain ⟨hb, ho⟩ := List.forall_mem_append.mp h
    have hbody := codeAll_add (reg + e.registers) (label + 2) regs labels body hb
    have hotherwise := codeAll_add (reg + e.registers + registersAll body)
      (label + 2 + labelsAll body) regs labels otherwise ho
    simp only [code, List.map_append, ← e.conditionCode_add, ← hbody, ← hotherwise, List.map_cons,
      List.map_nil, Instr.raise, raiseLabel_labelName, Nat.add_right_comm _ regs,
      Nat.add_right_comm _ labels]
  | .loop e body, h => by
    have hbody := codeAll_add (reg + e.registers) (label + 2) regs labels body h
    simp only [code, List.cons_append, List.map_append, ← e.conditionCode_add, ← hbody,
      List.map_cons, List.map_nil, Instr.raise, raiseLabel_labelName, Nat.add_right_comm _ regs,
      Nat.add_right_comm _ labels]
  | .block body, h => codeAll_add reg label regs labels body h
  | .function name _ _ body, h => by
    obtain ⟨hname, hbody⟩ := List.forall_mem_cons.mp h
    rw [code, code, List.map_append, List.map_append,
      ← codeAll_add reg label regs labels body hbody]
    simp only [List.map_cons, List.map_nil, Instr.raise, raiseLabel_of_not_labelLike hname]
  | .call name args, _ => Args.callCode_add reg regs labels name args
  | .ret value, _ => by
    rw [code, code, List.map_append, value.operand_add, ← value.code_add]
    rfl

/-- **Higher numbers give the same code**, with all numbers raised. -/
theorem codeAll_add (reg label regs labels : Nat) : (ss : List Stmt) →
    (∀ f ∈ functionNamesAll ss, ¬ LabelLike f) →
    codeAll (reg + regs) (label + labels) ss =
      (codeAll reg label ss).map (Instr.raise regs labels)
  | [], _ => rfl
  | s :: rest, h => by
    obtain ⟨hs, hrest⟩ := List.forall_mem_append.mp h
    rw [codeAll, codeAll, List.map_append, ← code_add reg label regs labels s hs,
      ← codeAll_add _ _ regs labels rest hrest, Nat.add_right_comm reg, Nat.add_right_comm label]

end

end Stmt

/-! ### Programs one behind the other -/

namespace Program

/-- The data names of a sequence are those of the first part, and those that the second part
adds. -/
theorem dataNames_append (p q : List Stmt) :
    dataNames ⟨p ++ q⟩ =
      dataNames ⟨p⟩ ++ (dataNames ⟨q⟩).filter fun name => !(dataNames ⟨p⟩).contains name := by
  induction q using List.reverseRecOn with
  | nil => simp [dataNames]
  | append_singleton q s ih =>
    have hmem (name : String) :
        name ∈ dataNames ⟨p ++ q⟩ ↔ name ∈ dataNames ⟨p⟩ ∨ name ∈ dataNames ⟨q⟩ := by
      simp only [mem_dataNames_iff, List.mem_append, or_and_right, exists_or]
    rw [← List.append_assoc]
    obtain ⟨heq, hold⟩ | ⟨name, hs, hnew, heq⟩ := dataNames_append_singleton (p ++ q) s
    · rw [heq, ih]
      congr 1
      obtain ⟨heq', -⟩ | ⟨name, hs, hnew', heq'⟩ := dataNames_append_singleton q s
      · rw [heq']
      · -- new behind `q` but not behind `p ++ q`, so `p` has the name
        have hp : name ∈ dataNames ⟨p⟩ := ((hmem name).mp (hold name hs)).resolve_right hnew'
        simp [heq', hp]
    · obtain ⟨hp, hq⟩ := not_or.mp ((hmem name).not.mp hnew)
      obtain ⟨-, hold'⟩ | ⟨name', hs', -, heq'⟩ := dataNames_append_singleton q s
      · exact absurd (hold' name hs) hq
      · obtain rfl : name = name' := Option.some.inj (hs.symm.trans hs')
        rw [heq, heq', ih, List.filter_append, List.append_assoc]
        simp [hp]

/-- **Programs can be compiled one by one.** If no function of `q` is named like a generated label,
then the code of `p ++ q` is the code of `p`, followed by the code of `q` with its registers and its
generated labels numbered on from those of `p`; and the data names of `p ++ q` are those of `p`,
followed by those of `q` that `p` does not have. -/
theorem assembly_append (p q : List Stmt)
    (hq : ∀ f ∈ functionNames ⟨q⟩, ¬ LabelLike f) :
    (assembly ⟨p ++ q⟩).text =
        (assembly ⟨p⟩).text ++
          (assembly ⟨q⟩).text.map (Instr.raise (Stmt.registersAll p) (Stmt.labelsAll p)) ∧
      (assembly ⟨p ++ q⟩).data =
        (assembly ⟨p⟩).data ++
          (assembly ⟨q⟩).data.filter fun name => !(assembly ⟨p⟩).data.contains name := by
  rw [← functionNamesAll_body] at hq
  refine ⟨?_, dataNames_append p q⟩
  calc Stmt.codeAll 0 0 (p ++ q)
      = Stmt.codeAll 0 0 p ++ Stmt.codeAll (0 + Stmt.registersAll p) (0 + Stmt.labelsAll p) q :=
        Stmt.codeAll_append 0 0 p q
    _ = Stmt.codeAll 0 0 p ++
          (Stmt.codeAll 0 0 q).map (Instr.raise (Stmt.registersAll p) (Stmt.labelsAll p)) := by
        rw [Stmt.codeAll_add 0 0 _ _ q hq]

/-- A program that uses one register and one label. -/
def raisedFlag : List Stmt :=
  [.declare "a" .int, .ifThen (.var "a" .int) [.assign "a" (.const (.int 1))]]

/-- A program with a function around a loop, whose variable `a` is not new behind `raisedFlag`. -/
def drainTwice : List Stmt :=
  [.declareAssign "b" .int (.const (.int 2)),
    .function "drain" .int [⟨"a", .int⟩] [.loop (.var "a" .int) [.declare "a" .int]],
    .declare "a" .int, .call "drain" [.var "b" .int]]

/-- The code of the second part stands behind that of the first, with its registers and labels
numbered on. -/
theorem raisedFlag_drainTwice_assembly :
    (∀ f ∈ functionNames ⟨drainTwice⟩, ¬ LabelLike f) ∧
      (assembly ⟨raisedFlag ++ drainTwice⟩).text =
        (assembly ⟨raisedFlag⟩).text ++
          [.mov (.reg 1) (.imm (.int 2)), .mov (.data "b") (.reg 1), .comment "Function drain",
            .label "drain", .label "L1", .cmp (.data "a") (.imm (.int 0)), .je "L2",
            .comment "declare a", .jmp "L1", .label "L2", .ret, .comment "declare a",
            .push (.data "b") 0, .call "drain", .freeStack 4] ∧
      (assembly ⟨raisedFlag ++ drainTwice⟩).data = ["a", "b"] := by
  have hnames : ∀ f ∈ functionNames ⟨drainTwice⟩, ¬ LabelLike f := by
    rintro f hf ⟨ds, -, -, hds⟩
    obtain rfl : f = "drain" := List.mem_singleton.mp hf
    simp at hds
  obtain ⟨htext, hdata⟩ := assembly_append raisedFlag drainTwice hnames
  refine ⟨hnames, ?_, ?_⟩
  · rw [htext]
    decide +kernel
  · rw [hdata]
    decide

end Program

end TinyImp
