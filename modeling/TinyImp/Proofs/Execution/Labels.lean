import Mathlib.Data.List.Nodup
import TinyImp.Asm.Code
import TinyImp.Proofs.Execution.Machine

/-!
# The labels of generated code

The label lines in the code of statements are the generated ones, numbered on from the first free
label, and one for each function: `Stmt.labelNames_codeAll_perm`. Every generated label stands
there **exactly once**, in whatever order nesting puts them, since `labelName` is injective. In a
program without functions no label stands at two positions, which is what makes a jump go where
it is meant to.
-/

namespace TinyImp

open Asm

/-! ### Label lines -/

namespace Asm

/-- The name that a label line gives to its place. -/
def Instr.labelled? : Instr → Option String
  | .label name => some name
  | _ => none

/-- The names of the label lines of a piece of code, in order. -/
def labelNames (code : List Instr) : List String :=
  code.filterMap Instr.labelled?

@[simp]
theorem labelNames_nil : labelNames [] = [] := rfl

/-- The labels of code are in the order of the code. -/
@[simp]
theorem labelNames_append (first second : List Instr) :
    labelNames (first ++ second) = labelNames first ++ labelNames second :=
  List.filterMap_append

@[simp]
theorem labelNames_label (name : String) (code : List Instr) :
    labelNames (.label name :: code) = name :: labelNames code := rfl

/-- A line that is not a label adds no name. -/
theorem labelNames_cons_of_not_isLabel {i : Instr} (hi : i.isLabel = false) (code : List Instr) :
    labelNames (i :: code) = labelNames code := by
  cases i <;> first | rfl | simp [Instr.isLabel] at hi

/-- A name is a label of the code exactly if the code has the instruction. -/
theorem mem_labelNames {name : String} {code : List Instr} :
    name ∈ labelNames code ↔ .label name ∈ code := by
  simp only [labelNames, List.mem_filterMap]
  constructor
  · rintro ⟨i, hi, hname⟩
    cases i <;> simp_all [Instr.labelled?]
  · intro h
    exact ⟨_, h, rfl⟩

/-- Code in which no line is a label has no label names. -/
theorem labelNames_eq_nil {code : List Instr} (h : ∀ i ∈ code, i.isLabel = false) :
    labelNames code = [] := by
  rw [List.eq_nil_iff_forall_not_mem]
  intro name hname
  exact absurd (h _ (mem_labelNames.mp hname)) (by simp [Instr.isLabel])

/-- Label names without repetition mark one position each. -/
theorem labelsUnique_of_nodup {text : List Instr} (h : (labelNames text).Nodup) :
    LabelsUnique text := by
  induction text with
  | nil =>
    intro i j name hi
    simp at hi
  | cons instr rest ih =>
    have hrest : (labelNames rest).Nodup := by
      cases instr <;> simp_all [labelNames, List.filterMap_cons, Instr.labelled?]
    -- a label line in front is not repeated further down
    have hhead : ∀ (k : Nat) (name : String), instr = .label name →
        rest[k]? ≠ some (.label name) := by
      rintro k name rfl hk
      rw [labelNames_label, List.nodup_cons] at h
      exact h.1 (mem_labelNames.mpr (List.mem_of_getElem? hk))
    intro i j name hi hj
    cases i with
    | zero =>
      cases j with
      | zero => rfl
      | succ j => exact absurd hj (hhead j name (by simpa using hi))
    | succ i =>
      cases j with
      | zero => exact absurd hi (hhead i name (by simpa using hj))
      | succ j => exact congrArg (· + 1) (ih hrest i j name hi hj)

end Asm

/-- Different numbers have different digits. -/
theorem digits_injective : Function.Injective digits := by
  intro m n h
  have hdigits : Nat.toDigits 10 m = Nat.toDigits 10 n := by
    simpa [digits] using congrArg String.toList h
  rw [← Nat.ofDigitChars_ten_toDigits (n := m), hdigits, Nat.ofDigitChars_ten_toDigits]

/-- Different numbers name different labels. -/
theorem labelName_injective : Function.Injective labelName := by
  intro m n h
  have h' := congrArg String.toList h
  simp only [labelName, String.toList_append] at h'
  exact digits_injective (String.toList_injective (List.append_cancel_left h'))

/-! ### Expressions have neither labels nor jumps -/

namespace Expr

/-- The code of an expression consists of moves, arithmetic and comparisons. -/
theorem mem_code {i : Instr} {reg : Nat} {e : Expr} (h : i ∈ e.code reg) :
    i.isJump = false ∧ i.isLabel = false := by
  induction e generalizing reg with
  | const value =>
    obtain rfl : i = .mov (.reg reg) (.imm value) := by simpa [code] using h
    exact ⟨rfl, rfl⟩
  | var name type => simp [code] at h
  | arith op type lhs rhs ihl ihr =>
    simp only [code, List.mem_append] at h
    rcases h with (h | h) | h
    · exact ihl h
    · exact ihr h
    · cases op <;> simp [arithCode] at h <;> grind [Instr.isJump, Instr.isLabel]
  | compare op lhs rhs ihl ihr =>
    simp only [code, List.mem_append] at h
    rcases h with (h | h) | h
    · exact ihl h
    · exact ihr h
    · rw [List.mem_singleton.mp h]
      exact ⟨rfl, rfl⟩

/-- Expressions have no labels. -/
@[simp]
theorem labelNames_code (reg : Nat) (e : Expr) : labelNames (e.code reg) = [] :=
  labelNames_eq_nil fun _ hi => (mem_code hi).2

/-- Conditions have no labels, although they jump to one. -/
@[simp]
theorem labelNames_conditionCode (reg : Nat) (e : Expr) (ifZero : String) :
    labelNames (e.conditionCode reg ifZero) = [] := by
  simp only [conditionCode, labelNames_append, labelNames_code, List.nil_append]
  rfl

end Expr

namespace Args

private theorem labelNames_code (reg : Nat) (args : List Expr) :
    labelNames (code reg args) = [] := by
  induction args generalizing reg with
  | nil => rfl
  | cons e rest ih => simp [code, ih]

/-- Calls have no labels. -/
@[simp]
theorem labelNames_callCode (reg : Nat) (name : String) (args : List Expr) :
    labelNames (callCode reg name args) = [] := by
  have hpush : labelNames ((operands reg args).mapIdx fun i src => Instr.push src i) = [] := by
    refine labelNames_eq_nil fun i hi => ?_
    obtain ⟨k, -, rfl⟩ := List.mem_mapIdx.mp hi
    rfl
  simp only [callCode, labelNames_append, labelNames_code, hpush, List.nil_append]
  rfl

end Args

/-! ### The labels of statements -/

mutual

/-- The functions that a statement declares at any depth, in the order of their code. -/
def Stmt.functionNames : Stmt → List String
  | .ifThen _ body => Stmt.functionNamesAll body
  | .ifElse _ body otherwise => Stmt.functionNamesAll body ++ Stmt.functionNamesAll otherwise
  | .loop _ body => Stmt.functionNamesAll body
  | .block body => Stmt.functionNamesAll body
  | .function name _ _ body => name :: Stmt.functionNamesAll body
  | _ => []

/-- The functions that several statements declare at any depth. -/
def Stmt.functionNamesAll : List Stmt → List String
  | [] => []
  | s :: rest => s.functionNames ++ Stmt.functionNamesAll rest

end

namespace Stmt

/-- The generated labels with the numbers from `first` on, `count` of them. -/
def generatedLabels (first count : Nat) : List String :=
  (List.range' first count).map labelName

/-- Labels are numbered on from one part to the next. -/
theorem generatedLabels_add (first m n : Nat) :
    generatedLabels first (m + n) = generatedLabels first m ++ generatedLabels (first + m) n := by
  rw [generatedLabels, generatedLabels, generatedLabels, ← List.map_append,
    List.range'_append_1]

@[simp]
theorem generatedLabels_zero (first : Nat) : generatedLabels first 0 = [] := rfl

theorem generatedLabels_one (first : Nat) : generatedLabels first 1 = [labelName first] := rfl

theorem generatedLabels_two (first : Nat) :
    generatedLabels first 2 = [labelName first, labelName (first + 1)] := rfl

/-- Generated labels are pairwise different. -/
theorem nodup_generatedLabels (first count : Nat) : (generatedLabels first count).Nodup :=
  List.Nodup.map labelName_injective (List.nodup_range' 1)

mutual

/-- How often a name labels a line in the code of a statement: once for each generated label and
once for each function of that name. -/
theorem count_labelNames_code (name : String) (reg label : Nat) : (s : Stmt) →
    (labelNames (s.code reg label)).count name =
      (generatedLabels label s.labels).count name + s.functionNames.count name
  | .declare _ _ => rfl
  | .declareAssign _ _ init => by
    simp only [code, labelNames_append, Expr.labelNames_code, List.nil_append]
    rfl
  | .assign _ value => by
    simp only [code, labelNames_append, Expr.labelNames_code, List.nil_append]
    rfl
  | .ifThen e body => by
    have hbody := count_labelNames_codeAll name (reg + e.registers) (label + 1) body
    simp only [code, labels, functionNames, labelNames_append, Expr.labelNames_conditionCode,
      labelNames_label, labelNames_nil, generatedLabels_add, generatedLabels_one,
      List.count_append, List.count_nil, hbody]
    omega
  | .ifElse e body otherwise => by
    have hbody := count_labelNames_codeAll name (reg + e.registers) (label + 2) body
    have hotherwise := count_labelNames_codeAll name
      (reg + e.registers + registersAll body) (label + 2 + labelsAll body) otherwise
    simp only [code, labels, functionNames, labelNames_append, Expr.labelNames_conditionCode,
      labelNames_cons_of_not_isLabel (show (Instr.jmp _).isLabel = false from rfl),
      labelNames_label, labelNames_nil, generatedLabels_add, generatedLabels_two,
      List.count_append, List.count_cons, List.count_nil, hbody, hotherwise]
    rw [← Nat.add_assoc label 2]
    omega
  | .loop e body => by
    have hbody := count_labelNames_codeAll name (reg + e.registers) (label + 2) body
    simp only [code, labels, functionNames, List.cons_append, labelNames_append,
      Expr.labelNames_conditionCode,
      labelNames_cons_of_not_isLabel (show (Instr.jmp _).isLabel = false from rfl),
      labelNames_label, labelNames_nil, generatedLabels_add, generatedLabels_two,
      List.count_append, List.count_cons, List.count_nil, hbody]
    omega
  | .block body => count_labelNames_codeAll name reg label body
  | .function f _ _ body => by
    have hbody := count_labelNames_codeAll name reg label body
    simp only [code, labels, functionNames, List.cons_append, List.nil_append,
      labelNames_append, labelNames_label,
      labelNames_cons_of_not_isLabel (show (Instr.comment _).isLabel = false from rfl),
      labelNames_cons_of_not_isLabel (show Instr.ret.isLabel = false from rfl),
      labelNames_nil, List.count_append, List.count_cons, List.count_nil, hbody]
    omega
  | .call _ _ => by
    simp [code, labels, functionNames]
  | .ret value => by
    simp only [code, labelNames_append, Expr.labelNames_code, List.nil_append]
    rfl

/-- The same for several statements. -/
theorem count_labelNames_codeAll (name : String) (reg label : Nat) : (ss : List Stmt) →
    (labelNames (codeAll reg label ss)).count name =
      (generatedLabels label (labelsAll ss)).count name + (functionNamesAll ss).count name
  | [] => rfl
  | s :: rest => by
    have hs := count_labelNames_code name reg label s
    have hrest := count_labelNames_codeAll name (reg + s.registers) (label + s.labels) rest
    simp only [codeAll, labelsAll, functionNamesAll, labelNames_append, generatedLabels_add,
      List.count_append, hs, hrest]
    omega

end

/-- **The labels of generated code**: up to their order, the generated labels, each once, and the
names of the functions. -/
theorem labelNames_codeAll_perm (reg label : Nat) (ss : List Stmt) :
    (labelNames (codeAll reg label ss)).Perm
      (generatedLabels label (labelsAll ss) ++ functionNamesAll ss) := by
  rw [List.perm_iff_count]
  intro name
  rw [count_labelNames_codeAll, List.count_append]

/-! ### Programs without functions -/

mutual

/-- A statement without functions names none. -/
private theorem functionNames_eq_nil : (s : Stmt) → s.functionFree = true → s.functionNames = []
  | .declare _ _, _ => rfl
  | .declareAssign _ _ _, _ => rfl
  | .assign _ _, _ => rfl
  | .ifThen _ body, h => functionNamesAll_eq_nil body h
  | .ifElse _ body otherwise, h => by
    obtain ⟨hbody, hotherwise⟩ := Bool.and_eq_true_iff.mp h
    rw [functionNames, functionNamesAll_eq_nil body hbody,
      functionNamesAll_eq_nil otherwise hotherwise, List.append_nil]
  | .loop _ body, h => functionNamesAll_eq_nil body h
  | .block body, h => functionNamesAll_eq_nil body h
  | .call _ _, _ => rfl
  | .ret _, _ => rfl

private theorem functionNamesAll_eq_nil : (ss : List Stmt) → functionFreeAll ss = true →
    functionNamesAll ss = []
  | [], _ => rfl
  | s :: rest, h => by
    obtain ⟨hs, hrest⟩ := Bool.and_eq_true_iff.mp h
    rw [functionNamesAll, functionNames_eq_nil s hs, functionNamesAll_eq_nil rest hrest,
      List.append_nil]

end

/-- In code without functions no label stands at two positions. -/
theorem labelsUnique_codeAll {ss : List Stmt} (h : functionFreeAll ss = true) (reg label : Nat) :
    LabelsUnique (codeAll reg label ss) := by
  refine labelsUnique_of_nodup ?_
  rw [(labelNames_codeAll_perm reg label ss).nodup_iff, functionNamesAll_eq_nil ss h,
    List.append_nil]
  exact nodup_generatedLabels label (labelsAll ss)

end Stmt

end TinyImp
