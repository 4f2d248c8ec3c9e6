import TinyImp.Proofs.Code.Nodes

/-!
# Jumps and their labels

Every statement with labels of its own takes the first free ones, and its parts take those behind.
So the code of a statement goes with an **interval of numbers**: its jumps go to the generated
labels of the interval, to each of them once (`Stmt.targets_codeAll_perm`), and no other generated
label stands in it (`Numbered`). The intervals of two statements are disjoint, and so no jump leads
from the code of one to the code of the other (`Numbered.apart`).

A function is found in the code of a program at its `FunctionSite`, with what stands in front of it
and behind it. Its segment, from its label to its last `ret`, is **closed under jumps**, as long as
no function is named like a generated label: a jump to such a label would have two places to go to.
-/

namespace TinyImp

open Asm

/-! ### Jumps -/

namespace Asm

/-- The label that a jump goes to. -/
def Instr.target? : Instr → Option String
  | .je name => some name
  | .jmp name => some name
  | _ => none

/-- The labels that the jumps of a piece of code go to, in order. -/
def targets (code : List Instr) : List String :=
  code.filterMap Instr.target?

@[simp]
theorem targets_nil : targets [] = [] := rfl

/-- The jumps of code are in the order of the code. -/
@[simp]
theorem targets_append (first second : List Instr) :
    targets (first ++ second) = targets first ++ targets second :=
  List.filterMap_append

@[simp]
theorem targets_jmp (name : String) (code : List Instr) :
    targets (.jmp name :: code) = name :: targets code := rfl

/-- An instruction that is not a jump goes nowhere. -/
theorem targets_cons_of_not_isJump {i : Instr} (hi : i.isJump = false) (code : List Instr) :
    targets (i :: code) = targets code := by
  have hnone : i.target? = none := by cases i <;> first | rfl | simp [Instr.isJump] at hi
  exact List.filterMap_cons_none hnone

/-- Code without jumps has no targets. -/
private theorem targets_eq_nil {code : List Instr} (h : ∀ i ∈ code, i.isJump = false) :
    targets code = [] := by
  induction code with
  | nil => rfl
  | cons i rest ih =>
    rw [targets_cons_of_not_isJump (h i List.mem_cons_self)]
    exact ih fun j hj => h j (List.mem_cons_of_mem i hj)

private theorem mem_targets_of_je {name : String} {code : List Instr} (h : .je name ∈ code) :
    name ∈ targets code :=
  List.mem_filterMap.mpr ⟨_, h, rfl⟩

end Asm

namespace Expr

/-- Expressions do not jump. -/
@[simp]
theorem targets_code (reg : Nat) (e : Expr) : targets (e.code reg) = [] :=
  targets_eq_nil fun _ hi => (mem_code hi).1

/-- A condition has one jump, which is taken if it is zero. -/
@[simp]
theorem targets_conditionCode (reg : Nat) (e : Expr) (ifZero : String) :
    targets (e.conditionCode reg ifZero) = [ifZero] := by
  rw [conditionCode, targets_append, targets_code]
  rfl

end Expr

namespace Args

private theorem targets_code (reg : Nat) (args : List Expr) : targets (code reg args) = [] := by
  induction args generalizing reg with
  | nil => rfl
  | cons e rest ih => rw [code, targets_append, Expr.targets_code, ih, List.append_nil]

private theorem targets_callCode (reg : Nat) (name : String) (args : List Expr) :
    targets (callCode reg name args) = [] := by
  have hpush : targets ((operands reg args).mapIdx fun i src => Instr.push src i) = [] := by
    refine targets_eq_nil fun i hi => ?_
    obtain ⟨k, -, rfl⟩ := List.mem_mapIdx.mp hi
    rfl
  rw [callCode, targets_append, targets_append, targets_code, hpush]
  rfl

end Args

namespace Stmt

mutual

/-- How often the code of a statement jumps to a name: once for each generated label. -/
theorem count_targets_code (name : String) (reg label : Nat) : (s : Stmt) →
    (targets (s.code reg label)).count name = (generatedLabels label s.labels).count name
  | .declare _ _ => rfl
  | .declareAssign _ _ init => by
    rw [code, targets_append, Expr.targets_code]
    rfl
  | .assign _ value => by
    rw [code, targets_append, Expr.targets_code]
    rfl
  | .ifThen e body => by
    have hbody := count_targets_codeAll name (reg + e.registers) (label + 1) body
    simp only [code, labels, targets_append, Expr.targets_conditionCode,
      targets_cons_of_not_isJump (show (Instr.label _).isJump = false from rfl), targets_nil,
      generatedLabels_add, generatedLabels_one, List.count_append, List.count_nil, hbody]
    omega
  | .ifElse e body otherwise => by
    have hbody := count_targets_codeAll name (reg + e.registers) (label + 2) body
    have hotherwise := count_targets_codeAll name
      (reg + e.registers + registersAll body) (label + 2 + labelsAll body) otherwise
    simp only [code, labels, targets_append, Expr.targets_conditionCode, targets_jmp,
      targets_cons_of_not_isJump (show (Instr.label _).isJump = false from rfl), targets_nil,
      generatedLabels_add, generatedLabels_two, List.count_append, List.count_cons,
      List.count_nil, hbody, hotherwise]
    rw [← Nat.add_assoc label 2]
    omega
  | .loop e body => by
    have hbody := count_targets_codeAll name (reg + e.registers) (label + 2) body
    simp only [code, labels, List.cons_append, targets_append, Expr.targets_conditionCode,
      targets_jmp, targets_cons_of_not_isJump (show (Instr.label _).isJump = false from rfl),
      targets_nil, generatedLabels_add, generatedLabels_two, List.count_append, List.count_cons,
      List.count_nil, hbody]
    omega
  | .block body => count_targets_codeAll name reg label body
  | .function f _ _ body => by
    rw [code, targets_append, targets_append, List.count_append, List.count_append,
      count_targets_codeAll name reg label body]
    exact Nat.zero_add _
  | .call _ args => by
    rw [code, Args.targets_callCode]
    rfl
  | .ret value => by
    rw [code, targets_append, Expr.targets_code]
    rfl

/-- The code of statements jumps to every generated label once, and to no other. -/
private theorem count_targets_codeAll (name : String) (reg label : Nat) : (ss : List Stmt) →
    (targets (codeAll reg label ss)).count name = (generatedLabels label (labelsAll ss)).count name
  | [] => rfl
  | s :: rest => by
    rw [codeAll, labelsAll, targets_append, generatedLabels_add, List.count_append,
      List.count_append, count_targets_code name reg label s,
      count_targets_codeAll name (reg + s.registers) (label + s.labels) rest]

end

/-- **The jumps of generated code**: up to their order, one to each generated label. -/
theorem targets_codeAll_perm (reg label : Nat) (ss : List Stmt) :
    (targets (codeAll reg label ss)).Perm (generatedLabels label (labelsAll ss)) := by
  rw [List.perm_iff_count]
  exact fun name => count_targets_codeAll name reg label ss

/-- The jumps of generated code go to labels in the code. -/
theorem mem_labelNames_of_mem_targets {reg label : Nat} {ss : List Stmt} {name : String}
    (h : name ∈ targets (codeAll reg label ss)) : name ∈ labelNames (codeAll reg label ss) := by
  rw [(labelNames_codeAll_perm reg label ss).mem_iff]
  exact List.mem_append_left _ ((targets_codeAll_perm reg label ss).mem_iff.mp h)

end Stmt

/-! ### Intervals of numbers -/

/-- The name is an `L` followed by digits, as those of the generated labels are. -/
def LabelLike (name : String) : Prop :=
  ∃ ds : List Char, ds ≠ [] ∧ (∀ d ∈ ds, d.isDigit) ∧ name.toList = 'L' :: ds

private theorem labelLike_labelName (n : Nat) : LabelLike (labelName n) := by
  refine ⟨Nat.toDigits 10 n, Nat.toDigits_ne_nil, fun d hd => ?_, ?_⟩
  · exact Nat.isDigit_of_mem_toDigits (by decide) (by decide) hd
  · simp [labelName, digits]

namespace Asm

/-- The code goes with the numbers from `lo` up to `hi`: its jumps go to generated labels of these
numbers, and no generated label of another number stands in it. -/
structure Numbered (lo hi : Nat) (code : List Instr) : Prop where
  target : ∀ name ∈ targets code, ∃ n, (lo ≤ n ∧ n < hi) ∧ name = labelName n
  label : ∀ n, labelName n ∈ labelNames code → lo ≤ n ∧ n < hi

/-- No jump of either piece of code goes to a label of the other. -/
structure Apart (first second : List Instr) : Prop where
  left : ∀ name ∈ targets first, name ∉ labelNames second
  right : ∀ name ∈ targets second, name ∉ labelNames first

section Pieces

variable {lo hi lo' hi' : Nat} {code first second third : List Instr}

private theorem Numbered.mono (h : Numbered lo hi code) (hlo : lo' ≤ lo) (hhi : hi ≤ hi') :
    Numbered lo' hi' code where
  target name hname := by
    obtain ⟨n, hn, rfl⟩ := h.target name hname
    exact ⟨n, by omega, rfl⟩
  label n hn := by
    have := h.label n hn
    omega

/-- Code is numbered within a range part by part. -/
private theorem Numbered.append (hfirst : Numbered lo hi first) (hsecond : Numbered lo hi second) :
    Numbered lo hi (first ++ second) where
  target name hname := by
    rw [targets_append, List.mem_append] at hname
    exact hname.elim (hfirst.target name) (hsecond.target name)
  label n hn := by
    rw [labelNames_append, List.mem_append] at hn
    exact hn.elim (hfirst.label n) (hsecond.label n)

/-- **Disjoint intervals keep pieces of code apart.** -/
theorem Numbered.apart (hfirst : Numbered lo hi first) (hsecond : Numbered lo' hi' second)
    (h : hi ≤ lo' ∨ hi' ≤ lo) : Apart first second where
  left name hname hlabel := by
    obtain ⟨n, hn, rfl⟩ := hfirst.target name hname
    have := hsecond.label n hlabel
    omega
  right name hname hlabel := by
    obtain ⟨n, hn, rfl⟩ := hsecond.target name hname
    have := hfirst.label n hlabel
    omega

private theorem Apart.symm (h : Apart first second) : Apart second first :=
  ⟨h.right, h.left⟩

/-- Code without jumps and labels is apart from any code. -/
theorem Apart.of_nil (htargets : targets second = []) (hlabels : labelNames second = []) :
    Apart first second :=
  ⟨by simp [hlabels], by simp [htargets]⟩

/-- Code that is apart from two parts is apart from both together. -/
private theorem Apart.append_right (h : Apart first second) (h' : Apart first third) :
    Apart first (second ++ third) where
  left name hname := by
    rw [labelNames_append, List.mem_append]
    exact fun hlabel => hlabel.elim (h.left name hname) (h'.left name hname)
  right name hname := by
    rw [targets_append, List.mem_append] at hname
    exact hname.elim (h.right name) (h'.right name)

/-- What is apart from a piece of code is apart from every part of it. -/
theorem Apart.of_subset (h : Apart first second) (hsub : code ⊆ first) : Apart code second where
  left name hname := h.left name (List.filterMap_subset _ hsub hname)
  right name hname hlabel := h.right name hname (List.filterMap_subset _ hsub hlabel)

end Pieces

end Asm

namespace Stmt

variable {ss : List Stmt}

/-- Each statement goes with the numbers of its own labels. -/
theorem numbered_codeAll (hss : ∀ f ∈ functionNamesAll ss, ¬ LabelLike f) (reg label : Nat) :
    Numbered label (label + labelsAll ss) (codeAll reg label ss) where
  target name hname := by
    rw [(targets_codeAll_perm reg label ss).mem_iff, generatedLabels, List.mem_map] at hname
    obtain ⟨n, hn, rfl⟩ := hname
    exact ⟨n, List.mem_range'_1.mp hn, rfl⟩
  label n hn := by
    rw [(labelNames_codeAll_perm reg label ss).mem_iff, List.mem_append] at hn
    rcases hn with hn | hn
    · rw [generatedLabels, List.mem_map_of_injective labelName_injective] at hn
      exact List.mem_range'_1.mp hn
    · exact absurd (labelLike_labelName n) (hss _ hn)

/-- The same for a single statement. -/
theorem numbered_code {s : Stmt} (hs : ∀ f ∈ s.functionNames, ¬ LabelLike f) (reg label : Nat) :
    Numbered label (label + s.labels) (s.code reg label) := by
  have hss : ∀ f ∈ functionNamesAll [s], ¬ LabelLike f := by simpa [functionNamesAll] using hs
  simpa [codeAll, labelsAll] using numbered_codeAll hss reg label

end Stmt

/-- A condition jumps to its label only. -/
theorem Expr.numbered_conditionCode (reg n : Nat) (e : Expr) :
    Numbered n (n + 1) (e.conditionCode reg (labelName n)) where
  target name hname := by
    rw [targets_conditionCode, List.mem_singleton] at hname
    exact ⟨n, by omega, hname⟩
  label := by simp

/-! ### Conditional jumps go forward -/

namespace Asm

/-- A line that is a generated label. -/
theorem numbered_label (n : Nat) : Numbered n (n + 1) [.label (labelName n)] where
  target := by simp [targets, Instr.target?]
  label m hm := by
    obtain rfl : m = n := labelName_injective (by simpa using hm)
    omega

/-- A jump to a generated label. -/
theorem numbered_jmp (n : Nat) : Numbered n (n + 1) [.jmp (labelName n)] where
  target name hname := ⟨n, by omega, by simpa using hname⟩
  label := by simp [labelNames, Instr.labelled?]

/-- A jump to a generated label, in front of the label before it. -/
theorem numbered_jmp_label (n : Nat) :
    Numbered n (n + 2) [.jmp (labelName (n + 1)), .label (labelName n)] :=
  have hjmp : Numbered n (n + 2) [.jmp (labelName (n + 1))] :=
    (numbered_jmp (n + 1)).mono (by omega) (by omega)
  hjmp.append ((numbered_label n).mono (Nat.le_refl _) (by omega))

/-- No conditional jump goes back to a label in front of it. -/
def Forward (code : List Instr) : Prop :=
  code.Pairwise fun earlier later => ∀ name, earlier = .label name → later ≠ .je name

section Forward

variable {code first second : List Instr}

/-- Conditional jumps go forward in both parts together, if the second one does not jump back to the
first. -/
private theorem Forward.append (hfirst : Forward first) (hsecond : Forward second)
    (h : ∀ name ∈ labelNames first, .je name ∉ second) : Forward (first ++ second) := by
  refine List.pairwise_append.mpr ⟨hfirst, hsecond, ?_⟩
  rintro _ hlabel _ hje name rfl rfl
  exact h name (mem_labelNames.mpr hlabel) hje

private theorem Forward.of_labelNames_eq_nil (h : labelNames code = []) : Forward code := by
  refine List.pairwise_of_forall_mem_list fun i hi j _ name hname => ?_
  subst hname
  exact absurd (mem_labelNames.mpr hi) (by simp [h])

private theorem Apart.je_notMem (h : Apart second first) :
    ∀ name ∈ labelNames first, .je name ∉ second :=
  fun name hlabel hje => h.left name (mem_targets_of_je hje) hlabel

/-- A conditional jump stands in front of its label. -/
private theorem Forward.lt (h : Forward code) {i j : Nat} {name : String}
    (hje : code[i]? = some (.je name)) (hlabel : code[j]? = some (.label name)) : i < j := by
  obtain ⟨hi, hje⟩ := List.getElem?_eq_some_iff.mp hje
  obtain ⟨hj, hlabel⟩ := List.getElem?_eq_some_iff.mp hlabel
  by_contra hle
  rcases Nat.lt_or_eq_of_le (Nat.le_of_not_lt hle) with hlt | rfl
  · exact List.pairwise_iff_getElem.mp h j i hj hi hlt name hlabel hje
  · rw [hje] at hlabel
    cases hlabel

end Forward

end Asm

namespace Stmt

/-- A statement that takes no labels and declares no functions has no labels in its code. -/
theorem labelNames_code_eq_nil {s : Stmt} (hlabels : s.labels = 0) (hnames : s.functionNames = [])
    (reg label : Nat) : labelNames (s.code reg label) = [] := by
  have hperm := labelNames_codeAll_perm reg label [s]
  simp only [codeAll, labelsAll, functionNamesAll, hlabels, hnames, List.append_nil, Nat.add_zero,
    generatedLabels_zero] at hperm
  exact hperm.eq_nil

section Layout

variable {body otherwise rest : List Stmt} (reg label : Nat)

/-! The code of a block is apart from the lines of the statement around it. -/

/-- The body of an `if` shares no label with the condition and the end. -/
private theorem apart_ifThen (hbody : ∀ f ∈ functionNamesAll body, ¬ LabelLike f) (r : Nat)
    (e : Expr) :
    Apart (codeAll r (label + 1) body) (e.conditionCode reg (labelName label)) ∧
      Apart (codeAll r (label + 1) body) [.label (labelName label)] := by
  have hcode := numbered_codeAll hbody r (label + 1)
  exact ⟨hcode.apart (Expr.numbered_conditionCode reg label e) (.inr (Nat.le_refl _)),
    hcode.apart (numbered_label label) (.inr (Nat.le_refl _))⟩

private theorem apart_ifElse (hbody : ∀ f ∈ functionNamesAll body, ¬ LabelLike f)
    (hotherwise : ∀ f ∈ functionNamesAll otherwise, ¬ LabelLike f) (r r' : Nat) (e : Expr) :
    Apart (codeAll r (label + 2) body) (e.conditionCode reg (labelName label)) ∧
      Apart (codeAll r (label + 2) body)
        ([.jmp (labelName (label + 1)), .label (labelName label)] ++
          codeAll r' (label + 2 + labelsAll body) otherwise ++
            [.label (labelName (label + 1))]) := by
  have hcode := numbered_codeAll hbody r (label + 2)
  have hcode' := numbered_codeAll hotherwise r' (label + 2 + labelsAll body)
  refine ⟨hcode.apart (Expr.numbered_conditionCode reg label e) (.inr (by omega)), ?_⟩
  exact ((hcode.apart (numbered_jmp_label label) (.inr (Nat.le_refl _))).append_right
    (hcode.apart hcode' (.inl (Nat.le_refl _)))).append_right
    (hcode.apart (numbered_label (label + 1)) (.inr (Nat.le_refl _)))

private theorem apart_ifElse_otherwise (hbody : ∀ f ∈ functionNamesAll body, ¬ LabelLike f)
    (hotherwise : ∀ f ∈ functionNamesAll otherwise, ¬ LabelLike f) (r r' : Nat) (e : Expr) :
    Apart (codeAll r' (label + 2 + labelsAll body) otherwise)
        (e.conditionCode reg (labelName label) ++ codeAll r (label + 2) body ++
          [.jmp (labelName (label + 1)), .label (labelName label)]) ∧
      Apart (codeAll r' (label + 2 + labelsAll body) otherwise)
        [.label (labelName (label + 1))] := by
  have hcode := numbered_codeAll hbody r (label + 2)
  have hcode' := numbered_codeAll hotherwise r' (label + 2 + labelsAll body)
  refine ⟨?_, hcode'.apart (numbered_label (label + 1)) (.inr (by omega))⟩
  exact ((hcode'.apart (Expr.numbered_conditionCode reg label e) (.inr (by omega))).append_right
    (hcode'.apart hcode (.inr (Nat.le_refl _)))).append_right
    (hcode'.apart (numbered_jmp_label label) (.inr (by omega)))

/-- The body of a loop shares no label with the head and the end. -/
private theorem apart_loop (hbody : ∀ f ∈ functionNamesAll body, ¬ LabelLike f) (r : Nat)
    (e : Expr) :
    Apart (codeAll r (label + 2) body)
        (.label (labelName label) :: e.conditionCode reg (labelName (label + 1))) ∧
      Apart (codeAll r (label + 2) body)
        [.jmp (labelName label), .label (labelName (label + 1))] := by
  have hcode := numbered_codeAll hbody r (label + 2)
  exact ⟨(hcode.apart (numbered_label label) (.inr (by omega))).append_right
      (hcode.apart (Expr.numbered_conditionCode reg (label + 1) e) (.inr (Nat.le_refl _))),
    (hcode.apart (numbered_jmp label) (.inr (by omega))).append_right
      (hcode.apart (numbered_label (label + 1)) (.inr (Nat.le_refl _)))⟩

/-- No jump goes to the label of a function. -/
theorem apart_function {name : String} (hname : ¬ LabelLike name)
    (hbody : ∀ f ∈ functionNamesAll body, ¬ LabelLike f) :
    Apart (codeAll reg label body) [.comment s!"Function {name}", .label name] where
  left target htarget hlabel := by
    obtain ⟨n, -, rfl⟩ := (numbered_codeAll hbody reg label).target target htarget
    obtain rfl : name = labelName n := by simpa [labelNames, Instr.labelled?] using hlabel
    exact hname (labelLike_labelName n)
  right := by simp [targets, Instr.target?]

/-- Statements behind each other share no label. -/
private theorem apart_cons {s : Stmt} (hs : ∀ f ∈ s.functionNames, ¬ LabelLike f)
    (hrest : ∀ f ∈ functionNamesAll rest, ¬ LabelLike f) :
    Apart (s.code reg label) (codeAll (reg + s.registers) (label + s.labels) rest) :=
  (numbered_code hs reg label).apart (numbered_codeAll hrest _ _) (.inl (Nat.le_refl _))

end Layout

mutual

/-- The conditional jumps in the code of a statement go forward. -/
theorem forward_code (reg label : Nat) : (s : Stmt) → (∀ f ∈ s.functionNames, ¬ LabelLike f) →
    Forward (s.code reg label)
  | .declare _ _, _ | .declareAssign _ _ _, _ | .assign _ _, _ | .call _ _, _ | .ret _, _ =>
    .of_labelNames_eq_nil (labelNames_code_eq_nil rfl rfl reg label)
  | .ifThen e body, hs => by
    have hbody := forward_codeAll (reg + e.registers) (label + 1) body hs
    have hcondition : Forward (e.conditionCode reg (labelName label)) :=
      .of_labelNames_eq_nil (by simp)
    exact (hcondition.append hbody (by simp)).append (List.pairwise_singleton _ _) (by simp)
  | .ifElse e body otherwise, hs => by
    obtain ⟨hbody, hotherwise⟩ := List.forall_mem_append.mp hs
    have hcondition : Forward (e.conditionCode reg (labelName label)) :=
      .of_labelNames_eq_nil (by simp)
    have hmiddle : Forward [.jmp (labelName (label + 1)), .label (labelName label)] := by
      simp [Forward]
    have hthen := (hcondition.append (forward_codeAll (reg + e.registers) (label + 2) body hbody)
      (by simp)).append hmiddle (by simp)
    have happart := (apart_ifElse_otherwise reg label hbody hotherwise (reg + e.registers)
      (reg + e.registers + registersAll body) e).1
    exact (hthen.append (forward_codeAll _ _ otherwise hotherwise) happart.je_notMem).append
      (List.pairwise_singleton _ _) (by simp)
  | .loop e body, hs => by
    have hcondition : Forward (.label (labelName label) ::
        e.conditionCode reg (labelName (label + 1))) := by
      have hdifferent := (numbered_label label).apart
        (Expr.numbered_conditionCode reg (label + 1) e) (.inl (Nat.le_refl _))
      have hlabel : Forward [.label (labelName label)] := List.pairwise_singleton _ _
      exact hlabel.append (.of_labelNames_eq_nil (Expr.labelNames_conditionCode ..))
        hdifferent.symm.je_notMem
    have hend : Forward [.jmp (labelName label), .label (labelName (label + 1))] := by
      simp [Forward]
    have happart := (apart_loop reg label hs (reg + e.registers) e).1
    exact (hcondition.append (forward_codeAll _ _ body hs) happart.je_notMem).append hend (by simp)
  | .block body, hs => forward_codeAll reg label body hs
  | .function name _ _ body, hs => by
    obtain ⟨hname, hbody⟩ := List.forall_mem_cons.mp hs
    have happart := apart_function reg label hname hbody
    have hhead : Forward [.comment s!"Function {name}", .label name] := by simp [Forward]
    exact (hhead.append (forward_codeAll reg label body hbody) happart.je_notMem).append
      (List.pairwise_singleton _ _) (by simp)

/-- **Conditional jumps go forward.** -/
private theorem forward_codeAll (reg label : Nat) : (ss : List Stmt) →
    (∀ f ∈ functionNamesAll ss, ¬ LabelLike f) → Forward (codeAll reg label ss)
  | [], _ => .nil
  | s :: rest, hss => by
    obtain ⟨hs, hrest⟩ := List.forall_mem_append.mp hss
    exact .append (forward_code reg label s hs) (forward_codeAll _ _ rest hrest)
      (apart_cons reg label hs hrest).symm.je_notMem

end

end Stmt

/-! ### Functions in their places -/

/-- A function of a program and the place of its code: what stands in front of it and behind it. -/
structure FunctionSite where
  before : List Instr
  name : String
  body : List Stmt
  /-- The first free register and the first free label where the body begins. -/
  reg : Nat
  label : Nat
  after : List Instr

namespace FunctionSite

/-- The code of the function, from its label to its last `ret`. -/
def segment (site : FunctionSite) : List Instr :=
  .label site.name :: Stmt.codeAll site.reg site.label site.body ++ [.ret]

/-- The code of the function with what stands around it. -/
def text (site : FunctionSite) : List Instr :=
  site.before ++ site.segment ++ site.after

/-- The same function in a larger piece of code. -/
def within (front back : List Instr) (site : FunctionSite) : FunctionSite :=
  { site with before := front ++ site.before, after := site.after ++ back }

/-- **A segment closed under jumps**: each jump in it goes to a label in it and to none outside, and
no jump from outside goes to a label in it. -/
structure Closed (site : FunctionSite) : Prop where
  stays : ∀ name ∈ targets site.segment, name ∈ labelNames site.segment
  apart_before : Apart site.segment site.before
  apart_after : Apart site.segment site.after

/-- The function stands in the code, and its segment is closed. -/
structure ClosedIn (code : List Instr) (site : FunctionSite) : Prop where
  text_eq : site.text = code
  closed : site.Closed

/-- What is apart from the code around a function does not disturb its segment. -/
theorem ClosedIn.within {code : List Instr} {site : FunctionSite} (h : site.ClosedIn code)
    {front back : List Instr} (hfront : Apart code front) (hback : Apart code back) :
    (site.within front back).ClosedIn (front ++ code ++ back) := by
  have hsub : site.segment ⊆ code := by
    rw [← h.text_eq, text, List.append_assoc]
    exact fun i hi => List.mem_append_right _ (List.mem_append_left _ hi)
  refine ⟨?_, h.closed.stays, ?_, ?_⟩
  · rw [← h.text_eq]
    simp [text, FunctionSite.within, segment]
  · exact (hfront.of_subset hsub).append_right h.closed.apart_before
  · exact h.closed.apart_after.append_right (hback.of_subset hsub)

end FunctionSite

namespace Stmt

mutual

/-- The functions in a statement, each in its place in the code of the statement. -/
def functionSites (reg label : Nat) : Stmt → List FunctionSite
  | .ifThen e body =>
    (functionSitesAll (reg + e.registers) (label + 1) body).map
      (·.within (e.conditionCode reg (labelName label)) [.label (labelName label)])
  | .ifElse e body otherwise =>
    let front := e.conditionCode reg (labelName label)
    let inner := codeAll (reg + e.registers) (label + 2) body
    let middle := [.jmp (labelName (label + 1)), .label (labelName label)]
    let inner' := codeAll (reg + e.registers + registersAll body) (label + 2 + labelsAll body)
      otherwise
    let back := [.label (labelName (label + 1))]
    (functionSitesAll (reg + e.registers) (label + 2) body).map
        (·.within front (middle ++ inner' ++ back)) ++
      (functionSitesAll (reg + e.registers + registersAll body) (label + 2 + labelsAll body)
        otherwise).map (·.within (front ++ inner ++ middle) back)
  | .loop e body =>
    (functionSitesAll (reg + e.registers) (label + 2) body).map
      (·.within (.label (labelName label) :: e.conditionCode reg (labelName (label + 1)))
        [.jmp (labelName label), .label (labelName (label + 1))])
  | .block body => functionSitesAll reg label body
  | .function name _ _ body =>
    { before := [.comment s!"Function {name}"], name, body, reg, label, after := [] } ::
      (functionSitesAll reg label body).map
        (·.within [.comment s!"Function {name}", .label name] [.ret])
  | _ => []

/-- The functions in several statements. -/
def functionSitesAll (reg label : Nat) : List Stmt → List FunctionSite
  | [] => []
  | s :: rest =>
    (s.functionSites reg label).map
        (·.within [] (codeAll (reg + s.registers) (label + s.labels) rest)) ++
      (functionSitesAll (reg + s.registers) (label + s.labels) rest).map
        (·.within (s.code reg label) [])

end

mutual

/-- Every function of a statement has its place. -/
theorem map_functionSites (reg label : Nat) : (s : Stmt) →
    (s.functionSites reg label).map (fun site => (site.name, site.body)) =
      s.nodes.filterMap function?
  | .declare _ _ | .declareAssign _ _ _ | .assign _ _ | .call _ _ | .ret _ => rfl
  | .ifThen e body => by
    rw [functionSites, List.map_map]
    exact map_functionSitesAll _ _ body
  | .ifElse e body otherwise => by
    rw [functionSites, List.map_append, List.map_map, List.map_map, nodes,
      List.filterMap_cons_none rfl, List.filterMap_append, ← map_functionSitesAll _ _ body,
      ← map_functionSitesAll _ _ otherwise]
    rfl
  | .loop e body => by
    rw [functionSites, List.map_map]
    exact map_functionSitesAll _ _ body
  | .block body => map_functionSitesAll _ _ body
  | .function name type params body => by
    rw [functionSites, List.map_cons, List.map_map]
    exact congrArg ((name, body) :: ·) (map_functionSitesAll _ _ body)

/-- Every function has a site, and the sites are in the order of the functions. -/
private theorem map_functionSitesAll (reg label : Nat) : (ss : List Stmt) →
    (functionSitesAll reg label ss).map (fun site => (site.name, site.body)) =
      (nodesAll ss).filterMap function?
  | [] => rfl
  | s :: rest => by
    rw [functionSitesAll, List.map_append, List.map_map, List.map_map, nodesAll,
      List.filterMap_append, ← map_functionSites reg label s,
      ← map_functionSitesAll (reg + s.registers) (label + s.labels) rest]
    rfl

end

mutual

/-- The functions in a statement stand in its code with closed segments. -/
theorem closedIn_code (reg label : Nat) : (s : Stmt) → (∀ f ∈ s.functionNames, ¬ LabelLike f) →
    ∀ site ∈ s.functionSites reg label, site.ClosedIn (s.code reg label)
  | .declare _ _, _ | .declareAssign _ _ _, _ | .assign _ _, _ | .call _ _, _ | .ret _, _ =>
    List.forall_mem_nil _
  | .ifThen e body, hs => by
    intro site hsite
    obtain ⟨inner, hinner, rfl⟩ := List.mem_map.mp hsite
    have happart := apart_ifThen reg label hs (reg + e.registers) e
    exact (closedIn_codeAll _ _ body hs inner hinner).within happart.1 happart.2
  | .ifElse e body otherwise, hs => by
    obtain ⟨hbody, hotherwise⟩ := List.forall_mem_append.mp hs
    intro site hsite
    rcases List.mem_append.mp hsite with hsite | hsite
    · obtain ⟨inner, hinner, rfl⟩ := List.mem_map.mp hsite
      have happart := apart_ifElse reg label hbody hotherwise (reg + e.registers)
        (reg + e.registers + registersAll body) e
      have hclosed := (closedIn_codeAll _ _ body hbody inner hinner).within happart.1 happart.2
      simpa [code] using hclosed
    · obtain ⟨inner, hinner, rfl⟩ := List.mem_map.mp hsite
      have happart := apart_ifElse_otherwise reg label hbody hotherwise (reg + e.registers)
        (reg + e.registers + registersAll body) e
      exact (closedIn_codeAll _ _ otherwise hotherwise inner hinner).within happart.1 happart.2
  | .loop e body, hs => by
    intro site hsite
    obtain ⟨inner, hinner, rfl⟩ := List.mem_map.mp hsite
    have happart := apart_loop reg label hs (reg + e.registers) e
    exact (closedIn_codeAll _ _ body hs inner hinner).within happart.1 happart.2
  | .block body, hs => closedIn_codeAll reg label body hs
  | .function name type params body, hs => by
    obtain ⟨hname, hbody⟩ := List.forall_mem_cons.mp hs
    intro site hsite
    rcases List.mem_cons.mp hsite with rfl | hsite
    · refine ⟨by simp [FunctionSite.text, FunctionSite.segment, code], ?_, .of_nil rfl rfl,
        .of_nil rfl rfl⟩
      intro target htarget
      have hbody : target ∈ targets (codeAll reg label body) := by
        simpa [FunctionSite.segment, targets, Instr.target?] using htarget
      simp [FunctionSite.segment, mem_labelNames_of_mem_targets hbody]
    · obtain ⟨inner, hinner, rfl⟩ := List.mem_map.mp hsite
      exact (closedIn_codeAll _ _ body hbody inner hinner).within
        (apart_function reg label hname hbody) (.of_nil rfl rfl)

/-- The functions in statements stand in their code with closed segments. -/
private theorem closedIn_codeAll (reg label : Nat) : (ss : List Stmt) →
    (∀ f ∈ functionNamesAll ss, ¬ LabelLike f) →
    ∀ site ∈ functionSitesAll reg label ss, site.ClosedIn (codeAll reg label ss)
  | [], _ => List.forall_mem_nil _
  | s :: rest, hss => by
    obtain ⟨hs, hrest⟩ := List.forall_mem_append.mp hss
    have happart := apart_cons reg label hs hrest
    have hnil : ∀ code, Apart code [] := fun code => .of_nil rfl rfl
    intro site hsite
    rcases List.mem_append.mp hsite with hsite | hsite
    · obtain ⟨inner, hinner, rfl⟩ := List.mem_map.mp hsite
      exact (closedIn_code _ _ s hs inner hinner).within (hnil _) happart
    · obtain ⟨inner, hinner, rfl⟩ := List.mem_map.mp hsite
      have hclosed := (closedIn_codeAll _ _ rest hrest inner hinner).within happart.symm (hnil _)
      rwa [List.append_nil] at hclosed

end

end Stmt

namespace Program

/-- The functions of a program, each in its place in the code of the program. -/
def functionSites (p : Program) : List FunctionSite :=
  Stmt.functionSitesAll 0 0 p.body

/-- **Labels and jumps.** The labels in the code of a program are those that its conditionals and
loops need, each once, and the names of its functions; and there is one jump to each of the former.
If no function is named like such a label, then every conditional jump stands in front of its label,
and the code of every function, at whatever depth, is closed under jumps. -/
theorem labels_once_and_jumps_closed (p : Program) :
    (labelNames p.assembly.text).Perm
        ((List.range p.labelCount).map labelName ++ p.functionNames) ∧
      (targets p.assembly.text).Perm ((List.range p.labelCount).map labelName) ∧
      ((∀ f ∈ p.functionNames, ¬ LabelLike f) →
        (∀ (i j : Nat) (name : String), p.assembly.text[i]? = some (.je name) →
          p.assembly.text[j]? = some (.label name) → i < j) ∧
        p.functionSites.map (fun site => (site.name, site.body)) = p.functions ∧
        ∀ site ∈ p.functionSites, site.text = p.assembly.text ∧ site.Closed) := by
  have hgenerated : (List.range p.labelCount).map labelName =
      Stmt.generatedLabels 0 (Stmt.labelsAll p.body) := by
    rw [p.labelsAll_body, List.range_eq_range', Stmt.generatedLabels]
  rw [hgenerated, ← p.functionNamesAll_body]
  refine ⟨Stmt.labelNames_codeAll_perm 0 0 p.body, Stmt.targets_codeAll_perm 0 0 p.body, ?_⟩
  intro hnames
  refine ⟨fun i j name => (Stmt.forward_codeAll 0 0 p.body hnames).lt,
    Stmt.map_functionSitesAll 0 0 p.body, fun site hsite => ?_⟩
  have hclosed := Stmt.closedIn_codeAll 0 0 p.body hnames site hsite
  exact ⟨hclosed.text_eq, hclosed.closed⟩

/-- A function with a loop around a conditional, and a second function inside of the loop. -/
def nestedFunctions : Program :=
  ⟨[.function "outer" .int [] [
      .loop (.var "n" .int) [
        .function "inner" .int [] [.ifThen (.var "n" .int) [.ret (.const (.int 1))]],
        .ifElse (.var "n" .int) [.assign "n" (.const (.int 0))] []]],
    .call "outer" []]⟩

/-- A function inside of another one keeps its jumps to itself, and so does the outer one. -/
theorem nestedFunctions_jumps_closed :
    nestedFunctions.labelCount = 5 ∧ nestedFunctions.functionNames = ["outer", "inner"] ∧
      (∀ f ∈ nestedFunctions.functionNames, ¬ LabelLike f) ∧
      nestedFunctions.functionSites.length = 2 ∧
      ∀ site ∈ nestedFunctions.functionSites,
        site.text = nestedFunctions.assembly.text ∧ site.Closed := by
  have hnames : nestedFunctions.functionNames = ["outer", "inner"] := rfl
  have hlabels : ∀ f ∈ nestedFunctions.functionNames, ¬ LabelLike f := by
    rintro f hf ⟨ds, -, -, hds⟩
    rcases List.mem_pair.mp (hnames ▸ hf) with rfl | rfl
    · simp at hds
    · simp at hds
  obtain ⟨-, -, hclosed⟩ := (labels_once_and_jumps_closed nestedFunctions).2.2 hlabels
  exact ⟨rfl, hnames, hlabels, rfl, hclosed⟩

end Program

end TinyImp
