import TinyImp.Proofs.Execution.Evaluation

/-!
# Code generation preserves meaning

A program without functions and the machine that runs its code **agree on every outcome**: the
program, started in a store, terminates in a store exactly if the machine, started with that store
and with any registers, reaches the end of the code with that other store.

Forwards (`Stmt.Executes.reaches`), the argument is by induction on the execution of a statement
and holds for its code at any place of a longer text. Backwards (`Stmt.hasOutcome`), it is by
induction on the statement, and for a loop also on the number of steps that the machine still
makes: only a loop comes back to its own code, and it has then fewer steps to go. It is enough to
find *some* outcome of the statement, since the machine has one run only and the forward direction
says where that goes.
-/

namespace TinyImp

open Asm

variable {V : Type} {I : Interpretation V} {text : List Instr}

/-! ### Single statements -/

/-- The machine evaluates an expression and puts its value into a variable. -/
theorem Expr.reaches_assign {e : Expr} {reg pc : Nat} {name : String} {m : Memory V} {v : V}
    (hcode : CodeAt text pc (e.code reg ++ [.mov (.data name) (e.operand reg)]))
    (hv : e.eval I m.store = some v) :
    ∃ m', Reaches I text ⟨pc, m⟩
        ⟨pc + (e.code reg ++ [Instr.mov (.data name) (e.operand reg)]).length, m'⟩ ∧
      m'.store = Function.update m.store name v := by
  obtain ⟨m₁, hm₁, hagree, hread⟩ := e.computes I reg m v hv
  refine ⟨m₁.setVariable name v, reaches_straight hcode ?_ ?_, ?_⟩
  · intro i hi
    rcases List.mem_append.mp hi with hi | hi
    · exact (Expr.mem_code hi).1
    · rw [List.mem_singleton.mp hi]
      rfl
  · rw [Memory.effects_append, hm₁, Option.bind_some, Memory.effects_singleton, Memory.effect,
      hread]
    rfl
  · rw [Memory.setVariable, hagree.store_eq]

/-- **The machine decides a condition**: it goes to the label if the value is zero, and behind the
code of the condition if not. -/
theorem Expr.reaches_condition {e : Expr} {reg pc target : Nat} {ifZero : String} {m : Memory V}
    {v : V} (hunique : LabelsUnique text) (hcode : CodeAt text pc (e.conditionCode reg ifZero))
    (htarget : text[target]? = some (.label ifZero)) (hv : e.eval I m.store = some v) :
    ∃ m', Reaches I text ⟨pc, m⟩
        ⟨if I.isZero v then target else pc + (e.conditionCode reg ifZero).length, m'⟩ ∧
      m'.store = m.store := by
  obtain ⟨m₁, hm₁, hagree, hread⟩ := e.computes I reg m v hv
  have hzero : (m₁.compare I (e.operand reg) (.imm (.int 0))).equal = I.isZero v := by
    rw [Memory.compare, hread]
    rfl
  have hstraight := reaches_straight (I := I) hcode.left (fun i hi => (Expr.mem_code hi).1) hm₁
  have hcmp : Reaches I text ⟨pc + (e.code reg).length, m₁⟩
      ⟨pc + (e.code reg).length + 1, m₁.compare I (e.operand reg) (.imm (.int 0))⟩ :=
    .of_step (step_of_not_isJump hcode.right.head rfl)
  refine ⟨m₁.compare I (e.operand reg) (.imm (.int 0)),
    hstraight.trans (hcmp.trans (.of_step ?_)), hagree.store_eq⟩
  rw [step, hcode.right.tail.head]
  cases hz : I.isZero v with
  | true => simp [hzero, hz, jump_eq hunique htarget]
  | false => simp [hzero, hz, Expr.conditionCode, Nat.add_assoc]

/-- A machine that stands before the code of an expression and halts finds a value. -/
theorem Expr.exists_eval {e : Expr} {reg pc n : Nat} {m m' : Memory V}
    (hcode : CodeAt text pc (e.code reg))
    (h : steps I text n ⟨pc, m⟩ = some ⟨text.length, m'⟩) : ∃ v, e.eval I m.store = some v := by
  obtain ⟨m₁, hm₁⟩ := effects_of_halts hcode (fun i hi => (Expr.mem_code hi).1) h
  cases hv : e.eval I m.store with
  | none => exact absurd hm₁ (by simp [e.effects_code_eq_none I reg m hv])
  | some v => exact ⟨v, rfl⟩

/-- The machine passes over a line that only names a place. -/
theorem Asm.reaches_label {pc : Nat} {name : String} (h : text[pc]? = some (.label name))
    (m : Memory V) : Reaches I text ⟨pc, m⟩ ⟨pc + 1, m⟩ :=
  .of_step (step_of_not_isJump h rfl)

/-- The machine jumps to the place of a label. -/
theorem Asm.reaches_jmp (hunique : LabelsUnique text) {pc target : Nat} {name : String}
    (h : text[pc]? = some (.jmp name)) (htarget : text[target]? = some (.label name))
    (m : Memory V) : Reaches I text ⟨pc, m⟩ ⟨target, m⟩ := by
  refine .of_step ?_
  rw [step, h]
  exact jump_eq hunique htarget _

namespace Stmt

/-! ### Where the parts of a statement stand -/

/-- The places in the code of a conditional without an alternative: body and end. -/
theorem layout_ifThen {e : Expr} {body : List Stmt} {reg label pc : Nat}
    (h : CodeAt text pc ((ifThen e body).code reg label)) :
    ∃ start done, CodeAt text pc (e.conditionCode reg (labelName label)) ∧
      pc + (e.conditionCode reg (labelName label)).length = start ∧
      CodeAt text start ((block body).code (reg + e.registers) (label + 1)) ∧
      start + ((block body).code (reg + e.registers) (label + 1)).length = done ∧
      text[done]? = some (.label (labelName label)) ∧
      pc + ((ifThen e body).code reg label).length = done + 1 := by
  rw [code] at h
  refine ⟨_, _, h.left.left, rfl, h.left.right, rfl, ?_, ?_⟩
  · simpa [code, Nat.add_assoc] using h.right.head
  · simp [code, Nat.add_assoc]

/-- The places in the code of a conditional with an alternative: body, jump over the alternative,
and end. -/
theorem layout_ifElse {e : Expr} {body otherwise : List Stmt} {reg label pc : Nat}
    (h : CodeAt text pc ((ifElse e body otherwise).code reg label)) :
    ∃ start leave done reg' label', CodeAt text pc (e.conditionCode reg (labelName label)) ∧
      pc + (e.conditionCode reg (labelName label)).length = start ∧
      CodeAt text start ((block body).code (reg + e.registers) (label + 2)) ∧
      start + ((block body).code (reg + e.registers) (label + 2)).length = leave ∧
      text[leave]? = some (.jmp (labelName (label + 1))) ∧
      text[leave + 1]? = some (.label (labelName label)) ∧
      CodeAt text (leave + 2) ((block otherwise).code reg' label') ∧
      leave + 2 + ((block otherwise).code reg' label').length = done ∧
      text[done]? = some (.label (labelName (label + 1))) ∧
      pc + ((ifElse e body otherwise).code reg label).length = done + 1 := by
  rw [code] at h
  refine ⟨_, _, _, reg + e.registers + registersAll body, label + 2 + labelsAll body,
    h.left.left.left.left, rfl, h.left.left.left.right, rfl, ?_, ?_, ?_, rfl, ?_, ?_⟩
  · simpa [code, Nat.add_assoc] using h.left.left.right.head
  · simpa [code, Nat.add_assoc] using h.left.left.right.tail.head
  · simpa [code, Nat.add_assoc] using h.left.right
  · refine (congrArg (text[·]?) ?_).trans h.right.head
    simp only [code, List.length_append, List.length_cons, List.length_nil]
    omega
  · simp only [code, List.length_append, List.length_cons, List.length_nil]
    omega

/-- The places in the code of a loop: condition, body, jump back, and end. -/
theorem layout_loop {e : Expr} {body : List Stmt} {reg label pc : Nat}
    (h : CodeAt text pc ((loop e body).code reg label)) :
    ∃ start back, text[pc]? = some (.label (labelName label)) ∧
      CodeAt text (pc + 1) (e.conditionCode reg (labelName (label + 1))) ∧
      pc + 1 + (e.conditionCode reg (labelName (label + 1))).length = start ∧
      CodeAt text start ((block body).code (reg + e.registers) (label + 2)) ∧
      start + ((block body).code (reg + e.registers) (label + 2)).length = back ∧
      text[back]? = some (.jmp (labelName label)) ∧
      text[back + 1]? = some (.label (labelName (label + 1))) ∧
      pc + ((loop e body).code reg label).length = back + 2 := by
  rw [code, List.cons_append, List.cons_append] at h
  refine ⟨_, _, h.head, h.tail.left.left, rfl, h.tail.left.right, rfl, ?_, ?_, ?_⟩
  · simpa [code, Nat.add_assoc] using h.tail.right.head
  · simpa [code, Nat.add_assoc] using h.tail.right.tail.head
  · simp only [code, List.length_append, List.length_cons, List.length_nil]
    omega

/-- The places in the code of a nonempty block: the first statement and the others. -/
theorem layout_cons {s : Stmt} {rest : List Stmt} {reg label pc : Nat}
    (h : CodeAt text pc ((block (s :: rest)).code reg label)) :
    ∃ start reg' label', CodeAt text pc (s.code reg label) ∧
      pc + (s.code reg label).length = start ∧
      CodeAt text start ((block rest).code reg' label') ∧
      pc + ((block (s :: rest)).code reg label).length =
        start + ((block rest).code reg' label').length := by
  rw [code, codeAll] at h
  refine ⟨_, reg + s.registers, label + s.labels, h.left, rfl, h.right, ?_⟩
  simp [code, codeAll, Nat.add_assoc]

/-! ### Forwards -/

/-- **The code of a statement does what the statement does**, at any place of a text in which no
label stands twice. -/
theorem Executes.reaches (hunique : LabelsUnique text) {s : Stmt} {σ σ' : Store V}
    (h : s.Executes I σ σ') {reg label pc : Nat} {m : Memory V}
    (hcode : CodeAt text pc (s.code reg label)) (hm : m.store = σ) :
    ∃ m', Reaches I text ⟨pc, m⟩ ⟨pc + (s.code reg label).length, m'⟩ ∧ m'.store = σ' := by
  induction h generalizing reg label pc m with
  | declare => exact ⟨m, .of_step (step_of_not_isJump hcode.head rfl), hm⟩
  | declareAssign hinit =>
    subst hm
    exact Expr.reaches_assign hcode hinit
  | assign hvalue =>
    subst hm
    exact Expr.reaches_assign hcode hvalue
  | ifThenHolds he hv hbody ih =>
    subst hm
    obtain ⟨start, done, hcond, hstart, hbody, hdone, hlabel, hlength⟩ := layout_ifThen hcode
    obtain ⟨m₁, hreach₁, hm₁⟩ := Expr.reaches_condition hunique hcond hlabel he
    rw [hv, if_neg Bool.false_ne_true, hstart] at hreach₁
    obtain ⟨m₂, hreach₂, hm₂⟩ := ih hbody hm₁
    rw [hdone] at hreach₂
    rw [hlength]
    exact ⟨m₂, hreach₁.trans (hreach₂.trans (reaches_label hlabel m₂)), hm₂⟩
  | ifThenFails he hv =>
    subst hm
    obtain ⟨start, done, hcond, hstart, hbody, hdone, hlabel, hlength⟩ := layout_ifThen hcode
    obtain ⟨m₁, hreach₁, hm₁⟩ := Expr.reaches_condition hunique hcond hlabel he
    rw [hv, if_pos rfl] at hreach₁
    rw [hlength]
    exact ⟨m₁, hreach₁.trans (reaches_label hlabel m₁), hm₁⟩
  | ifElseHolds he hv hbody ih =>
    subst hm
    obtain ⟨start, leave, done, reg', label', hcond, hstart, hbody, hleave, hjmp, helse, -, -,
      hlabel, hlength⟩ := layout_ifElse hcode
    obtain ⟨m₁, hreach₁, hm₁⟩ := Expr.reaches_condition hunique hcond helse he
    rw [hv, if_neg Bool.false_ne_true, hstart] at hreach₁
    obtain ⟨m₂, hreach₂, hm₂⟩ := ih hbody hm₁
    rw [hleave] at hreach₂
    rw [hlength]
    exact ⟨m₂, hreach₁.trans (hreach₂.trans
      ((reaches_jmp hunique hjmp hlabel m₂).trans (reaches_label hlabel m₂))), hm₂⟩
  | ifElseFails he hv hotherwise ih =>
    subst hm
    obtain ⟨start, leave, done, reg', label', hcond, -, -, -, -, helse, hotherwise, hdone,
      hlabel, hlength⟩ := layout_ifElse hcode
    obtain ⟨m₁, hreach₁, hm₁⟩ := Expr.reaches_condition hunique hcond helse he
    rw [hv, if_pos rfl] at hreach₁
    obtain ⟨m₂, hreach₂, hm₂⟩ := ih hotherwise hm₁
    rw [hdone] at hreach₂
    rw [hlength]
    exact ⟨m₂, hreach₁.trans ((reaches_label helse m₁).trans
      (hreach₂.trans (reaches_label hlabel m₂))), hm₂⟩
  | loopHolds he hv hbody hloop ihb ihl =>
    subst hm
    obtain ⟨start, back, hlabel, hcond, hstart, hbody, hback, hjmp, hend, hlength⟩ :=
      layout_loop hcode
    obtain ⟨m₁, hreach₁, hm₁⟩ := Expr.reaches_condition hunique hcond hend he
    rw [hv, if_neg Bool.false_ne_true, hstart] at hreach₁
    obtain ⟨m₂, hreach₂, hm₂⟩ := ihb hbody hm₁
    rw [hback] at hreach₂
    -- behind the jump back, the machine stands before the same loop again
    obtain ⟨m₃, hreach₃, hm₃⟩ := ihl hcode hm₂
    exact ⟨m₃, (reaches_label hlabel m).trans (hreach₁.trans (hreach₂.trans
      ((reaches_jmp hunique hjmp hlabel m₂).trans hreach₃))), hm₃⟩
  | loopFails he hv =>
    subst hm
    obtain ⟨start, back, hlabel, hcond, -, -, -, -, hend, hlength⟩ := layout_loop hcode
    obtain ⟨m₁, hreach₁, hm₁⟩ := Expr.reaches_condition hunique hcond hend he
    rw [hv, if_pos rfl] at hreach₁
    rw [hlength]
    exact ⟨m₁, (reaches_label hlabel m).trans (hreach₁.trans (reaches_label hend m₁)), hm₁⟩
  | blockNil => exact ⟨m, .refl _, hm⟩
  | blockCons hs hrest ihs ihrest =>
    obtain ⟨start, reg', label', hfirst, hstart, hothers, hlength⟩ := layout_cons hcode
    obtain ⟨m₁, hreach₁, hm₁⟩ := ihs hfirst hm
    rw [hstart] at hreach₁
    obtain ⟨m₂, hreach₂, hm₂⟩ := ihrest hothers hm₁
    rw [hlength]
    exact ⟨m₂, hreach₁.trans hreach₂, hm₂⟩

/-! ### Backwards -/

/-- A machine that stands before the code of the statement and halts has executed the statement:
the statement has an outcome. -/
def HasOutcome (I : Interpretation V) (text : List Instr) (s : Stmt) : Prop :=
  ∀ {reg label pc k : Nat} {m m' : Memory V}, CodeAt text pc (s.code reg label) →
    steps I text k ⟨pc, m⟩ = some ⟨text.length, m'⟩ → ∃ σ', s.Executes I m.store σ'

private theorem hasOutcome_ifThen (hunique : LabelsUnique text) {e : Expr} {body : List Stmt}
    (hbody : HasOutcome I text (.block body)) : HasOutcome I text (.ifThen e body) := by
  intro reg label pc k m m' hcode hhalts
  obtain ⟨start, done, hcond, hstart, hcode', hdone, hlabel, -⟩ := layout_ifThen hcode
  obtain ⟨v, hv⟩ := Expr.exists_eval hcond.left hhalts
  obtain ⟨m₁, hreach, hm₁⟩ := Expr.reaches_condition hunique hcond hlabel hv
  cases hz : I.isZero v with
  | true => exact ⟨m.store, .ifThenFails hv hz⟩
  | false =>
    rw [hz, if_neg Bool.false_ne_true, hstart] at hreach
    obtain ⟨k₁, -, hhalts₁⟩ := halts_of_reaches hhalts hreach
    obtain ⟨σ', hσ'⟩ := hbody hcode' hhalts₁
    rw [hm₁] at hσ'
    exact ⟨σ', .ifThenHolds hv hz hσ'⟩

private theorem hasOutcome_ifElse (hunique : LabelsUnique text) {e : Expr}
    {body otherwise : List Stmt}
    (hbody : HasOutcome I text (.block body)) (hotherwise : HasOutcome I text (.block otherwise)) :
    HasOutcome I text (.ifElse e body otherwise) := by
  intro reg label pc k m m' hcode hhalts
  obtain ⟨start, leave, done, reg', label', hcond, hstart, hcode₁, -, -, helse, hcode₂, -, -, -⟩ :=
    layout_ifElse hcode
  obtain ⟨v, hv⟩ := Expr.exists_eval hcond.left hhalts
  obtain ⟨m₁, hreach, hm₁⟩ := Expr.reaches_condition hunique hcond helse hv
  cases hz : I.isZero v with
  | true =>
    rw [hz, if_pos rfl] at hreach
    obtain ⟨k₁, -, hhalts₁⟩ := halts_of_reaches hhalts (hreach.trans (reaches_label helse m₁))
    obtain ⟨σ', hσ'⟩ := hotherwise hcode₂ hhalts₁
    rw [hm₁] at hσ'
    exact ⟨σ', .ifElseFails hv hz hσ'⟩
  | false =>
    rw [hz, if_neg Bool.false_ne_true, hstart] at hreach
    obtain ⟨k₁, -, hhalts₁⟩ := halts_of_reaches hhalts hreach
    obtain ⟨σ', hσ'⟩ := hbody hcode₁ hhalts₁
    rw [hm₁] at hσ'
    exact ⟨σ', .ifElseHolds hv hz hσ'⟩

/-- A loop has an outcome if its body has one, by induction on the steps that are left. -/
private theorem hasOutcome_loop (hunique : LabelsUnique text) {e : Expr} {body : List Stmt}
    (hbody : HasOutcome I text (.block body)) : HasOutcome I text (.loop e body) := by
  intro reg label pc k m m' hcode hhalts
  -- back at its own label, the loop has fewer steps to go
  induction k using Nat.strongRecOn generalizing m with
  | ind k ih =>
    obtain ⟨start, back, hlabel, hcond, hstart, hcode', hback, hjmp, hend, -⟩ := layout_loop hcode
    obtain ⟨k₁, c, rfl, hstep, hhalts₁⟩ := exists_step_of_halts hlabel hhalts
    obtain rfl : ⟨pc + 1, m⟩ = c := by
      rw [step_of_not_isJump hlabel rfl] at hstep
      exact Option.some.inj hstep
    obtain ⟨v, hv⟩ := Expr.exists_eval hcond.left hhalts₁
    obtain ⟨m₁, hreach, hm₁⟩ := Expr.reaches_condition hunique hcond hend hv
    cases hz : I.isZero v with
    | true => exact ⟨m.store, .loopFails hv hz⟩
    | false =>
      rw [hz, if_neg Bool.false_ne_true, hstart] at hreach
      obtain ⟨k₂, hk₂, hhalts₂⟩ := halts_of_reaches hhalts₁ hreach
      obtain ⟨σ₁, hσ₁⟩ := hbody hcode' hhalts₂
      obtain ⟨m₂, hreach₂, hm₂⟩ := hσ₁.reaches hunique hcode' rfl
      rw [hback] at hreach₂
      obtain ⟨k₃, hk₃, hhalts₃⟩ :=
        halts_of_reaches hhalts₂ (hreach₂.trans (reaches_jmp hunique hjmp hlabel m₂))
      obtain ⟨σ', hσ'⟩ := ih k₃ (by omega) hhalts₃
      rw [hm₁] at hσ₁
      rw [hm₂] at hσ'
      exact ⟨σ', .loopHolds hv hz hσ₁ hσ'⟩

private theorem hasOutcome_cons (hunique : LabelsUnique text) {s : Stmt} {rest : List Stmt}
    (hs : HasOutcome I text s) (hrest : HasOutcome I text (.block rest)) :
    HasOutcome I text (.block (s :: rest)) := by
  intro reg label pc k m m' hcode hhalts
  obtain ⟨start, reg', label', hfirst, hstart, hothers, -⟩ := layout_cons hcode
  obtain ⟨σ₁, hσ₁⟩ := hs hfirst hhalts
  obtain ⟨m₁, hreach, hm₁⟩ := hσ₁.reaches hunique hfirst rfl
  rw [hstart] at hreach
  obtain ⟨k₁, -, hhalts₁⟩ := halts_of_reaches hhalts hreach
  obtain ⟨σ', hσ'⟩ := hrest hothers hhalts₁
  rw [hm₁] at hσ'
  exact ⟨σ', .blockCons hσ₁ hσ'⟩

mutual

/-- **A machine that halts has executed every statement without functions that it has come to.** -/
theorem hasOutcome (I : Interpretation V) (hunique : LabelsUnique text) :
    (s : Stmt) → s.functionFree = true → HasOutcome I text s
  | .declare _ _, _ => fun _ _ => ⟨_, .declare⟩
  | .declareAssign _ _ _, _ => fun hcode hhalts =>
    let ⟨_, hv⟩ := Expr.exists_eval hcode.left hhalts
    ⟨_, .declareAssign hv⟩
  | .assign _ _, _ => fun hcode hhalts =>
    let ⟨_, hv⟩ := Expr.exists_eval hcode.left hhalts
    ⟨_, .assign hv⟩
  | .ifThen _ body, h => hasOutcome_ifThen hunique (hasOutcome_block I hunique body h)
  | .ifElse _ body otherwise, h =>
    have h' := Bool.and_eq_true_iff.mp h
    hasOutcome_ifElse hunique (hasOutcome_block I hunique body h'.1)
      (hasOutcome_block I hunique otherwise h'.2)
  | .loop _ body, h => hasOutcome_loop hunique (hasOutcome_block I hunique body h)
  | .block body, h => hasOutcome_block I hunique body h

/-- The same for the statements of a block. -/
theorem hasOutcome_block (I : Interpretation V) (hunique : LabelsUnique text) :
    (body : List Stmt) → functionFreeAll body = true → HasOutcome I text (.block body)
  | [], _ => fun _ _ => ⟨_, .blockNil⟩
  | s :: rest, h =>
    have h' := Bool.and_eq_true_iff.mp h
    hasOutcome_cons hunique (hasOutcome I hunique s h'.1) (hasOutcome_block I hunique rest h'.2)

end

end Stmt

/-! ### Programs -/

namespace Program

/-- The text of a program is the code of its body. -/
theorem codeAt_assembly (p : Program) :
    CodeAt p.assembly.text 0 ((Stmt.block p.body).code 0 0) ∧
      0 + ((Stmt.block p.body).code 0 0).length = p.assembly.text.length :=
  ⟨⟨[], [], by simp [assembly, Stmt.code], rfl⟩, by simp [assembly, Stmt.code]⟩

/-- The code of a program halts where its execution ends. -/
theorem Executes.haltsWith {p : Program} {m : Memory V} {σ' : Store V}
    (h : p.Executes I m.store σ') (hp : Stmt.functionFreeAll p.body = true) :
    HaltsWith I p.assembly.text m σ' := by
  obtain ⟨hcode, hlength⟩ := p.codeAt_assembly
  obtain ⟨m', hreach, hm'⟩ :=
    Stmt.Executes.reaches (Stmt.labelsUnique_codeAll hp 0 0) h hcode rfl
  rw [hlength] at hreach
  exact ⟨m', hreach, hm'⟩

/-- **Code generation preserves meaning.** A program without functions terminates in a store
exactly if its code, run from the first instruction with any contents of the registers, reaches
its end with that store. -/
theorem executes_iff_haltsWith_assembly (I : Interpretation V) (p : Program)
    (hp : Stmt.functionFreeAll p.body = true) (m : Memory V) (σ' : Store V) :
    p.Executes I m.store σ' ↔ HaltsWith I p.assembly.text m σ' := by
  constructor
  · intro h
    exact Executes.haltsWith h hp
  · intro hhalts
    have ⟨m', ⟨n, hn⟩, _⟩ := hhalts
    -- the program has some outcome, and the machine has one end only
    obtain ⟨σ₁, hσ₁⟩ := Stmt.hasOutcome_block I (Stmt.labelsUnique_codeAll hp 0 0) p.body hp
      p.codeAt_assembly.1 hn
    rwa [hhalts.unique (Executes.haltsWith hσ₁ hp)]

/-- The loop `while (n) { n = n / 2; }`, started with `n` equal to one, on a machine whose
registers hold other values: the body runs once, and the code ends with `n` equal to zero. -/
theorem halving_haltsWith :
    let p : Program := ⟨[.loop (.var "n" .int)
      [.assign "n" (.arith .div .int (.var "n" .int) (.const (.int 2)))]]⟩
    let m : Memory Int :=
      { store := fun _ => 1, reg := fun _ => 5, eax := 6, dividend := some 7, equal := true }
    Stmt.functionFreeAll p.body = true ∧
      HaltsWith .integers p.assembly.text m (Function.update m.store "n" 0) := by
  intro p m
  refine ⟨rfl, (executes_iff_haltsWith_assembly .integers p rfl m _).mp ?_⟩
  have hbody : Stmt.Executes .integers
      (.block [.assign "n" (.arith .div .int (.var "n" .int) (.const (.int 2)))]) m.store
      (Function.update m.store "n" 0) :=
    .blockCons (.assign rfl) .blockNil
  exact .blockCons (.loopHolds rfl rfl hbody (.loopFails rfl rfl)) .blockNil

end Program

end TinyImp
