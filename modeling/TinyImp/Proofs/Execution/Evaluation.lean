import TinyImp.Proofs.Execution.Labels

/-!
# The code of expressions

The code of an expression leaves the value of the expression in its operand, and leaves alone the
variables and all registers below the first free one. **The code has an effect exactly if the
expression has a value**: `Expr.computes` and `Expr.effects_code_eq_none`. That the registers below
are left alone is what keeps the left operand of an operator while the right one is computed, since
its register is below those that the right side may use.
-/

namespace TinyImp

open Asm

variable {V : Type} {I : Interpretation V}

/-! ### Registers that are left alone -/

namespace Asm

/-- The operand is a variable or a register with a number below the given one. -/
def Operand.Below (n : Nat) : Operand → Prop
  | .reg r => r < n
  | .data _ => True
  | .imm _ => False
  | .eax => False

private theorem Operand.Below.mono {m n : Nat} (h : m ≤ n) {o : Operand} (ho : o.Below m) :
    o.Below n := by
  cases o with
  | reg r => exact Nat.lt_of_lt_of_le ho h
  | data name => trivial
  | imm value => exact ho
  | eax => exact ho

namespace Memory

/-- Two memories have the same variables and the same registers below a number. -/
structure AgreesBelow (n : Nat) (m m' : Memory V) : Prop where
  store_eq : m'.store = m.store
  reg_eq : ∀ r < n, m'.reg r = m.reg r

namespace AgreesBelow

variable {n k : Nat} {m m₁ m₂ : Memory V}

theorem refl (m : Memory V) : AgreesBelow n m m :=
  ⟨rfl, fun _ _ => rfl⟩

/-- Two memories that agree with a third one in between agree. -/
theorem trans (h₁ : AgreesBelow n m m₁) (h₂ : AgreesBelow n m₁ m₂) : AgreesBelow n m m₂ :=
  ⟨h₂.store_eq.trans h₁.store_eq, fun r hr => (h₂.reg_eq r hr).trans (h₁.reg_eq r hr)⟩

/-- Agreement below a register is agreement below every lower one. -/
theorem mono (hk : k ≤ n) (h : AgreesBelow n m m₁) : AgreesBelow k m m₁ :=
  ⟨h.store_eq, fun r hr => h.reg_eq r (Nat.lt_of_lt_of_le hr hk)⟩

/-- Operands below the number have the same value in both memories. -/
theorem read_eq (h : AgreesBelow n m m₁) {o : Operand} (ho : o.Below n) :
    m₁.read I o = m.read I o := by
  cases o with
  | reg r => exact h.reg_eq r ho
  | data name => exact congrFun h.store_eq name
  | imm value => exact ho.elim
  | eax => exact ho.elim

/-- Writing a register from the number on keeps what is below. -/
theorem setReg {r : Nat} (hr : n ≤ r) (v : V) : AgreesBelow n m (m.setReg r v) :=
  ⟨rfl, fun _ hs => Function.update_of_ne (Nat.ne_of_lt (Nat.lt_of_lt_of_le hs hr)) _ _⟩

end AgreesBelow

end Memory

end Asm

namespace Expr

/-! ### Operators -/

/-- **The code of an operator**, over operands below its result register: where the operator has
a value, the result register takes it and everything below is left alone; where the operator
fails, the code has no effect. -/
theorem effects_arithCode (op : ArithOp) {lhs rhs : Operand} {r : Nat} (hl : lhs.Below r)
    (hr : rhs.Below r) (m : Memory V) :
    ∃ result : V → Memory V,
      m.effects I (arithCode op lhs rhs (.reg r)) =
        (I.arith op (m.read I lhs) (m.read I rhs)).map result ∧
      ∀ v, m.AgreesBelow r (result v) ∧ (result v).read I (.reg r) = v := by
  -- after the first move, the operands still have their values
  let m₁ := m.setReg r (m.read I lhs)
  have hm₁ : m.AgreesBelow r m₁ := .setReg (Nat.le_refl r) _
  have hmov : m.effect I (.mov (.reg r) lhs) = some m₁ := rfl
  have hreg : m₁.read I (.reg r) = m.read I lhs := Function.update_self ..
  have hcombine : m₁.combine I op (.reg r) rhs =
      (I.arith op (m.read I lhs) (m.read I rhs)).map (m₁.setReg r) := by
    rw [Memory.combine, hreg, hm₁.read_eq hr, Option.map_eq_bind]
    rfl
  have hset : ∀ v, m.AgreesBelow r (m₁.setReg r v) ∧ (m₁.setReg r v).read I (.reg r) = v :=
    fun v => ⟨hm₁.trans (.setReg (Nat.le_refl r) v), Function.update_self ..⟩
  unfold arithCode
  rw [Memory.effects_cons, hmov, Option.bind_some]
  cases op with
  | add => exact ⟨m₁.setReg r, by rw [Memory.effects_singleton]; exact hcombine, hset⟩
  | sub => exact ⟨m₁.setReg r, by rw [Memory.effects_singleton]; exact hcombine, hset⟩
  | mul => exact ⟨m₁.setReg r, by rw [Memory.effects_singleton]; exact hcombine, hset⟩
  | div =>
    let m₂ : Memory V := { m₁.setEax (m.read I lhs) with dividend := some (m.read I lhs) }
    have hm₂ : m.AgreesBelow r m₂ := ⟨hm₁.store_eq, hm₁.reg_eq⟩
    have hwiden : m₁.effects I [.mov .eax lhs, .cdq] = some m₂ := by
      rw [Memory.effects_cons, Memory.effect, hm₁.read_eq hl]
      rfl
    have hdivide : m₂.effect I (.idiv rhs) =
        (I.arith .div (m.read I lhs) (m.read I rhs)).map m₂.setEax := by
      rw [← hm₂.read_eq hr, Option.map_eq_bind]
      rfl
    refine ⟨fun v => (m₂.setEax v).setReg r v, ?_, fun v => ⟨?_, Function.update_self ..⟩⟩
    · rw [show [Instr.mov .eax lhs, .cdq, .idiv rhs, .mov (.reg r) .eax] =
          [.mov .eax lhs, .cdq] ++ [.idiv rhs, .mov (.reg r) .eax] from rfl,
        Memory.effects_append, hwiden, Option.bind_some, Memory.effects_cons, hdivide,
        Option.bind_map, Option.map_eq_bind]
      rfl
    · exact hm₂.trans ⟨rfl, (Memory.AgreesBelow.setReg (Nat.le_refl r) v).reg_eq⟩

/-! ### Expressions -/

/-- The operand of an expression is a variable or one of the registers of its code. -/
theorem operand_below (reg : Nat) (e : Expr) : (e.operand reg).Below (reg + e.registers) := by
  induction e generalizing reg with
  | const value => exact Nat.lt_succ_self reg
  | var name type => trivial
  | arith op type lhs rhs ihl ihr =>
    change reg + lhs.registers + rhs.registers < reg + (lhs.registers + rhs.registers + 1)
    omega
  | compare op lhs rhs ihl ihr => exact (ihl reg).mono (by simp only [registers]; omega)

/-- The code of an expression computes its value: if the expression has a value, its code has an
effect, after which the operand holds the value, and the variables and the registers below the
first free one are as before. -/
def Computes (I : Interpretation V) (e : Expr) : Prop :=
  ∀ (reg : Nat) (m : Memory V) (v : V), e.eval I m.store = some v →
    ∃ m', m.effects I (e.code reg) = some m' ∧ m.AgreesBelow reg m' ∧
      m'.read I (e.operand reg) = v

/-- Two sides, one after the other: the code of the right side leaves the operand of the left side
alone, so that both values are there in the end. -/
private theorem Computes.both {lhs rhs : Expr} (hl : lhs.Computes I) (hr : rhs.Computes I)
    (reg : Nat) {m : Memory V} {a b : V} (ha : lhs.eval I m.store = some a)
    (hb : rhs.eval I m.store = some b) :
    ∃ m', m.effects I (lhs.code reg ++ rhs.code (reg + lhs.registers)) = some m' ∧
      m.AgreesBelow reg m' ∧ m'.read I (lhs.operand reg) = a ∧
      m'.read I (rhs.operand (reg + lhs.registers)) = b := by
  obtain ⟨m₁, hm₁, hagree₁, hread₁⟩ := hl reg m a ha
  rw [← hagree₁.store_eq] at hb
  obtain ⟨m₂, hm₂, hagree₂, hread₂⟩ := hr (reg + lhs.registers) m₁ b hb
  refine ⟨m₂, ?_, hagree₁.trans (hagree₂.mono (Nat.le_add_right ..)), ?_, hread₂⟩
  · rw [Memory.effects_append, hm₁, Option.bind_some, hm₂]
  · rw [hagree₂.read_eq (lhs.operand_below reg), hread₁]

/-- **The code of every expression computes its value.** -/
theorem computes (I : Interpretation V) (e : Expr) : e.Computes I := by
  induction e with
  | const value =>
    intro reg m v h
    obtain rfl : I.const value = v := by simpa [eval] using h
    refine ⟨m.setReg reg (I.const value), ?_, .setReg (Nat.le_refl reg) _, ?_⟩
    · rw [code, Memory.effects_singleton]
      rfl
    · exact Function.update_self ..
  | var name type =>
    intro reg m v h
    obtain rfl : m.store name = v := by simpa [eval] using h
    exact ⟨m, rfl, .refl m, rfl⟩
  | arith op type lhs rhs ihl ihr =>
    intro reg m v h
    obtain ⟨a, ha, h⟩ := Option.bind_eq_some_iff.mp h
    obtain ⟨b, hb, hv⟩ := Option.bind_eq_some_iff.mp h
    obtain ⟨m₁, hm₁, hagree, hread, hread'⟩ := ihl.both ihr reg ha hb
    obtain ⟨result, hresult, hafter⟩ := effects_arithCode (I := I) op
      ((lhs.operand_below reg).mono (Nat.le_add_right _ rhs.registers))
      (rhs.operand_below (reg + lhs.registers)) m₁
    obtain ⟨hagree', hv'⟩ := hafter v
    rw [hread, hread', hv, Option.map_some] at hresult
    refine ⟨result v, ?_, hagree.trans (hagree'.mono ?_), hv'⟩
    · rw [code, Memory.effects_append, hm₁, Option.bind_some]
      exact hresult
    · omega
  | compare op lhs rhs ihl ihr =>
    intro reg m v h
    obtain ⟨a, ha, h⟩ := Option.bind_eq_some_iff.mp h
    obtain ⟨b, hb, rfl⟩ := Option.map_eq_some_iff.mp h
    obtain ⟨m₁, hm₁, hagree, hread, -⟩ := ihl.both ihr reg ha hb
    refine ⟨m₁.compare I (lhs.operand reg) (rhs.operand (reg + lhs.registers)), ?_,
      ⟨hagree.store_eq, hagree.reg_eq⟩, ?_⟩
    · rw [code, Memory.effects_append, hm₁, Option.bind_some, Memory.effects_singleton]
      rfl
    · rw [operand, Memory.read_compare, hread]

/-- The code of two sides has no effect if one of them has no value. -/
private theorem effects_both_eq_none {lhs rhs : Expr}
    (hl : ∀ (reg : Nat) (m : Memory V), lhs.eval I m.store = none →
      m.effects I (lhs.code reg) = none)
    (hr : ∀ (reg : Nat) (m : Memory V), rhs.eval I m.store = none →
      m.effects I (rhs.code reg) = none)
    (reg : Nat) {m : Memory V} (h : lhs.eval I m.store = none ∨ rhs.eval I m.store = none) :
    m.effects I (lhs.code reg ++ rhs.code (reg + lhs.registers)) = none := by
  rw [Memory.effects_append]
  cases ha : lhs.eval I m.store with
  | none => rw [hl reg m ha, Option.bind_none]
  | some a =>
    obtain ⟨m₁, hm₁, hagree, -⟩ := lhs.computes I reg m a ha
    have hb : rhs.eval I m₁.store = none := by
      rw [hagree.store_eq]
      exact h.resolve_left (by simp [ha])
    rw [hm₁, Option.bind_some, hr _ m₁ hb]

/-- **The code of an expression without a value has no effect.** -/
theorem effects_code_eq_none (I : Interpretation V) (e : Expr) (reg : Nat) (m : Memory V)
    (h : e.eval I m.store = none) : m.effects I (e.code reg) = none := by
  induction e generalizing reg m with
  | const value => simp [eval] at h
  | var name type => simp [eval] at h
  | arith op type lhs rhs ihl ihr =>
    rw [code, Memory.effects_append]
    cases ha : lhs.eval I m.store with
    | none => rw [effects_both_eq_none ihl ihr reg (.inl ha), Option.bind_none]
    | some a =>
      cases hb : rhs.eval I m.store with
      | none => rw [effects_both_eq_none ihl ihr reg (.inr hb), Option.bind_none]
      | some b =>
        obtain ⟨m₁, hm₁, -, hread, hread'⟩ :=
          (lhs.computes I).both (rhs.computes I) reg ha hb
        obtain ⟨result, hresult, -⟩ := effects_arithCode (I := I) op
          ((lhs.operand_below reg).mono (Nat.le_add_right _ rhs.registers))
          (rhs.operand_below (reg + lhs.registers)) m₁
        have hfail : I.arith op a b = none := by simpa [eval, ha, hb] using h
        rw [hread, hread', hfail, Option.map_none] at hresult
        rw [hm₁, Option.bind_some]
        exact hresult
  | compare op lhs rhs ihl ihr =>
    have hside : lhs.eval I m.store = none ∨ rhs.eval I m.store = none := by
      cases ha : lhs.eval I m.store with
      | none => exact .inl rfl
      | some a => exact .inr (by simpa [eval, ha] using h)
    rw [code, Memory.effects_append, effects_both_eq_none ihl ihr reg hside, Option.bind_none]

end Expr

end TinyImp
