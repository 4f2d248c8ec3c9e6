import TinyImp.Proofs.Code.Jumps

/-!
# Registers are defined before they are used

Registers are numbered in the order in which the code defines them, and none is used across a label,
a jump, a call or a return. Both follow from one invariant: at every place of the code there is a
**window** of registers that may be read, from the first one defined since the last such line up to
the next free one. A line either uses registers of the window, or defines the next register from
registers of the window, or closes the window. `Window.Steps` says that a piece of code keeps to
this, and generated code does (`Stmt.steps_codeAll`).

Between two uses of a register control therefore goes from line to line. A path that arrives at a
read of a register has gone through the whole stretch from the definition on, unless it began there:
`exists_definition_on_path`.
-/

namespace TinyImp

open Asm

/-! ### Operands -/

namespace Asm

/-- The number of a register. -/
def Operand.register? : Operand → Option Nat
  | .reg n => some n
  | _ => none

namespace Instr

/-- The operands of an instruction, in order. -/
def operands : Instr → List Operand
  | .mov dst src => [dst, src]
  | .add dst src => [dst, src]
  | .sub dst src => [dst, src]
  | .imul dst src => [dst, src]
  | .idiv src => [src]
  | .cmp lhs rhs => [lhs, rhs]
  | .push src _ => [src]
  | _ => []

/-- The registers among the operands of an instruction. -/
def registers (i : Instr) : List Nat :=
  i.operands.filterMap Operand.register?

/-- The registers whose value an instruction depends on: all but the destination of a move. -/
def reads : Instr → List Nat
  | .mov _ src => src.register?.toList
  | i => i.registers

/-- The line is a label, or control need not go on to the line behind it. -/
def isControl : Instr → Bool
  | .label _ => true
  | .je _ => true
  | .jmp _ => true
  | .call _ => true
  | .ret => true
  | _ => false

/-- The registers of an instruction are those among its operands. -/
theorem mem_registers {i : Instr} {r : Nat} : r ∈ i.registers ↔ .reg r ∈ i.operands := by
  rw [registers, List.mem_filterMap]
  constructor
  · rintro ⟨o, ho, hr⟩
    cases o <;> simp_all [Operand.register?]
  · exact fun h => ⟨_, h, rfl⟩

private theorem registers_of_isControl {i : Instr} (h : i.isControl = true) : i.registers = [] := by
  cases i <;> first | rfl | simp [isControl] at h

private theorem mem_registers_of_mem_reads {i : Instr} {r : Nat} (h : r ∈ i.reads) :
    r ∈ i.registers := by
  cases i with
  | mov dst src =>
    rw [mem_registers]
    cases src <;> simp_all [reads, Operand.register?, operands]
  | _ => exact h

end Instr

/-! ### Windows -/

/-- The registers that may be read at a place, from `first` up to `next`, the next free one. -/
structure Window where
  first : Nat
  next : Nat
  first_le_next : first ≤ next

namespace Window

/-- The register is in the window. -/
def Has (w : Window) (r : Nat) : Prop :=
  w.first ≤ r ∧ r < w.next

/-- The window in which some more registers have been defined. -/
def ahead (w : Window) (count : Nat) : Window :=
  ⟨w.first, w.next + count, Nat.le_add_right_of_le w.first_le_next⟩

/-- The empty window in front of the next register. -/
def close (w : Window) : Window :=
  ⟨w.next, w.next, Nat.le_refl _⟩

/-- The window in front of a program. -/
def start : Window :=
  ⟨0, 0, Nat.le_refl 0⟩

/-- **One line and the windows around it.** -/
inductive Step : Window → Instr → Window → Prop
  /-- The next register takes a value that can be read. -/
  | define {w : Window} {src : Operand} (h : ∀ r, src = .reg r → w.Has r) :
      Step w (.mov (.reg w.next) src) (w.ahead 1)
  | use {w : Window} {i : Instr} (hi : i.isControl = false) (h : ∀ r ∈ i.registers, w.Has r) :
      Step w i w
  | control {w : Window} {i : Instr} (hi : i.isControl = true) : Step w i w.close

/-- The lines of a piece of code and the windows around it. -/
inductive Steps : Window → List Instr → Window → Prop
  | nil {w : Window} : Steps w [] w
  | cons {w w₁ w' : Window} {i : Instr} {code : List Instr} (h : Step w i w₁)
      (hcode : Steps w₁ code w') : Steps w (i :: code) w'

variable {w w₁ w' : Window} {i : Instr} {code first second : List Instr} {r : Nat}

private theorem Has.ahead (h : w.Has r) (count : Nat) : (w.ahead count).Has r :=
  ⟨h.1, Nat.lt_add_right count h.2⟩

private theorem ahead_ahead (w : Window) (m n : Nat) : (w.ahead m).ahead n = w.ahead (m + n) := by
  simp only [Window.ahead, Nat.add_assoc]

/-- What a line uses is in the window in front of it or is the register that it defines. -/
theorem Step.bounds (h : Step w i w') :
    w.first ≤ w'.first ∧ w.next ≤ w'.next ∧ ∀ r ∈ i.registers, w.first ≤ r ∧ r < w'.next := by
  have hw := w.first_le_next
  cases h with
  | @define src hsrc =>
    refine ⟨Nat.le_refl _, Nat.le_add_right _ 1, fun r hr => ?_⟩
    rcases List.mem_pair.mp (Instr.mem_registers.mp hr) with hr | hr
    · obtain rfl : r = w.next := by simpa using hr
      exact ⟨hw, Nat.lt_succ_self _⟩
    · exact (hsrc r hr.symm).ahead 1
  | use hi h => exact ⟨Nat.le_refl _, Nat.le_refl _, h⟩
  | control hi => exact ⟨hw, Nat.le_refl _, by simp [Instr.registers_of_isControl hi]⟩

namespace Steps

private theorem append (hfirst : Steps w first w₁) (hsecond : Steps w₁ second w') :
    Steps w (first ++ second) w' := by
  induction hfirst with
  | nil => exact hsecond
  | cons h _ ih => exact .cons h (ih hsecond)

private theorem split (h : Steps w (first ++ second) w') :
    ∃ w₁, Steps w first w₁ ∧ Steps w₁ second w' := by
  induction first generalizing w with
  | nil => exact ⟨w, .nil, h⟩
  | cons i rest ih =>
    cases h with
    | cons hi hcode =>
      obtain ⟨w₁, hrest, hsecond⟩ := ih hcode
      exact ⟨w₁, .cons hi hrest, hsecond⟩

/-- Lines that use registers of the window leave it as it is. -/
theorem of_uses (h : ∀ i ∈ code, i.isControl = false ∧ ∀ r ∈ i.registers, w.Has r) :
    Steps w code w := by
  induction code with
  | nil => exact .nil
  | cons i rest ih =>
    obtain ⟨hi, hrest⟩ := List.forall_mem_cons.mp h
    exact .cons (.use hi.1 hi.2) (ih hrest)

private theorem bounds (h : Steps w code w') :
    w.first ≤ w'.first ∧ w.next ≤ w'.next ∧
      ∀ i ∈ code, ∀ r ∈ i.registers, w.first ≤ r ∧ r < w'.next := by
  induction h with
  | nil => simp
  | cons h _ ih =>
    obtain ⟨hfirst, hnext, hregisters⟩ := h.bounds
    obtain ⟨hfirst', hnext', hregisters'⟩ := ih
    refine ⟨Nat.le_trans hfirst hfirst', Nat.le_trans hnext hnext',
      List.forall_mem_cons.mpr ⟨fun r hr => ?_, fun j hj r hr => ?_⟩⟩
    · exact ⟨(hregisters r hr).1, Nat.lt_of_lt_of_le (hregisters r hr).2 hnext'⟩
    · exact ⟨Nat.le_trans hfirst (hregisters' j hj r hr).1, (hregisters' j hj r hr).2⟩

/-- **The definition of a register** divides the code: in front of it only smaller registers are
used, and it reads one of them at most. -/
theorem exists_definition (h : Steps w code w') (hr : w.next ≤ r) (hr' : r < w'.next) :
    ∃ before src after, code = before ++ .mov (.reg r) src :: after ∧
      (∃ w₁ : Window, Steps w before w₁ ∧ w₁.next = r) ∧ ∀ s, src = .reg s → s < r := by
  induction h with
  | nil => omega
  | @cons w w₁ w' i code hi hcode ih =>
    by_cases hdefined : r < w₁.next
    · -- no register up to the next one is defined by any other kind of line
      cases hi with
      | @define src hsrc =>
        obtain rfl : r = w.next := by
          have : r < w.next + 1 := hdefined
          omega
        exact ⟨[], src, code, rfl, ⟨w, .nil, rfl⟩, fun s hs => (hsrc s hs).2⟩
      | use => omega
      | control => exact absurd hdefined (Nat.not_lt.mpr hr)
    · obtain ⟨before, src, after, rfl, ⟨w₂, hbefore, hw₂⟩, hsrc⟩ := ih (Nat.not_lt.mp hdefined) hr'
      exact ⟨i :: before, src, after, rfl, ⟨w₂, .cons hi hbefore, hw₂⟩, hsrc⟩

/-- No register is used on both sides of a line that closes the window. -/
theorem not_both (h : Steps w (first ++ i :: second) w') (hi : i.isControl = true)
    (hfirst : ∃ j ∈ first, r ∈ j.registers) (hsecond : ∃ j ∈ second, r ∈ j.registers) : False := by
  obtain ⟨w₁, hsteps, hrest⟩ := h.split
  obtain ⟨j, hj, hr⟩ := hfirst
  obtain ⟨k, hk, hr'⟩ := hsecond
  have hlt := (hsteps.bounds.2.2 j hj r hr).2
  cases hrest with
  | cons hstep hsecond =>
    have hge := (hsecond.bounds.2.2 k hk r hr').1
    cases hstep with
    | define => cases hi
    | use hi' => simp [hi] at hi'
    | control => exact absurd hlt (Nat.not_lt.mpr hge)

end Steps

end Window

end Asm

/-! ### The windows of generated code -/

namespace Expr

/-- The operand of an expression is not a register but one of its own. -/
theorem operand_eq_reg {e : Expr} {reg r : Nat} (h : e.operand reg = .reg r) :
    reg ≤ r ∧ r < reg + e.registers := by
  induction e generalizing reg with
  | const value =>
    obtain rfl : reg = r := by simpa [operand] using h
    exact ⟨Nat.le_refl _, Nat.lt_succ_self _⟩
  | var name type => cases h
  | arith op type lhs rhs =>
    obtain rfl : reg + lhs.registers + rhs.registers = r := by simpa [operand] using h
    simp only [registers]
    omega
  | compare op lhs rhs ihl =>
    have hl := ihl h
    simp only [registers]
    omega

/-- The operand of an expression is in the window behind its code. -/
theorem has_operand {e : Expr} {w : Window} {r : Nat} (h : e.operand w.next = .reg r) :
    (w.ahead e.registers).Has r :=
  ⟨Nat.le_trans w.first_le_next (operand_eq_reg h).1, (operand_eq_reg h).2⟩

/-- An operator defines its result from operands in the window. -/
theorem steps_arithCode (op : ArithOp) {lhs rhs : Operand} {w : Window}
    (hl : ∀ r, lhs = .reg r → w.Has r) (hr : ∀ r, rhs = .reg r → w.Has r) :
    Window.Steps w (arithCode op lhs rhs (.reg w.next)) (w.ahead 1) := by
  refine .cons (.define hl) (.of_uses fun i hi => ?_)
  have hresult : (w.ahead 1).Has w.next := ⟨w.first_le_next, Nat.lt_succ_self _⟩
  have hl' : ∀ r, lhs = .reg r → (w.ahead 1).Has r := fun r h => (hl r h).ahead 1
  have hr' : ∀ r, rhs = .reg r → (w.ahead 1).Has r := fun r h => (hr r h).ahead 1
  simp only [Instr.mem_registers]
  cases op <;> simp at hi <;> grind [Instr.operands, Instr.isControl]

/-- **The code of an expression** defines as many registers as it has, and closes no window. -/
theorem steps_code (e : Expr) (w : Window) :
    Window.Steps w (e.code w.next) (w.ahead e.registers) := by
  induction e generalizing w with
  | const value => exact .cons (.define (by simp)) .nil
  | var name type => exact .nil
  | arith op type lhs rhs ihl ihr =>
    have hsides := (ihl w).append (ihr (w.ahead lhs.registers))
    have hresult := steps_arithCode op (w := (w.ahead lhs.registers).ahead rhs.registers)
      (fun _ h => (has_operand h).ahead rhs.registers) (fun _ h => has_operand h)
    rw [registers, ← Window.ahead_ahead, ← Window.ahead_ahead]
    exact hsides.append hresult
  | compare op lhs rhs ihl ihr =>
    have hsides := (ihl w).append (ihr (w.ahead lhs.registers))
    rw [registers, ← Window.ahead_ahead]
    refine hsides.append (.cons (.use rfl fun r hr => ?_) .nil)
    rcases List.mem_pair.mp (Instr.mem_registers.mp hr) with hr | hr
    · exact (has_operand hr.symm).ahead rhs.registers
    · exact has_operand hr.symm

/-- A condition closes the window. -/
theorem steps_conditionCode (e : Expr) (w : Window) (ifZero : String) :
    Window.Steps w (e.conditionCode w.next ifZero) (w.ahead e.registers).close := by
  refine (e.steps_code w).append (.cons (.use rfl fun r hr => ?_) (.cons (.control rfl) .nil))
  rcases List.mem_pair.mp (Instr.mem_registers.mp hr) with hr | hr
  · exact has_operand hr.symm
  · cases hr

/-- The value of an expression is moved away behind its code. -/
theorem steps_move (e : Expr) (w : Window) {dst : Operand} (hdst : dst.register? = none) :
    Window.Steps w (e.code w.next ++ [.mov dst (e.operand w.next)]) (w.ahead e.registers) := by
  refine (e.steps_code w).append (.cons (.use rfl fun r hr => ?_) .nil)
  rcases List.mem_pair.mp (Instr.mem_registers.mp hr) with rfl | hr
  · cases hdst
  · exact has_operand hr.symm

end Expr

namespace Args

private theorem steps_code (args : List Expr) (w : Window) :
    Window.Steps w (code w.next args) (w.ahead (registers args)) := by
  induction args generalizing w with
  | nil => exact .nil
  | cons e rest ih =>
    rw [registers, ← Window.ahead_ahead]
    exact (e.steps_code w).append (ih (w.ahead e.registers))

/-- The operands of the arguments are in the window behind their code. -/
theorem has_operands (args : List Expr) {w : Window} {r : Nat}
    (h : .reg r ∈ operands w.next args) : (w.ahead (registers args)).Has r := by
  induction args generalizing w with
  | nil => cases h
  | cons e rest ih =>
    rw [registers, ← Window.ahead_ahead]
    rcases List.mem_cons.mp h with h | h
    · exact (Expr.has_operand h.symm).ahead (registers rest)
    · exact ih h

/-- All pushes stand behind the code of all arguments and in front of the call. -/
theorem steps_callCode (args : List Expr) (w : Window) (name : String) :
    Window.Steps w (callCode w.next name args) (w.ahead (registers args)).close := by
  refine ((steps_code args w).append (.of_uses fun i hi => ?_)).append
    (.cons (.control rfl) (.cons (.use rfl (by simp [Instr.registers, Instr.operands])) .nil))
  obtain ⟨k, hk, rfl⟩ := List.mem_mapIdx.mp hi
  refine ⟨rfl, fun r hr => has_operands args ?_⟩
  rw [List.mem_singleton.mp (Instr.mem_registers.mp hr)]
  exact List.getElem_mem hk

end Args

namespace Stmt

mutual

/-- The code of a statement keeps to the windows, and defines as many registers as it has. -/
theorem steps_code (label : Nat) : (s : Stmt) → (w : Window) → {reg : Nat} → w.next = reg →
    ∃ w', Window.Steps w (s.code reg label) w' ∧ w'.next = reg + s.registers
  | .declare _ _, w, _, rfl =>
    ⟨w, .cons (.use rfl (by simp [Instr.registers, Instr.operands])) .nil, rfl⟩
  | .declareAssign _ _ init, w, _, rfl => ⟨_, init.steps_move w rfl, rfl⟩
  | .assign _ value, w, _, rfl => ⟨_, value.steps_move w rfl, rfl⟩
  | .ifThen e body, w, _, rfl => by
    obtain ⟨w₁, hbody, hw₁⟩ := steps_codeAll (label + 1) body (w.ahead e.registers).close rfl
    refine ⟨w₁.close, ((e.steps_conditionCode w _).append hbody).append
      (.cons (.control rfl) .nil), ?_⟩
    exact hw₁.trans (Nat.add_assoc ..)
  | .ifElse e body otherwise, w, _, rfl => by
    obtain ⟨w₁, hbody, hw₁⟩ := steps_codeAll (label + 2) body (w.ahead e.registers).close rfl
    obtain ⟨w₂, hotherwise, hw₂⟩ :=
      steps_codeAll (label + 2 + labelsAll body) otherwise w₁.close.close hw₁
    refine ⟨w₂.close, ((((e.steps_conditionCode w _).append hbody).append
      (.cons (.control rfl) (.cons (.control rfl) .nil))).append hotherwise).append
      (.cons (.control rfl) .nil), ?_⟩
    change w₂.next = _
    rw [hw₂, registers]
    simp only [Window.ahead, Window.close]
    omega
  | .loop e body, w, _, rfl => by
    obtain ⟨w₁, hbody, hw₁⟩ :=
      steps_codeAll (label + 2) body (w.close.ahead e.registers).close rfl
    refine ⟨w₁.close.close, ((Window.Steps.cons (.control rfl)
      (e.steps_conditionCode w.close _)).append hbody).append
      (.cons (.control rfl) (.cons (.control rfl) .nil)), ?_⟩
    exact hw₁.trans (Nat.add_assoc ..)
  | .block body, w, _, hw => steps_codeAll label body w hw
  | .function name _ _ body, w, _, rfl => by
    obtain ⟨w₁, hbody, hw₁⟩ := steps_codeAll label body w.close rfl
    refine ⟨w₁.close, (Window.Steps.append (.cons (.use rfl ?_) (.cons (.control rfl) .nil))
      hbody).append (.cons (.control rfl) .nil), hw₁⟩
    simp [Instr.registers, Instr.operands]
  | .call name args, w, _, rfl => ⟨_, Args.steps_callCode args w name, rfl⟩
  | .ret value, w, _, rfl => by
    have hmove : Window.Steps w (value.code w.next ++ [.mov .eax (value.operand w.next)])
        (w.ahead value.registers) := value.steps_move w rfl
    have hret : Window.Steps (w.ahead value.registers) [.ret] (w.ahead value.registers).close :=
      .cons (.control rfl) .nil
    have hall := hmove.append hret
    rw [List.append_assoc] at hall
    exact ⟨_, hall, rfl⟩

/-- The same for several statements. -/
theorem steps_codeAll (label : Nat) : (ss : List Stmt) → (w : Window) → {reg : Nat} →
    w.next = reg →
    ∃ w', Window.Steps w (codeAll reg label ss) w' ∧ w'.next = reg + registersAll ss
  | [], w, _, hw => ⟨w, .nil, hw⟩
  | s :: rest, w, _, hw => by
    obtain ⟨w₁, hs, hw₁⟩ := steps_code label s w hw
    obtain ⟨w', hrest, hw'⟩ := steps_codeAll (label + s.labels) rest w₁ hw₁
    exact ⟨w', hs.append hrest, hw'.trans (Nat.add_assoc ..)⟩

end

end Stmt

/-! ### Paths -/

namespace Asm

/-- **One step of control**: from the position of a line to one where control can go on. A call goes
to the function or, in a coarser view, behind the call at once; a return goes behind some call. -/
inductive Flows (text : List Instr) : Nat → Nat → Prop
  | next {i : Nat} {instr : Instr} (h : text[i]? = some instr) (hjmp : ∀ name, instr ≠ .jmp name)
      (hret : instr ≠ .ret) : Flows text i (i + 1)
  | jump {i j : Nat} {instr : Instr} {name : String} (h : text[i]? = some instr)
      (htarget : instr.target? = some name) (hlabel : text[j]? = some (.label name)) :
      Flows text i j
  | call {i j : Nat} {name : String} (h : text[i]? = some (.call name))
      (hlabel : text[j]? = some (.label name)) : Flows text i j
  | ret {i k : Nat} {name : String} (h : text[i]? = some .ret)
      (hcall : text[k]? = some (.call name)) : Flows text i (k + 1)

/-- The positions `path 0`, …, `path n` follow each other as control can go. -/
def IsPath (text : List Instr) (path : Nat → Nat) (n : Nat) : Prop :=
  ∀ t < n, Flows text (path t) (path (t + 1))

/-- The line at a position uses the register. -/
def UsesAt (text : List Instr) (r i : Nat) : Prop :=
  ∃ instr, text[i]? = some instr ∧ r ∈ instr.registers

/-- The line at a position reads the register. -/
def ReadsAt (text : List Instr) (r i : Nat) : Prop :=
  ∃ instr, text[i]? = some instr ∧ r ∈ instr.reads

/-- The line at a position defines the register. -/
def DefinesAt (text : List Instr) (r i : Nat) : Prop :=
  ∃ src, src ≠ .reg r ∧ text[i]? = some (.mov (.reg r) src)

/-- **A live register**: on some path from the position it is read without having been defined on
the way. -/
def Live (text : List Instr) (r i : Nat) : Prop :=
  ∃ path n, path 0 = i ∧ IsPath text path n ∧ ReadsAt text r (path n) ∧
    ∀ t < n, ¬ DefinesAt text r (path t)

/-- The position of the first line that uses a register. -/
def firstUse (text : List Instr) (r : Nat) : Nat :=
  text.findIdx fun i => decide (r ∈ i.registers)

variable {text : List Instr} {r i j k : Nat}

/-- Control arrives at a line from the line in front of it, unless the line is a label or stands
behind a call. -/
theorem Flows.eq_succ (h : Flows text i (j + 1))
    (hlabel : ∀ name, text[j + 1]? ≠ some (.label name))
    (hcall : ∀ name, text[j]? ≠ some (.call name)) : i = j := by
  generalize hj : j + 1 = j' at h
  cases h with
  | next => omega
  | jump _ _ hname => exact absurd (hj ▸ hname) (hlabel _)
  | call _ hname => exact absurd (hj ▸ hname) (hlabel _)
  | ret _ hname =>
    obtain rfl : j = _ := Nat.succ.inj hj
    exact absurd hname (hcall _)

/-- The machine goes where control can go. -/
theorem Flows.of_step {V : Type} {I : Interpretation V} {c c' : Config V}
    (h : step I text c = some c') : Flows text c.pc c'.pc := by
  have hjump {instr : Instr} {name : String} (hi : text[c.pc]? = some instr)
      (htarget : instr.target? = some name) (h : c.jump text name = some c') :
      Flows text c.pc c'.pc := by
    obtain ⟨pc, hpc, rfl⟩ := Option.map_eq_some_iff.mp h
    obtain ⟨hlt, hlabel, -⟩ := List.idxOf?_eq_some_iff.mp hpc
    exact .jump hi htarget (List.getElem?_eq_some_iff.mpr ⟨hlt, hlabel⟩)
  rw [step] at h
  split at h
  · cases h
  · exact hjump ‹_› rfl h
  · rename_i target hi
    split at h
    · exact hjump hi rfl h
    · obtain rfl := Option.some.inj h
      exact .next hi (by simp) (by simp)
  · rename_i instr hjmp hje hi
    obtain ⟨m, hm, rfl⟩ := Option.map_eq_some_iff.mp h
    refine .next hi hjmp ?_
    rintro rfl
    cases hm

private theorem firstUse_append {before after : List Instr} {instr : Instr}
    (hbefore : ∀ i ∈ before, r ∉ i.registers) (hinstr : r ∈ instr.registers) :
    firstUse (before ++ instr :: after) r = before.length := by
  rw [firstUse, List.findIdx_append, if_neg (by simpa using hbefore), List.findIdx_cons]
  simp [hinstr]

private theorem firstUse_le (h : UsesAt text r i) : firstUse text r ≤ i := by
  obtain ⟨instr, hi, hr⟩ := h
  obtain ⟨hi, rfl⟩ := List.getElem?_eq_some_iff.mp hi
  by_contra hlt
  have hnot := List.not_of_lt_findIdx (Nat.not_le.mp hlt)
  exact absurd hr (of_decide_eq_false hnot)

private theorem UsesAt.lt_length (h : UsesAt text r i) : i < text.length := by
  obtain ⟨instr, hi, -⟩ := h
  exact (List.getElem?_eq_some_iff.mp hi).1

private theorem UsesAt.append_right (h : UsesAt text r i) (after : List Instr) :
    UsesAt (text ++ after) r i := by
  have hlt := h.lt_length
  obtain ⟨instr, hi, hr⟩ := h
  exact ⟨instr, by rw [List.getElem?_append_left hlt, hi], hr⟩

private theorem ReadsAt.usesAt (h : ReadsAt text r i) : UsesAt text r i := by
  obtain ⟨instr, hi, hr⟩ := h
  exact ⟨instr, hi, Instr.mem_registers_of_mem_reads hr⟩

private theorem DefinesAt.usesAt (h : DefinesAt text r i) : UsesAt text r i := by
  obtain ⟨src, -, hi⟩ := h
  exact ⟨_, hi, by simp [Instr.mem_registers, Instr.operands]⟩

/-- A definition does not read what it defines. -/
theorem DefinesAt.not_readsAt (h : DefinesAt text r i) : ¬ ReadsAt text r i := by
  obtain ⟨src, hsrc, hi⟩ := h
  rintro ⟨instr, hi', hr⟩
  obtain rfl : _ = instr := Option.some.inj (hi.symm.trans hi')
  cases src <;> simp_all [Instr.reads, Operand.register?]

/-- **A straight stretch of code** can be entered at its beginning only. -/
theorem IsPath.exists_eq {path : Nat → Nat} {n : Nat} (hpath : IsPath text path n)
    (hstraight : ∀ k instr, i ≤ k → k ≤ j → text[k]? = some instr → instr.isControl = false)
    (hi : i < path n) (hj : path n ≤ j) (hstart : path 0 ≤ i ∨ j < path 0) :
    ∃ t < n, path t = i := by
  induction n with
  | zero => omega
  | succ n ih =>
    obtain ⟨k, hk⟩ : ∃ k, path (n + 1) = k + 1 := ⟨path (n + 1) - 1, by omega⟩
    have hlabel : ∀ name, text[k + 1]? ≠ some (.label name) := fun name hlabel => by
      simpa [Instr.isControl] using hstraight (k + 1) _ (by omega) (by omega) hlabel
    have hcall : ∀ name, text[k]? ≠ some (.call name) := fun name hcall => by
      simpa [Instr.isControl] using hstraight k _ (by omega) (by omega) hcall
    -- the stretch goes on to the front, so the path came from the line before
    have hstep : Flows text (path n) (k + 1) := hk ▸ hpath n (Nat.lt_succ_self n)
    have hprevious : path n = k := hstep.eq_succ hlabel hcall
    by_cases hfirst : path n = i
    · exact ⟨n, Nat.lt_succ_self n, hfirst⟩
    · obtain ⟨t, ht, heq⟩ := ih (fun t ht => hpath t (Nat.lt_succ_of_lt ht)) (by omega) (by omega)
      exact ⟨t, Nat.lt_succ_of_lt ht, heq⟩

/-- What is live behind a line that defines nothing is live in front of it. -/
theorem Live.of_flows (h : Live text r j) (hflows : Flows text i j) (hi : ¬ DefinesAt text r i) :
    Live text r i := by
  obtain ⟨path, n, rfl, hpath, hread, hnone⟩ := h
  refine ⟨fun t => t.casesOn i path, n + 1, rfl, fun t ht => ?_, hread, fun t ht => ?_⟩
  · cases t with
    | zero => exact hflows
    | succ t => exact hpath t (Nat.lt_of_succ_lt_succ ht)
  · cases t with
    | zero => exact hi
    | succ t => exact hnone t (Nat.lt_of_succ_lt_succ ht)

namespace Window.Steps

variable {w' : Window} {instr : Instr} {path : Nat → Nat} {n : Nat}

/-- The definition of a register is the first line that uses it. -/
theorem exists_firstUse (h : Window.Steps .start text w') (hr : r < w'.next) :
    ∃ before src after, text = before ++ .mov (.reg r) src :: after ∧
      firstUse text r = before.length ∧ src ≠ .reg r ∧
      ∃ w₁ : Window, Window.Steps .start before w₁ ∧ w₁.next = r := by
  obtain ⟨before, src, after, rfl, ⟨w₁, hbefore, hw₁⟩, hsrc⟩ :=
    h.exists_definition (Nat.zero_le r) hr
  have hsmaller : ∀ i ∈ before, r ∉ i.registers := fun i hi hmem =>
    absurd (hbefore.bounds.2.2 i hi r hmem).2 (Nat.not_lt.mpr (Nat.le_of_eq hw₁))
  refine ⟨before, src, after, rfl, ?_, fun hreg => Nat.lt_irrefl r (hsrc r hreg), w₁, hbefore, hw₁⟩
  exact firstUse_append hsmaller (by simp [Instr.mem_registers, Instr.operands])

private theorem definesAt_firstUse (h : Window.Steps .start text w') (hr : r < w'.next) :
    DefinesAt text r (firstUse text r) := by
  obtain ⟨before, src, after, rfl, hfirst, hsrc, -⟩ := h.exists_firstUse hr
  exact ⟨src, hsrc, by simp [hfirst]⟩

/-- The code that fills a window from the start uses the registers in front of its end. -/
theorem exists_usesAt_iff (h : Window.Steps .start text w') :
    (∃ i, UsesAt text r i) ↔ r < w'.next := by
  constructor
  · rintro ⟨i, instr, hi, hr⟩
    exact (h.bounds.2.2 instr (List.mem_of_getElem? hi) r hr).2
  · exact fun hr => ⟨_, (h.definesAt_firstUse hr).usesAt⟩

/-- Registers are first used in their order. -/
theorem firstUse_lt_firstUse (h : Window.Steps .start text w') {s : Nat} (hrs : r < s)
    (hs : s < w'.next) : firstUse text r < firstUse text s := by
  obtain ⟨before, src, after, rfl, hfirst, -, w₁, hbefore, rfl⟩ := h.exists_firstUse hs
  -- in front of the definition of `s` the smaller register is in use already
  have huse := (hbefore.definesAt_firstUse hrs).usesAt
  rw [hfirst]
  exact Nat.lt_of_le_of_lt (firstUse_le (huse.append_right _)) huse.lt_length

/-- Between two uses of a register control goes from line to line. -/
theorem isControl_eq_false (h : Window.Steps .start text w') (hi : UsesAt text r i)
    (hj : UsesAt text r j) (hik : i ≤ k) (hkj : k ≤ j) (hk : text[k]? = some instr) :
    instr.isControl = false := by
  obtain ⟨first, hi, hr⟩ := hi
  obtain ⟨last, hj, hr'⟩ := hj
  by_contra hnot
  have hcontrol : instr.isControl = true := by simpa using hnot
  have hnot : r ∉ instr.registers := by simp [Instr.registers_of_isControl hcontrol]
  obtain ⟨hk, rfl⟩ := List.getElem?_eq_some_iff.mp hk
  have hik : i < k := by
    rcases Nat.lt_or_eq_of_le hik with hlt | rfl
    · exact hlt
    · simp_all
  have hkj : k < j := by
    rcases Nat.lt_or_eq_of_le hkj with hlt | rfl
    · exact hlt
    · simp_all
  have hsplit : text.take k ++ text[k] :: text.drop (k + 1) = text := by simp
  rw [← hsplit] at h
  refine h.not_both hcontrol ⟨first, ?_, hr⟩ ⟨last, ?_, hr'⟩
  · exact List.mem_of_getElem? ((List.getElem?_take_of_lt hik).trans hi)
  · refine List.mem_of_getElem? (i := j - (k + 1)) ?_
    rw [List.getElem?_drop, Nat.add_sub_cancel' hkj, hj]

/-- **A path that arrives at a read of a register** has gone through its definition, unless it began
between the two. -/
theorem exists_definition_on_path (h : Window.Steps .start text w') (hpath : IsPath text path n)
    (hread : ReadsAt text r (path n)) (hstart : path 0 ≤ firstUse text r ∨ path n < path 0) :
    ∃ t < n, DefinesAt text r (path t) := by
  have hdefined := h.definesAt_firstUse (h.exists_usesAt_iff.mp ⟨_, hread.usesAt⟩)
  have hlt : firstUse text r < path n := by
    refine Nat.lt_of_le_of_ne (firstUse_le hread.usesAt) fun heq => ?_
    exact hdefined.not_readsAt (heq ▸ hread)
  obtain ⟨t, ht, heq⟩ := hpath.exists_eq
    (fun k instr => h.isControl_eq_false hdefined.usesAt hread.usesAt) hlt (Nat.le_refl _) hstart
  exact ⟨t, ht, heq ▸ hdefined⟩

/-- No register is live at a label, a jump, a call or a return. -/
theorem not_live (h : Window.Steps .start text w') (hi : text[i]? = some instr)
    (hcontrol : instr.isControl = true) : ¬ Live text r i := by
  rintro ⟨path, n, rfl, hpath, hread, hnone⟩
  by_cases hstart : path 0 ≤ firstUse text r ∨ path n < path 0
  · obtain ⟨t, ht, hdefined⟩ := h.exists_definition_on_path hpath hread hstart
    exact hnone t ht hdefined
  · have hdefined := h.definesAt_firstUse (h.exists_usesAt_iff.mp ⟨_, hread.usesAt⟩)
    have hstraight := h.isControl_eq_false hdefined.usesAt hread.usesAt (by omega) (by omega) hi
    simp [hcontrol] at hstraight

end Window.Steps

end Asm

namespace Program

/-- The code of a program keeps to the windows from the start. -/
theorem steps_assembly (p : Program) :
    ∃ w, Window.Steps .start p.assembly.text w ∧ w.next = p.registerCount := by
  obtain ⟨w, hsteps, hw⟩ := Stmt.steps_codeAll 0 p.body .start rfl
  exact ⟨w, hsteps, by rw [hw, p.registersAll_body, Window.start, Nat.zero_add]⟩

/-- **Registers.** The code of a program uses the registers that its constants and its arithmetic
operators need, and no others. They are first used in their order, each where it is defined. No
label, jump, call or return stands between two uses of a register. So every path of control from the
beginning has passed the definition of a register when it arrives at a read of it, and no register
is live in front of a label, a jump, a call or a return, or behind one. The steps of the machine are
among those of control. -/
theorem registers_defined_before_use (p : Program) :
    (∀ r, (∃ i, UsesAt p.assembly.text r i) ↔ r < p.registerCount) ∧
      (∀ r s, r < s → s < p.registerCount →
        firstUse p.assembly.text r < firstUse p.assembly.text s) ∧
      (∀ r < p.registerCount, DefinesAt p.assembly.text r (firstUse p.assembly.text r)) ∧
      (∀ (r i j k : Nat) (instr : Instr), UsesAt p.assembly.text r i →
        UsesAt p.assembly.text r j → i ≤ k → k ≤ j → p.assembly.text[k]? = some instr →
        instr.isControl = false) ∧
      (∀ (r : Nat) (path : Nat → Nat) (n : Nat), path 0 = 0 → IsPath p.assembly.text path n →
        ReadsAt p.assembly.text r (path n) → ∃ t < n, DefinesAt p.assembly.text r (path t)) ∧
      (∀ (r i : Nat) (instr : Instr), p.assembly.text[i]? = some instr → instr.isControl = true →
        ¬ Live p.assembly.text r i ∧
          ∀ j, Flows p.assembly.text i j → ¬ Live p.assembly.text r j) ∧
      ∀ (V : Type) (I : Interpretation V) (c c' : Config V),
        step I p.assembly.text c = some c' → Flows p.assembly.text c.pc c'.pc := by
  obtain ⟨w, hsteps, hw⟩ := p.steps_assembly
  rw [← hw]
  refine ⟨fun r => hsteps.exists_usesAt_iff, fun r s => hsteps.firstUse_lt_firstUse,
    fun r => hsteps.definesAt_firstUse, fun r i j k instr => hsteps.isControl_eq_false,
    fun r path n h0 hpath hread => ?_, fun r i instr hi hcontrol => ?_,
    fun V I c c' => Flows.of_step⟩
  · exact hsteps.exists_definition_on_path hpath hread (.inl (by omega))
  · have hnot : ¬ Live p.assembly.text r i := hsteps.not_live hi hcontrol
    refine ⟨hnot, fun j hflows hlive => hnot (hlive.of_flows hflows ?_)⟩
    rintro ⟨src, -, hmov⟩
    obtain rfl := Option.some.inj (hi.symm.trans hmov)
    cases hcontrol

/-- Halves a number while it is greater than two, and then calls a function with two values. -/
def halveAndCall : Program :=
  ⟨[.loop (.compare .greater (.var "n" .int) (.const (.int 2)))
      [.assign "n" (.arith .div .int (.var "n" .int) (.const (.int 2)))],
    .call "f" [.const (.int 1), .arith .add .int (.var "n" .int) (.const (.int 4))]]⟩

/-- The path that leaves the loop at once arrives at the first push by way of a jump. -/
theorem halveAndCall_registers_defined :
    halveAndCall.registerCount = 6 ∧
      halveAndCall.assembly.text[4]? = some (.je "L1") ∧
      halveAndCall.assembly.text[18]? = some (.push (.reg 3) 0) ∧
      IsPath halveAndCall.assembly.text (fun t => if t ≤ 4 then t else t + 8) 10 ∧
      (∃ t < 10, DefinesAt halveAndCall.assembly.text 3 (if t ≤ 4 then t else t + 8)) ∧
      ∀ r, ¬ Live halveAndCall.assembly.text r 4 := by
  obtain ⟨-, -, -, -, hpath, hlive, -⟩ := registers_defined_before_use halveAndCall
  have hje : halveAndCall.assembly.text[4]? = some (.je "L1") := rfl
  have hleave : IsPath halveAndCall.assembly.text (fun t => if t ≤ 4 then t else t + 8) 10 := by
    intro t ht
    have hcases :
        t = 4 ∨ t = 0 ∨ t = 1 ∨ t = 2 ∨ t = 3 ∨ t = 5 ∨ t = 6 ∨ t = 7 ∨ t = 8 ∨ t = 9 := by
      omega
    rcases hcases with rfl | hcases
    · exact .jump hje rfl rfl
    · rcases hcases with rfl | rfl | rfl | rfl | rfl | rfl | rfl | rfl | rfl <;>
        exact .next rfl nofun nofun
  exact ⟨rfl, hje, rfl, hleave, hpath 3 _ 10 rfl hleave ⟨_, rfl, by decide⟩,
    fun r => (hlive r 4 _ hje rfl).1⟩

end Program

end TinyImp
