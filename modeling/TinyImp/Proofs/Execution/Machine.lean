import TinyImp.Asm
import TinyImp.Proofs.Execution.Meaning

/-!
# The machine

A machine that runs the instructions of an assembly program, over the values of an
`Interpretation`. Its memory holds the variables, an unlimited supply of registers, the
accumulator, the double-width dividend that `cdq` makes of the accumulator, and the outcome of
the last comparison. A configuration adds the position of the next instruction.

`Asm.step` is **one step**, and `Asm.steps` any number of them. A jump goes to the position of
the label that it names. Where an operator fails, a label is missing or an instruction has no
meaning here, there is no next configuration: the machine is stuck. It *halts* when it reaches
the end of the text.

Since a step is a function, there is one run only from each configuration (`halts_of_reaches`).
The machine runs through a piece of code without jumps as if it had no position at all:
`reaches_straight` is the forward form of this, and `effects_of_halts` says that a machine which
halts has got through the piece.
-/

namespace TinyImp.Asm

variable {V : Type}

/-- What a machine holds. -/
structure Memory (V : Type) where
  /-- The memory cells of the variables. -/
  store : Store V
  reg : Nat → V
  eax : V
  /-- The accumulator widened by `cdq`; gone as soon as the accumulator changes. -/
  dividend : Option V
  /-- The two sides of the last comparison were equal. -/
  equal : Bool

/-- A machine between two steps: the position of the next instruction, and what it holds. -/
structure Config (V : Type) where
  pc : Nat
  memory : Memory V

namespace Memory

/-- The value of an operand. -/
def read (I : Interpretation V) (m : Memory V) : Operand → V
  | .reg n => m.reg n
  | .data name => m.store name
  | .imm value => I.const value
  | .eax => m.eax

/-- Puts a value into a register. -/
def setReg (m : Memory V) (n : Nat) (v : V) : Memory V :=
  { m with reg := Function.update m.reg n v }

/-- Gives a value to a variable. -/
def setVariable (m : Memory V) (name : String) (v : V) : Memory V :=
  { m with store := Function.update m.store name v }

/-- Puts a value into the accumulator. -/
def setEax (m : Memory V) (v : V) : Memory V :=
  { m with eax := v, dividend := none }

/-- Puts a value into an operand; a constant takes none. -/
def write (m : Memory V) (dst : Operand) (v : V) : Option (Memory V) :=
  match dst with
  | .reg n => some (m.setReg n v)
  | .data name => some (m.setVariable name v)
  | .imm _ => none
  | .eax => some (m.setEax v)

/-- Compares two operands. -/
def compare (I : Interpretation V) (m : Memory V) (lhs rhs : Operand) : Memory V :=
  { m with equal := I.equal (m.read I lhs) (m.read I rhs) }

/-- A comparison changes no operand. -/
@[simp]
theorem read_compare (I : Interpretation V) (m : Memory V) (lhs rhs o : Operand) :
    (m.compare I lhs rhs).read I o = m.read I o := by
  cases o <;> rfl

/-- Combines the destination with the source by an operator. -/
def combine (I : Interpretation V) (m : Memory V) (op : ArithOp) (dst src : Operand) :
    Option (Memory V) :=
  (I.arith op (m.read I dst) (m.read I src)).bind (m.write dst)

/-- What an instruction that is not a jump does to the memory. The instructions that deal with
functions have no effect defined. -/
def effect (I : Interpretation V) (m : Memory V) : Instr → Option (Memory V)
  | .comment _ => some m
  | .label _ => some m
  | .mov dst src => m.write dst (m.read I src)
  | .add dst src => m.combine I .add dst src
  | .sub dst src => m.combine I .sub dst src
  | .imul dst src => m.combine I .mul dst src
  | .cdq => some { m with dividend := some m.eax }
  | .idiv src =>
    m.dividend.bind fun d => (I.arith .div d (m.read I src)).bind (m.write .eax)
  | .cmp lhs rhs => some (m.compare I lhs rhs)
  | _ => none

/-- What a piece of code without jumps does to the memory. -/
def effects (I : Interpretation V) (m : Memory V) (code : List Instr) : Option (Memory V) :=
  code.foldlM (effect I) m

@[simp]
theorem effects_nil (I : Interpretation V) (m : Memory V) : m.effects I [] = some m := rfl

/-- The effects of instructions follow one after the other. -/
@[simp]
theorem effects_cons (I : Interpretation V) (m : Memory V) (i : Instr) (code : List Instr) :
    m.effects I (i :: code) = (m.effect I i).bind (·.effects I code) := by
  simp only [effects, List.foldlM_cons]
  rfl

@[simp]
theorem effects_singleton (I : Interpretation V) (m : Memory V) (i : Instr) :
    m.effects I [i] = m.effect I i := by
  rw [effects_cons]
  exact Option.bind_fun_some _

/-- The effects of pieces of code follow one after the other. -/
theorem effects_append (I : Interpretation V) (m : Memory V) (first second : List Instr) :
    m.effects I (first ++ second) = (m.effects I first).bind (·.effects I second) := by
  simp only [effects, List.foldlM_append]
  rfl

end Memory

/-! ### Steps -/

/-- Goes on at the position of a label. -/
def Config.jump (text : List Instr) (c : Config V) (target : String) : Option (Config V) :=
  (text.idxOf? (.label target)).map fun pc => ⟨pc, c.memory⟩

/-- **One step** of the machine, if there is one. -/
def step (I : Interpretation V) (text : List Instr) (c : Config V) : Option (Config V) :=
  match text[c.pc]? with
  | none => none
  | some (.jmp target) => c.jump text target
  | some (.je target) =>
    if c.memory.equal then c.jump text target else some ⟨c.pc + 1, c.memory⟩
  | some i => (c.memory.effect I i).map fun m => ⟨c.pc + 1, m⟩

/-- A number of steps, one after the other. -/
def steps (I : Interpretation V) (text : List Instr) : Nat → Config V → Option (Config V)
  | 0, c => some c
  | n + 1, c => (step I text c).bind (steps I text n)

/-- The machine comes from one configuration to another. -/
def Reaches (I : Interpretation V) (text : List Instr) (c c' : Config V) : Prop :=
  ∃ n, steps I text n c = some c'

/-- The machine, started at the beginning of a text, reaches its end with the given variables. -/
def HaltsWith (I : Interpretation V) (text : List Instr) (m : Memory V) (σ' : Store V) : Prop :=
  ∃ m', Reaches I text ⟨0, m⟩ ⟨text.length, m'⟩ ∧ m'.store = σ'

section Steps

variable {I : Interpretation V} {text : List Instr}

private theorem steps_succ (n : Nat) (c : Config V) :
    steps I text (n + 1) c = (step I text c).bind (steps I text n) := rfl

/-- **Runs compose.** -/
theorem steps_add (n k : Nat) (c : Config V) :
    steps I text (n + k) c = (steps I text n c).bind (steps I text k) := by
  induction n generalizing c with
  | zero =>
    rw [Nat.zero_add]
    rfl
  | succ n ih =>
    rw [Nat.succ_add, steps_succ, steps_succ, Option.bind_assoc]
    exact congrArg _ (funext ih)

theorem Reaches.refl (c : Config V) : Reaches I text c c := ⟨0, rfl⟩

/-- What is reached from a configuration that is reached is reached. -/
theorem Reaches.trans {c c₁ c₂ : Config V} (h₁ : Reaches I text c c₁)
    (h₂ : Reaches I text c₁ c₂) : Reaches I text c c₂ := by
  obtain ⟨n, hn⟩ := h₁
  obtain ⟨k, hk⟩ := h₂
  exact ⟨n + k, by rw [steps_add, hn, Option.bind_some, hk]⟩

theorem Reaches.of_step {c c₁ : Config V} (h : step I text c = some c₁) : Reaches I text c c₁ :=
  ⟨1, by rw [steps_succ, h]; rfl⟩

/-- There is no step at the end of the text. -/
theorem step_end (m : Memory V) : step I text ⟨text.length, m⟩ = none := by
  simp [step]

/-- From the end of the text the machine comes nowhere else. -/
theorem eq_of_steps_end {n : Nat} {m : Memory V} {c : Config V}
    (h : steps I text n ⟨text.length, m⟩ = some c) : n = 0 ∧ c = ⟨text.length, m⟩ := by
  cases n with
  | zero => exact ⟨rfl, (Option.some.inj h).symm⟩
  | succ n =>
    rw [steps_succ, step_end, Option.bind_none] at h
    cases h

/-- A machine that halts and stands before an instruction makes a step, and halts after it. -/
theorem exists_step_of_halts {n pc : Nat} {m m' : Memory V} {i : Instr}
    (hi : text[pc]? = some i) (h : steps I text n ⟨pc, m⟩ = some ⟨text.length, m'⟩) :
    ∃ k c, n = k + 1 ∧ step I text ⟨pc, m⟩ = some c ∧
      steps I text k c = some ⟨text.length, m'⟩ := by
  cases n with
  | zero =>
    obtain ⟨rfl, -⟩ : pc = text.length ∧ m = m' := by simpa [steps] using h
    simp at hi
  | succ k =>
    obtain ⟨c, hc, hk⟩ := Option.bind_eq_some_iff.mp h
    exact ⟨k, c, rfl, hc, hk⟩

/-- **There is one run only**: a machine that halts does so through every configuration that it
reaches on the way, and has no more steps to go from there. -/
theorem halts_of_reaches {n : Nat} {c c₁ : Config V} {m' : Memory V}
    (h : steps I text n c = some ⟨text.length, m'⟩) (hreach : Reaches I text c c₁) :
    ∃ k ≤ n, steps I text k c₁ = some ⟨text.length, m'⟩ := by
  obtain ⟨j, hj⟩ := hreach
  rcases Nat.le_total j n with hle | hle
  · obtain ⟨k, rfl⟩ := Nat.exists_eq_add_of_le hle
    rw [steps_add, hj, Option.bind_some] at h
    exact ⟨k, Nat.le_add_left .., h⟩
  · obtain ⟨k, rfl⟩ := Nat.exists_eq_add_of_le hle
    rw [steps_add, h, Option.bind_some] at hj
    obtain ⟨-, rfl⟩ := eq_of_steps_end hj
    exact ⟨0, Nat.zero_le n, rfl⟩

/-- A machine that halts does so with one store only. -/
theorem HaltsWith.unique {m : Memory V} {σ σ' : Store V} (h : HaltsWith I text m σ)
    (h' : HaltsWith I text m σ') : σ = σ' := by
  obtain ⟨m₁, hreach, rfl⟩ := h
  obtain ⟨m₂, ⟨n, hn⟩, rfl⟩ := h'
  obtain ⟨k, -, hk⟩ := halts_of_reaches hn hreach
  cases (eq_of_steps_end hk).2
  rfl

/-- An instruction that is not a jump acts on the memory and goes on to the next one. -/
theorem step_of_not_isJump {pc : Nat} {m : Memory V} {i : Instr} (hi : text[pc]? = some i)
    (hjump : i.isJump = false) :
    step I text ⟨pc, m⟩ = (m.effect I i).map fun m' => ⟨pc + 1, m'⟩ := by
  cases i <;> simp_all [step, Instr.isJump]

end Steps

/-! ### Pieces of code -/

/-- The text holds the given code from a position on. -/
def CodeAt (text : List Instr) (pc : Nat) (code : List Instr) : Prop :=
  ∃ before after, text = before ++ code ++ after ∧ before.length = pc

namespace CodeAt

variable {text code first second : List Instr} {pc : Nat} {i : Instr}

/-- The first instruction is at the position itself. -/
theorem head (h : CodeAt text pc (i :: code)) : text[pc]? = some i := by
  obtain ⟨before, after, rfl, rfl⟩ := h
  simp

/-- The first part of the code is at the position itself. -/
theorem left (h : CodeAt text pc (first ++ second)) : CodeAt text pc first := by
  obtain ⟨before, after, rfl, rfl⟩ := h
  exact ⟨before, second ++ after, by simp, rfl⟩

/-- The second part of the code is behind the first. -/
theorem right (h : CodeAt text pc (first ++ second)) :
    CodeAt text (pc + first.length) second := by
  obtain ⟨before, after, rfl, rfl⟩ := h
  exact ⟨before ++ first, after, by simp, by simp⟩

/-- The other instructions are one position further. -/
theorem tail (h : CodeAt text pc (i :: code)) : CodeAt text (pc + 1) code := by
  rw [← List.singleton_append] at h
  exact h.right

end CodeAt

section Straight

variable {I : Interpretation V} {text code : List Instr} {pc : Nat}

/-- **Straight code, forwards**: the machine runs through a piece of code without jumps, if the
code has an effect. -/
theorem reaches_straight (hcode : CodeAt text pc code) (hjump : ∀ i ∈ code, i.isJump = false)
    {m m' : Memory V} (h : m.effects I code = some m') :
    Reaches I text ⟨pc, m⟩ ⟨pc + code.length, m'⟩ := by
  induction code generalizing pc m with
  | nil =>
    obtain rfl : m = m' := by simpa using h
    exact .refl _
  | cons i code ih =>
    rw [Memory.effects_cons] at h
    obtain ⟨m₁, hm₁, hm'⟩ := Option.bind_eq_some_iff.mp h
    have hstep := step_of_not_isJump (I := I) (m := m) hcode.head (hjump i (by simp))
    rw [hm₁, Option.map_some] at hstep
    rw [List.length_cons, Nat.add_comm code.length, ← Nat.add_assoc]
    exact (Reaches.of_step hstep).trans
      (ih hcode.tail (fun j hj => hjump j (List.mem_cons_of_mem i hj)) hm')

/-- **Straight code, backwards**: a machine that stands before a piece of code without jumps and
halts can get through that code, which therefore has an effect. -/
theorem effects_of_halts (hcode : CodeAt text pc code) (hjump : ∀ i ∈ code, i.isJump = false)
    {n : Nat} {m m' : Memory V} (h : steps I text n ⟨pc, m⟩ = some ⟨text.length, m'⟩) :
    ∃ m₁, m.effects I code = some m₁ := by
  induction code generalizing pc m n with
  | nil => exact ⟨m, rfl⟩
  | cons i code ih =>
    obtain ⟨k, c, rfl, hstep, hk⟩ := exists_step_of_halts hcode.head h
    rw [step_of_not_isJump hcode.head (hjump i (by simp))] at hstep
    obtain ⟨m₁, hm₁, rfl⟩ := Option.map_eq_some_iff.mp hstep
    obtain ⟨m₂, hm₂⟩ := ih hcode.tail (fun j hj => hjump j (List.mem_cons_of_mem i hj)) hk
    exact ⟨m₂, by rw [Memory.effects_cons, hm₁, Option.bind_some, hm₂]⟩

end Straight

/-! ### Jumps -/

/-- No label stands at two positions. -/
def LabelsUnique (text : List Instr) : Prop :=
  ∀ (i j : Nat) (name : String),
    text[i]? = some (.label name) → text[j]? = some (.label name) → i = j

/-- A jump to a label that stands at one position only goes there. -/
theorem jump_eq {text : List Instr} (hunique : LabelsUnique text) {pc : Nat} {name : String}
    (hlabel : text[pc]? = some (.label name)) (c : Config V) :
    c.jump text name = some ⟨pc, c.memory⟩ := by
  have hidx : text.idxOf? (.label name) = some pc := by
    obtain ⟨hpc, hget⟩ := List.getElem?_eq_some_iff.mp hlabel
    rw [List.idxOf?_eq_some_iff]
    refine ⟨hpc, hget, fun j hj hjpc => ?_⟩
    have hj' : text[j]? = some (.label name) := List.getElem?_eq_some_iff.mpr ⟨_, hjpc⟩
    exact absurd (hunique j pc name hj' hlabel) (by omega)
  rw [Config.jump, hidx, Option.map_some]

end TinyImp.Asm
