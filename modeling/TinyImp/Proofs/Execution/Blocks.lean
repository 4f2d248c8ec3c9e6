import TinyImp.Compilation
import TinyImp.Proofs.Execution.Preservation

/-!
# Blocks and the flat store

In a language with blocks a declaration belongs to the block in which it stands. This module gives
programs without functions such a meaning over the integers: an **environment** is a stack of
frames, one for each open scope, a body is run in a frame of its own, and a variable without a value
cannot be read. Two questions are left to the `Rules`: what the value of a comparison is, and
whether a declaration makes a variable of its own when an enclosing scope has one of that name.

The *ordinary* rules answer with the truth value, and with yes. The code does neither: it goes on
with the left side of a comparison, and has one memory cell for a name wherever it is declared.
These are the *generated* rules. A program that terminates under them is executed by its code
(`Runs.executes`, `RunsTo.haltsWith`). Each of the two differences shows in a program without any
diagnostic (`code_differs_from_ordinary_rules`).
-/

namespace TinyImp

open Asm

/-! ### Environments -/

/-- The comparison holds of two integers. -/
def CompareOp.holds : CompareOp → Int → Int → Bool
  | .less, a, b => decide (a < b)
  | .greater, a, b => decide (b < a)
  | .equal, a, b => decide (a = b)

/-- What a meaning with blocks can differ in. -/
structure Rules where
  /-- The value of a comparison. -/
  compare : CompareOp → Int → Int → Int
  /-- A declaration makes a variable of its own, although an enclosing scope has one of that
  name. -/
  shadows : Bool

namespace Rules

/-- The ordinary rules: a comparison has its truth value, and a declaration hides those around. -/
def ordinary : Rules where
  compare op a b := if op.holds a b then 1 else 0
  shadows := true

/-- The rules of the code: a comparison has the value of its left side, and as long as a name stands
for a variable, declaring it again changes nothing. -/
def generated : Rules where
  compare _ a _ := a
  shadows := false

end Rules

/-- The variables of one scope, each with its value if it has one yet. -/
abbrev Frame := String → Option (Option Int)

/-- The frames of the open scopes, innermost first. -/
abbrev Env := List Frame

namespace Env

/-- The variable that a name stands for: the one of the innermost frame that has it. -/
def find? (env : Env) (name : String) : Option (Option Int) :=
  env.findSome? (· name)

/-- The value of a variable. -/
def value? (env : Env) (name : String) : Option Int :=
  (find? env name).join

/-- Declares a variable, which has no value at first. A second declaration in the same scope changes
nothing. -/
def declare (rules : Rules) (name : String) : Env → Env
  | [] => []
  | frame :: env =>
    if (frame name).isSome || (!rules.shadows && (find? env name).isSome) then frame :: env
    else Function.update frame name (some none) :: env

/-- Gives a value to the variable that a name stands for. -/
def assign (name : String) (v : Int) : Env → Env
  | [] => []
  | frame :: env =>
    if (frame name).isSome then Function.update frame name (some (some v)) :: env
    else frame :: assign name v env

end Env

/-- The value of an expression, if it has one and it is an integer. -/
def Expr.value? (rules : Rules) (env : Env) : Expr → Option Int
  | .const (.int value) => some value
  | .const (.float _) => none
  | .var name _ => env.value? name
  | .arith op _ lhs rhs =>
    (lhs.value? rules env).bind fun a => (rhs.value? rules env).bind fun b =>
      Interpretation.integers.arith op a b
  | .compare op lhs rhs =>
    (lhs.value? rules env).bind fun a => (rhs.value? rules env).map fun b => rules.compare op a b

/-! ### Runs -/

/-- What can be run: a statement, the statements of a scope that is open already, a body in a scope
of its own, and the iterations of a `for` loop. -/
inductive Fragment where
  | statement (s : Stmt)
  | sequence (ss : List Stmt)
  | scoped (ss : List Stmt)
  | iterations (condition : Expr) (ss : List Stmt) (step : Stmt)

/-- **Runs with blocks.** A condition holds if its value is not zero. In a `for` loop the body has a
scope inside that of the header, in which the step is run; what the step declares is known to the
body, which stands behind it in the text. -/
inductive Runs (rules : Rules) : Fragment → Env → Env → Prop
  | declare {name type env} :
      Runs rules (.statement (.declare name type)) env (env.declare rules name)
  | declareAssign {name type init env v} (hinit : init.value? rules env = some v) :
      Runs rules (.statement (.declareAssign name type init)) env
        ((env.declare rules name).assign name v)
  | assign {name value env v} (hname : (env.find? name).isSome = true)
      (hvalue : value.value? rules env = some v) :
      Runs rules (.statement (.assign name value)) env (env.assign name v)
  | ifThenHolds {e body env env' v} (he : e.value? rules env = some v) (hv : v ≠ 0)
      (hbody : Runs rules (.scoped body) env env') :
      Runs rules (.statement (.ifThen e body)) env env'
  | ifThenFails {e body env} (he : e.value? rules env = some 0) :
      Runs rules (.statement (.ifThen e body)) env env
  | ifElseHolds {e body otherwise env env' v} (he : e.value? rules env = some v) (hv : v ≠ 0)
      (hbody : Runs rules (.scoped body) env env') :
      Runs rules (.statement (.ifElse e body otherwise)) env env'
  | ifElseFails {e body otherwise env env'} (he : e.value? rules env = some 0)
      (hotherwise : Runs rules (.scoped otherwise) env env') :
      Runs rules (.statement (.ifElse e body otherwise)) env env'
  | loopHolds {e body env env₁ env' v} (he : e.value? rules env = some v) (hv : v ≠ 0)
      (hbody : Runs rules (.scoped body) env env₁)
      (hloop : Runs rules (.statement (.loop e body)) env₁ env') :
      Runs rules (.statement (.loop e body)) env env'
  | loopFails {e body env} (he : e.value? rules env = some 0) :
      Runs rules (.statement (.loop e body)) env env
  | forLoop {init e ss step frame env env₁ env'}
      (hinit : Runs rules (.statement init) ((fun _ => none) :: env) env₁)
      (hloop : Runs rules (.iterations e ss step) env₁ (frame :: env')) :
      Runs rules (.statement (.block [init, .loop e (ss ++ [step])])) env env'
  | iterate {e ss step env env₁ env₂ env' v} (he : e.value? rules env = some v) (hv : v ≠ 0)
      (hbody : Runs rules (.scoped ss) (step.declared?.elim env (env.declare rules ·)) env₁)
      (hstep : Runs rules (.statement step) env₁ env₂)
      (hloop : Runs rules (.iterations e ss step) env₂ env') :
      Runs rules (.iterations e ss step) env env'
  | finish {e ss step env} (he : e.value? rules env = some 0) :
      Runs rules (.iterations e ss step) env env
  | nil {env} : Runs rules (.sequence []) env env
  | cons {s rest env env₁ env'} (hs : Runs rules (.statement s) env env₁)
      (hrest : Runs rules (.sequence rest) env₁ env') :
      Runs rules (.sequence (s :: rest)) env env'
  | scope {ss frame env env'}
      (hbody : Runs rules (.sequence ss) ((fun _ => none) :: env) (frame :: env')) :
      Runs rules (.scoped ss) env env'

/-- The program terminates, and its program-level variables are those of the frame. -/
def Program.RunsTo (rules : Rules) (p : Program) (frame : Frame) : Prop :=
  Runs rules (.sequence p.body) [fun _ => none] [frame]

/-! ### Environments in a flat store -/

namespace Env

variable {env : Env} {frame : Frame} {σ : Store Int} {name : String} {v : Int}

/-- **An environment in a flat store.** No two frames have a variable of the same name, and the
variables with a value have it in the store. -/
structure StoredIn (env : Env) (σ : Store Int) : Prop where
  apart : env.Pairwise fun inner outer => ∀ name, (inner name).isSome = true → outer name = none
  agrees : ∀ frame ∈ env, ∀ name v, frame name = some (some v) → σ name = v

/-- A frame on top of others is stored if it hides none of their names, the store has its values,
and the others are stored. -/
private theorem storedIn_cons : StoredIn (frame :: env) σ ↔
    (∀ name, (frame name).isSome = true → find? env name = none) ∧
      (∀ name v, frame name = some (some v) → σ name = v) ∧ StoredIn env σ := by
  constructor
  · rintro ⟨hapart, hagrees⟩
    obtain ⟨hframe, hrest⟩ := List.pairwise_cons.mp hapart
    obtain ⟨hvalue, hvalues⟩ := List.forall_mem_cons.mp hagrees
    refine ⟨fun name hname => ?_, hvalue, hrest, hvalues⟩
    exact List.findSome?_eq_none_iff.mpr fun outer houter => hframe outer houter name hname
  · rintro ⟨hframe, hvalue, hrest, hvalues⟩
    refine ⟨List.pairwise_cons.mpr ⟨fun outer houter name hname => ?_, hrest⟩,
      List.forall_mem_cons.mpr ⟨hvalue, hvalues⟩⟩
    exact List.findSome?_eq_none_iff.mp (hframe name hname) outer houter

private theorem StoredIn.push (h : env.StoredIn σ) : StoredIn ((fun _ => none) :: env) σ :=
  storedIn_cons.mpr ⟨by simp, by simp, h⟩

private theorem StoredIn.pop (h : StoredIn (frame :: env) σ) : env.StoredIn σ :=
  (storedIn_cons.mp h).2.2

/-- The store has the value of every variable. -/
theorem StoredIn.value?_eq (h : env.StoredIn σ) (hvalue : env.value? name = some v) :
    σ name = v := by
  obtain ⟨frame, hframe, hname⟩ :=
    List.exists_of_findSome?_eq_some (Option.join_eq_some_iff.mp hvalue)
  exact h.agrees frame hframe name v hname

/-- A declaration adds a name that no frame has. -/
theorem StoredIn.declare (h : env.StoredIn σ) (name : String) :
    (env.declare .generated name).StoredIn σ := by
  cases env with
  | nil => exact h
  | cons frame env =>
    rw [Env.declare]
    split
    · exact h
    · rename_i hnew
      obtain ⟨hinner, houter⟩ : frame name = none ∧ find? env name = none := by
        simpa [Rules.generated] using hnew
      obtain ⟨hframe, hvalue, hrest⟩ := storedIn_cons.mp h
      refine storedIn_cons.mpr ⟨fun other hother => ?_, fun other v hother => ?_, hrest⟩
      · by_cases heq : other = name
        · rw [heq]
          exact houter
        · exact hframe other (by simpa [heq] using hother)
      · by_cases heq : other = name
        · simp [heq] at hother
        · exact hvalue other v (by simpa [heq] using hother)

/-- An assignment declares nothing. -/
theorem find?_assign_eq_none {other : String} (h : find? env other = none) (name : String)
    (v : Int) : find? (env.assign name v) other = none := by
  rw [find?, List.findSome?_eq_none_iff] at h ⊢
  induction env with
  | nil => exact h
  | cons frame env ih =>
    obtain ⟨hframe, hrest⟩ := List.forall_mem_cons.mp h
    rw [assign]
    split
    · rename_i hname
      have hne : other ≠ name := by
        rintro rfl
        simp [hframe] at hname
      refine List.forall_mem_cons.mpr ⟨?_, hrest⟩
      rw [Function.update_of_ne hne]
      exact hframe
    · exact List.forall_mem_cons.mpr ⟨hframe, ih hrest⟩

/-- The store can be given any value for a name that no frame has. -/
theorem StoredIn.update (h : env.StoredIn σ) (hname : find? env name = none) (v : Int) :
    env.StoredIn (Function.update σ name v) := by
  refine ⟨h.apart, fun frame hframe other w hother => ?_⟩
  have hne : other ≠ name := by
    rintro rfl
    rw [List.findSome?_eq_none_iff.mp hname frame hframe] at hother
    cases hother
  rw [Function.update_of_ne hne]
  exact h.agrees frame hframe other w hother

/-- **An assignment** changes the store where it changes the environment. -/
theorem StoredIn.assign (h : env.StoredIn σ) (name : String) (v : Int) :
    (env.assign name v).StoredIn (Function.update σ name v) := by
  induction env with
  | nil => exact h.update rfl v
  | cons frame env ih =>
    obtain ⟨hframe, hvalue, hrest⟩ := storedIn_cons.mp h
    rw [Env.assign]
    split
    · rename_i hname
      -- the other frames do not have the name
      refine storedIn_cons.mpr
        ⟨fun other hother => ?_, fun other w hother => ?_, hrest.update (hframe name hname) v⟩
      · by_cases heq : other = name
        · rw [heq]
          exact hframe name hname
        · exact hframe other (by simpa [heq] using hother)
      · by_cases heq : other = name
        · simpa [heq] using hother
        · rw [Function.update_of_ne heq] at hother ⊢
          exact hvalue other w hother
    · rename_i hname
      -- the variable is further out, and this frame has none of that name
      refine storedIn_cons.mpr ⟨fun other hother => ?_, fun other w hother => ?_, ih hrest⟩
      · exact find?_assign_eq_none (hframe other hother) name v
      · have hne : other ≠ name := by
          rintro rfl
          simp [hother] at hname
        rw [Function.update_of_ne hne]
        exact hvalue other w hother

end Env

/-! ### Runs in a flat store -/

/-- The store gives an expression the value that the environment does. -/
theorem Expr.eval_of_value? {env : Env} {σ : Store Int} (hσ : env.StoredIn σ) {e : Expr} {v : Int}
    (h : e.value? .generated env = some v) : e.eval .integers σ = some v := by
  induction e generalizing v with
  | const value =>
    cases value with
    | int value => exact h
    | float value => cases h
  | var name type => exact congrArg some (hσ.value?_eq h)
  | arith op type lhs rhs ihl ihr =>
    obtain ⟨a, ha, h⟩ := Option.bind_eq_some_iff.mp h
    obtain ⟨b, hb, h⟩ := Option.bind_eq_some_iff.mp h
    rw [Expr.eval, ihl ha, ihr hb]
    exact h
  | compare op lhs rhs ihl ihr =>
    obtain ⟨a, ha, h⟩ := Option.bind_eq_some_iff.mp h
    obtain ⟨b, hb, rfl⟩ := Option.map_eq_some_iff.mp h
    rw [Expr.eval, ihl ha, ihr hb]
    rfl

/-- Blocks are executed one after the other. -/
private theorem Stmt.Executes.append {V : Type} {I : Interpretation V} {first second : List Stmt}
    {σ σ₁ σ' : Store V} (h : Executes I (.block first) σ σ₁)
    (h' : Executes I (.block second) σ₁ σ') : Executes I (.block (first ++ second)) σ σ' := by
  induction first generalizing σ with
  | nil =>
    cases h
    exact h'
  | cons s rest ih =>
    cases h with
    | blockCons hs hrest => exact .blockCons hs (ih hrest)

/-- The statement that runs a fragment without scopes. -/
def Fragment.flat : Fragment → Stmt
  | .statement s => s
  | .sequence ss => .block ss
  | .scoped ss => .block ss
  | .iterations e ss step => .loop e (ss ++ [step])

/-- **Scopes can be forgotten.** A run under the generated rules is an execution in every flat store
that the environment is stored in. -/
theorem Runs.executes {fragment : Fragment} {env env' : Env} (h : Runs .generated fragment env env')
    {σ : Store Int} (hσ : env.StoredIn σ) :
    ∃ σ', Stmt.Executes .integers fragment.flat σ σ' ∧ env'.StoredIn σ' := by
  -- by induction on the run: a scope that is opened or closed does not touch the store
  induction h generalizing σ with
  | declare => exact ⟨σ, .declare, hσ.declare _⟩
  | declareAssign hinit =>
    exact ⟨_, .declareAssign (Expr.eval_of_value? hσ hinit), (hσ.declare _).assign _ _⟩
  | assign _ hvalue => exact ⟨_, .assign (Expr.eval_of_value? hσ hvalue), hσ.assign _ _⟩
  | ifThenHolds he hv _ ih =>
    obtain ⟨σ', hbody, hσ'⟩ := ih hσ
    exact ⟨σ', .ifThenHolds (Expr.eval_of_value? hσ he) (decide_eq_false hv) hbody, hσ'⟩
  | ifThenFails he => exact ⟨σ, .ifThenFails (Expr.eval_of_value? hσ he) rfl, hσ⟩
  | ifElseHolds he hv _ ih =>
    obtain ⟨σ', hbody, hσ'⟩ := ih hσ
    exact ⟨σ', .ifElseHolds (Expr.eval_of_value? hσ he) (decide_eq_false hv) hbody, hσ'⟩
  | ifElseFails he _ ih =>
    obtain ⟨σ', hotherwise, hσ'⟩ := ih hσ
    exact ⟨σ', .ifElseFails (Expr.eval_of_value? hσ he) rfl hotherwise, hσ'⟩
  | loopHolds he hv _ _ ih ih' =>
    obtain ⟨σ₁, hbody, hσ₁⟩ := ih hσ
    obtain ⟨σ', hloop, hσ'⟩ := ih' hσ₁
    exact ⟨σ', .loopHolds (Expr.eval_of_value? hσ he) (decide_eq_false hv) hbody hloop, hσ'⟩
  | loopFails he => exact ⟨σ, .loopFails (Expr.eval_of_value? hσ he) rfl, hσ⟩
  | forLoop _ _ ih ih' =>
    obtain ⟨σ₁, hinit, hσ₁⟩ := ih hσ.push
    obtain ⟨σ', hloop, hσ'⟩ := ih' hσ₁
    exact ⟨σ', .blockCons hinit (.blockCons hloop .blockNil), hσ'.pop⟩
  | @iterate _ _ step env _ _ _ _ he hv _ _ _ ih ih' ih'' =>
    -- the name that the step may declare has no value before the step
    have hheader : Env.StoredIn (step.declared?.elim env (env.declare .generated ·)) σ := by
      cases step.declared? with
      | none => exact hσ
      | some name => exact hσ.declare name
    obtain ⟨σ₁, hbody, hσ₁⟩ := ih hheader
    obtain ⟨σ₂, hstep, hσ₂⟩ := ih' hσ₁
    obtain ⟨σ', hloop, hσ'⟩ := ih'' hσ₂
    exact ⟨σ', .loopHolds (Expr.eval_of_value? hσ he) (decide_eq_false hv)
      (hbody.append (.blockCons hstep .blockNil)) hloop, hσ'⟩
  | finish he => exact ⟨σ, .loopFails (Expr.eval_of_value? hσ he) rfl, hσ⟩
  | nil => exact ⟨σ, .blockNil, hσ⟩
  | cons _ _ ih ih' =>
    obtain ⟨σ₁, hs, hσ₁⟩ := ih hσ
    obtain ⟨σ', hrest, hσ'⟩ := ih' hσ₁
    exact ⟨σ', .blockCons hs hrest, hσ'⟩
  | scope _ ih =>
    obtain ⟨σ', hbody, hσ'⟩ := ih hσ.push
    exact ⟨σ', hbody, hσ'.pop⟩

/-- The code of a program that terminates under the generated rules halts with the values of its
variables. -/
theorem Program.RunsTo.haltsWith {p : Program} {frame : Frame} (h : p.RunsTo .generated frame)
    (hfree : Stmt.functionFreeAll p.body = true) (m : Memory Int) :
    ∃ σ', HaltsWith .integers p.assembly.text m σ' ∧
      ∀ name v, frame name = some (some v) → σ' name = v := by
  have hempty : Env.StoredIn [fun _ => none] m.store := ⟨by simp, by simp⟩
  obtain ⟨σ', hexecutes, hσ'⟩ := h.executes hempty
  exact ⟨σ', Program.Executes.haltsWith hexecutes hfree, hσ'.agrees frame List.mem_cons_self⟩

/-! ### Compiled programs -/

/-- **The code of a text follows the rules.** If its program has no functions and terminates, the
code halts, whatever the machine holds at first, and every program-level variable with a value has
it in the memory. -/
def CodeFollows (rules : Rules) (source : String) : Prop :=
  ∀ p, (compile source {}).program = .ok p → Stmt.functionFreeAll p.body = true →
    ∀ frame, p.RunsTo rules frame → ∀ m : Memory Int,
      ∃ a σ', (compile source {}).assembly = some a ∧ HaltsWith .integers a.text m σ' ∧
        ∀ name v, frame name = some (some v) → σ' name = v

/-- If a text has a program, its assembly is that of the program. -/
theorem assembly_compile_of_program {source : String} {options : Options} {p : Program}
    (hp : (compile source options).program = .ok p) :
    (compile source options).assembly = some p.assembly := by
  rw [assembly_compile, hp]
  rfl

/-- The program of a text, if its tokens are known and nothing is wrong with them. -/
theorem program_compile_of_scan {source : String} {options : Options} {tokens : List Located}
    (htokens : (scan source).tokens = tokens) (hreports : (scan source).reports = []) :
    (compile source options).program =
      (parse tokens (Checker.note { options } (.scanned tokens.length))).1 := by
  rw [program_compile, Checker.recordScan, htokens, hreports, List.foldl_nil]

/-- A program whose variables end with different values under two rules cannot follow both. -/
theorem not_codeFollows (name : String) {rules : Rules} {source : String} {p : Program}
    {frame frame' : Frame} {v v' : Int} (hp : (compile source {}).program = .ok p)
    (hfree : Stmt.functionFreeAll p.body = true) (hrun : p.RunsTo rules frame)
    (hv : frame name = some (some v)) (hrun' : p.RunsTo .generated frame')
    (hv' : frame' name = some (some v')) (hne : v ≠ v') : ¬ CodeFollows rules source := by
  intro hfollows
  obtain ⟨a, σ, ha, hhalts, hσ⟩ :=
    hfollows p hp hfree frame hrun ⟨fun _ => 0, fun _ => 0, 0, none, false⟩
  obtain ⟨σ', hhalts', hσ'⟩ := hrun'.haltsWith hfree ⟨fun _ => 0, fun _ => 0, 0, none, false⟩
  rw [assembly_compile_of_program hp] at ha
  obtain rfl := Option.some.inj ha
  obtain rfl := hhalts.unique hhalts'
  exact hne ((hσ name v hv).symm.trans (hσ' name v' hv'))

/-- **The code follows the generated rules**, for every text. -/
theorem code_follows_generated_rules (source : String) : CodeFollows .generated source := by
  intro p hp hfree frame hrun m
  obtain ⟨σ', hhalts, hσ'⟩ := hrun.haltsWith hfree m
  exact ⟨p.assembly, σ', assembly_compile_of_program hp, hhalts, hσ'⟩

/-- A loop whose body declares the variable of its condition again. -/
def sharedCounter : String := "int n = 1; while (n > 0) \x7b int n = 0; \x7d"

def sharedCounterTokens : List Located :=
  [.kwInt, .identifier "n", .assign, .intLit 1, .semicolon, .kwWhile, .openParen, .identifier "n",
    .greater, .intLit 0, .closeParen, .openBrace, .kwInt, .identifier "n", .assign, .intLit 0,
    .semicolon, .closeBrace].map fun w => ⟨w, 1⟩

def sharedCounterProgram : Program :=
  ⟨[.declareAssign "n" .int (.const (.int 1)),
    .loop (.compare .greater (.var "n" .int) (.const (.int 0)))
      [.declareAssign "n" .int (.const (.int 0))]]⟩

/-- Under the generated rules the loop ends after one round, and the code leaves zero in `n`. -/
theorem sharedCounter_haltsWith :
    (compile sharedCounter {}).isClean = true ∧
      (compile sharedCounter {}).program = .ok sharedCounterProgram ∧
      Stmt.functionFreeAll sharedCounterProgram.body = true ∧
      ∃ frame, sharedCounterProgram.RunsTo .generated frame ∧ frame "n" = some (some 0) ∧
        ∃ a σ', (compile sharedCounter {}).assembly = some a ∧
          HaltsWith .integers a.text ⟨fun _ => 4, fun _ => 5, 6, some 7, true⟩ σ' ∧
          σ' "n" = 0 := by
  have htokens : (scan sharedCounter).tokens = sharedCounterTokens := by decide +kernel
  have hp : (compile sharedCounter {}).program = .ok sharedCounterProgram := by
    rw [program_compile_of_scan htokens (by decide +kernel)]
    rfl
  have hrun : ∃ frame, sharedCounterProgram.RunsTo .generated frame ∧
      frame "n" = some (some 0) :=
    ⟨_, .cons (.declareAssign rfl) (.cons (.loopHolds rfl (by decide)
      (.scope (.cons (.declareAssign rfl) .nil)) (.loopFails rfl)) .nil), rfl⟩
  obtain ⟨frame, hrun, hn⟩ := hrun
  obtain ⟨a, σ', ha, hhalts, hσ'⟩ :=
    code_follows_generated_rules sharedCounter _ hp rfl frame hrun _
  exact ⟨by decide +kernel, hp, rfl, frame, hrun, hn, a, σ', ha, hhalts, hσ' "n" 0 hn⟩

/-- A comparison that does not hold, and whose left side is not zero. -/
def failingComparison : String := "int a = 1; if (a == 2) \x7b a = 3; \x7d"

def failingComparisonTokens : List Located :=
  [.kwInt, .identifier "a", .assign, .intLit 1, .semicolon, .kwIf, .openParen, .identifier "a",
    .equal, .intLit 2, .closeParen, .openBrace, .identifier "a", .assign, .intLit 3, .semicolon,
    .closeBrace].map fun w => ⟨w, 1⟩

def failingComparisonProgram : Program :=
  ⟨[.declareAssign "a" .int (.const (.int 1)),
    .ifThen (.compare .equal (.var "a" .int) (.const (.int 2))) [.assign "a" (.const (.int 3))]]⟩

/-- A body that declares a variable again, under a condition that is no comparison. -/
def hiddenVariable : String := "int x = 1; if (x) \x7b int x = 2; \x7d"

def hiddenVariableTokens : List Located :=
  [.kwInt, .identifier "x", .assign, .intLit 1, .semicolon, .kwIf, .openParen, .identifier "x",
    .closeParen, .openBrace, .kwInt, .identifier "x", .assign, .intLit 2, .semicolon,
    .closeBrace].map fun w => ⟨w, 1⟩

def hiddenVariableProgram : Program :=
  ⟨[.declareAssign "x" .int (.const (.int 1)),
    .ifThen (.var "x" .int) [.declareAssign "x" .int (.const (.int 2))]]⟩

/-- **The code does not follow the ordinary rules**, neither for a comparison nor for a variable
that is hidden by another one, although there is no diagnostic and no function. -/
theorem code_differs_from_ordinary_rules :
    ((compile failingComparison {}).isClean = true ∧
      (compile failingComparison {}).program = .ok failingComparisonProgram ∧
      Stmt.functionFreeAll failingComparisonProgram.body = true ∧
      ¬ CodeFollows .ordinary failingComparison) ∧
    (compile hiddenVariable {}).isClean = true ∧
      (compile hiddenVariable {}).program = .ok hiddenVariableProgram ∧
      Stmt.functionFreeAll hiddenVariableProgram.body = true ∧
      ¬ CodeFollows .ordinary hiddenVariable := by
  have htokens : (scan failingComparison).tokens = failingComparisonTokens := by decide +kernel
  have hp : (compile failingComparison {}).program = .ok failingComparisonProgram := by
    rw [program_compile_of_scan htokens (by decide +kernel)]
    rfl
  have htokens' : (scan hiddenVariable).tokens = hiddenVariableTokens := by decide +kernel
  have hp' : (compile hiddenVariable {}).program = .ok hiddenVariableProgram := by
    rw [program_compile_of_scan htokens' (by decide +kernel)]
    rfl
  refine ⟨⟨by decide +kernel, hp, rfl, ?_⟩, by decide +kernel, hp', rfl, ?_⟩
  · -- the left side is one, so that the code runs the body
    exact not_codeFollows "a" hp rfl
      (.cons (.declareAssign rfl) (.cons (.ifThenFails rfl) .nil)) rfl
      (.cons (.declareAssign rfl) (.cons (.ifThenHolds rfl (by decide)
        (.scope (.cons (.assign rfl rfl) .nil))) .nil)) rfl (by decide)
  · -- the code has one cell for both variables
    exact not_codeFollows "x" hp' rfl
      (.cons (.declareAssign rfl) (.cons (.ifThenHolds rfl (by decide)
        (.scope (.cons (.declareAssign rfl) .nil))) .nil)) rfl
      (.cons (.declareAssign rfl) (.cons (.ifThenHolds rfl (by decide)
        (.scope (.cons (.declareAssign rfl) .nil))) .nil)) rfl (by decide)

end TinyImp
