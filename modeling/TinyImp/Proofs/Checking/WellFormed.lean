import Mathlib.Data.List.Forall2
import TinyImp.Proofs.Parsing.Reading

/-!
# Well-formed programs

When the names of a program are used as they should be, said of the tree alone and without a symbol
table. A **context** is what stands in front of a place in the text: the declarations completed in
each of the scopes that are still open there, and the headers of all functions. A phrase is well
formed in a context if

* every variable that it reads or assigns to is declared in some open scope, and
* every call names a function with a header, and the latest such header has parameters of exactly
  the types of the arguments.

The type of a variable is that of the first declaration of its name in the innermost scope that
declares it. The types that the expressions of the tree carry play no part.
-/

namespace TinyImp

/-! ### Contexts -/

/-- What stands in front of a place in the text. Declarations and headers are in the order of the
text. -/
structure Context where
  /-- The declarations completed in the innermost scope. -/
  innermost : List Param := []
  /-- The declarations completed in the scopes around it, innermost first. -/
  enclosing : List (List Param) := []
  /-- The function headers, whatever scope they stand in. -/
  headers : List (String × List Param) := []

namespace Context

variable (Γ : Context)

/-- The open scopes, innermost first. -/
def scopes : List (List Param) :=
  Γ.innermost :: Γ.enclosing

/-- Some open scope declares the name. -/
def Declares (name : String) : Prop :=
  ∃ scope ∈ Γ.scopes, ∃ d ∈ scope, d.name = name

/-- The first declaration of the name in the innermost scope that declares it has the type. -/
def HasVariable (name : String) (type : Ty) : Prop :=
  ∃ inner scope outer, Γ.scopes = inner ++ scope :: outer ∧
    (∀ ds ∈ inner, ∀ d ∈ ds, d.name ≠ name) ∧
    ∃ before after, scope = before ++ ⟨name, type⟩ :: after ∧ ∀ d ∈ before, d.name ≠ name

/-- The latest header of a function has the parameters. -/
def HasFunction (name : String) (params : List Param) : Prop :=
  ∃ before after, Γ.headers = before ++ (name, params) :: after ∧ ∀ h ∈ after, h.1 ≠ name

/-- The context in a new scope, in which some declarations have been completed. -/
def enter (declarations : List Param) : Context :=
  { Γ with innermost := declarations, enclosing := Γ.scopes }

/-- The context behind some declarations and headers. -/
def extend (declarations : List Param) (headers : List (String × List Param)) : Context :=
  { Γ with innermost := Γ.innermost ++ declarations, headers := Γ.headers ++ headers }

/-- A context that is extended by nothing is the same. -/
@[simp]
theorem extend_nil : Γ.extend [] [] = Γ := by
  simp [extend]

/-- Extensions come one behind the other. -/
@[simp]
theorem extend_extend (ds ds' : List Param) (hs hs' : List (String × List Param)) :
    (Γ.extend ds hs).extend ds' hs' = Γ.extend (ds ++ ds') (hs ++ hs') := by
  simp [extend]

end Context

/-! ### What a phrase leaves behind -/

/-- The variables that a statement declares in the scope in which it stands. -/
def Stmt.declarations : Stmt → List Param
  | .declare name type => [⟨name, type⟩]
  | .declareAssign name type _ => [⟨name, type⟩]
  | _ => []

mutual

/-- The function headers in a statement. -/
def Stmt.headers : Stmt → List (String × List Param)
  | .ifThen _ body | .loop _ body | .block body => Stmt.headersAll body
  | .ifElse _ body otherwise => Stmt.headersAll body ++ Stmt.headersAll otherwise
  | .function name _ params body => (name, params) :: Stmt.headersAll body
  | _ => []

/-- The function headers in several statements. -/
def Stmt.headersAll : List Stmt → List (String × List Param)
  | [] => []
  | s :: rest => s.headers ++ Stmt.headersAll rest

end

/-- The functions of statements are declared in the order of the statements. -/
theorem Stmt.headersAll_append (ss rest : List Stmt) :
    Stmt.headersAll (ss ++ rest) = Stmt.headersAll ss ++ Stmt.headersAll rest := by
  induction ss with
  | nil => rfl
  | cons s ss ih => simp [Stmt.headersAll, ih]

/-- The context behind a phrase. A block closes its scope, but its headers remain. -/
def Context.after (Γ : Context) : Phrase → Context
  | .statement s => Γ.extend s.declarations s.headers
  | .body ss => Γ.extend (ss.flatMap Stmt.declarations) (Stmt.headersAll ss)
  | .block ss => Γ.extend [] (Stmt.headersAll ss)

/-! ### Well-formedness -/

/-- Every variable of the expression is declared. -/
def Expr.Scoped (Γ : Context) : Expr → Prop
  | .const _ => True
  | .var name _ => Γ.Declares name
  | .arith _ _ lhs rhs => lhs.Scoped Γ ∧ rhs.Scoped Γ
  | .compare _ lhs rhs => lhs.Scoped Γ ∧ rhs.Scoped Γ

/-- The expression has the type. -/
inductive HasType (Γ : Context) : Expr → Ty → Prop
  | const {value : Const} : HasType Γ (.const value) value.type
  | var {name : String} {carried type : Ty} (h : Γ.HasVariable name type) :
      HasType Γ (.var name carried) type
  | float {op : ArithOp} {carried σ τ : Ty} {lhs rhs : Expr} (left : HasType Γ lhs σ)
      (right : HasType Γ rhs τ) (h : σ = .float ∨ τ = .float) :
      HasType Γ (.arith op carried lhs rhs) .float
  | int {op : ArithOp} {carried σ τ : Ty} {lhs rhs : Expr} (left : HasType Γ lhs σ)
      (right : HasType Γ rhs τ) (h : ¬ (σ = .float ∨ τ = .float)) :
      HasType Γ (.arith op carried lhs rhs) .int
  | compare {op : CompareOp} {lhs rhs : Expr} : HasType Γ (.compare op lhs rhs) .bool

/-- The phrase is well formed in the context. A block stands in a program only as the form of a
`for` loop, whose header has a scope around that of the body. -/
inductive WellFormed : Context → Phrase → Prop
  | declare {Γ : Context} {name : String} {type : Ty} :
      WellFormed Γ (.statement (.declare name type))
  | declareAssign {Γ : Context} {name : String} {type : Ty} {init : Expr} (h : init.Scoped Γ) :
      WellFormed Γ (.statement (.declareAssign name type init))
  | assign {Γ : Context} {name : String} {value : Expr} (h : value.Scoped Γ)
      (htarget : Γ.Declares name) : WellFormed Γ (.statement (.assign name value))
  | call {Γ : Context} {name : String} {args : List Expr} {params : List Param}
      (h : ∀ e ∈ args, e.Scoped Γ) (hheader : Γ.HasFunction name params)
      (htypes : List.Forall₂ (HasType Γ) args (params.map (·.type))) :
      WellFormed Γ (.statement (.call name args))
  | ret {Γ : Context} {value : Expr} (h : value.Scoped Γ) : WellFormed Γ (.statement (.ret value))
  | ifThen {Γ : Context} {e : Expr} {body : List Stmt} (h : e.Scoped Γ)
      (hbody : WellFormed Γ (.block body)) : WellFormed Γ (.statement (.ifThen e body))
  | ifElse {Γ : Context} {e : Expr} {body otherwise : List Stmt} (h : e.Scoped Γ)
      (hbody : WellFormed Γ (.block body))
      (hotherwise : WellFormed (Γ.after (.block body)) (.block otherwise)) :
      WellFormed Γ (.statement (.ifElse e body otherwise))
  | loop {Γ : Context} {e : Expr} {body : List Stmt} (h : e.Scoped Γ)
      (hbody : WellFormed Γ (.block body)) : WellFormed Γ (.statement (.loop e body))
  | forLoop {Γ Γ₁ Γ₂ : Context} {init step : Stmt} {e : Expr} {body : List Stmt}
      (hinit : WellFormed (Γ.enter []) (.statement init))
      (hΓ₁ : Γ₁ = (Γ.enter []).after (.statement init)) (h : e.Scoped Γ₁)
      (hstep : WellFormed Γ₁ (.statement step)) (hΓ₂ : Γ₂ = Γ₁.after (.statement step))
      (hbody : WellFormed Γ₂ (.block body)) :
      WellFormed Γ (.statement (.block [init, .loop e (body ++ [step])]))
  | function {Γ : Context} {name : String} {type : Ty} {params : List Param} {body : List Stmt}
      (hbody : WellFormed ((Γ.extend [] [(name, params)]).enter params) (.body body)) :
      WellFormed Γ (.statement (.function name type params body))
  | nil {Γ : Context} : WellFormed Γ (.body [])
  | cons {Γ : Context} {s : Stmt} {ss : List Stmt} (first : WellFormed Γ (.statement s))
      (rest : WellFormed (Γ.after (.statement s)) (.body ss)) : WellFormed Γ (.body (s :: ss))
  | block {Γ : Context} {ss : List Stmt} (h : WellFormed (Γ.enter []) (.body ss)) :
      WellFormed Γ (.block ss)

namespace WellFormed

variable {Γ : Context} {name : String} {type : Ty} {params : List Param} {e : Expr}
  {body : List Stmt}

/-- A first value is checked in front of the declaration, so that the variable is not yet there. -/
theorem declareAssign_iff :
    WellFormed Γ (.statement (.declareAssign name type e)) ↔ e.Scoped Γ := by
  constructor
  · intro h
    cases h with
    | declareAssign h => exact h
  · exact .declareAssign

/-- The value is checked, and the target has to be declared. -/
theorem assign_iff :
    WellFormed Γ (.statement (.assign name e)) ↔ e.Scoped Γ ∧ Γ.Declares name := by
  constructor
  · intro h
    cases h with
    | assign h htarget => exact ⟨h, htarget⟩
  · exact fun ⟨h, htarget⟩ => .assign h htarget

/-- A call fits a function that is declared: as many arguments as parameters, each of its
parameter's type. -/
theorem call_iff {args : List Expr} :
    WellFormed Γ (.statement (.call name args)) ↔
      (∀ e ∈ args, e.Scoped Γ) ∧
        ∃ params, Γ.HasFunction name params ∧
          List.Forall₂ (HasType Γ) args (params.map (·.type)) := by
  constructor
  · intro h
    cases h with
    | call h hheader htypes => exact ⟨h, _, hheader, htypes⟩
  · exact fun ⟨h, _, hheader, htypes⟩ => .call h hheader htypes

/-- Only the value is checked. -/
theorem ret_iff : WellFormed Γ (.statement (.ret e)) ↔ e.Scoped Γ := by
  constructor
  · intro h
    cases h with
    | ret h => exact h
  · exact .ret

/-- A block is a body in a scope of its own. -/
theorem block_iff : WellFormed Γ (.block body) ↔ WellFormed (Γ.enter []) (.body body) := by
  constructor
  · intro h
    cases h with
    | block h => exact h
  · exact .block

/-- The condition is checked outside of the scope of the block. -/
theorem ifThen_iff :
    WellFormed Γ (.statement (.ifThen e body)) ↔ e.Scoped Γ ∧ WellFormed Γ (.block body) := by
  constructor
  · intro h
    cases h with
    | ifThen h hbody => exact ⟨h, hbody⟩
  · exact fun ⟨h, hbody⟩ => .ifThen h hbody

/-- The alternative stands behind the first block, and sees the functions that were declared there.
-/
theorem ifElse_iff {otherwise : List Stmt} :
    WellFormed Γ (.statement (.ifElse e body otherwise)) ↔
      (e.Scoped Γ ∧ WellFormed Γ (.block body)) ∧
        WellFormed (Γ.after (.block body)) (.block otherwise) := by
  constructor
  · intro h
    cases h with
    | ifElse h hbody hotherwise => exact ⟨⟨h, hbody⟩, hotherwise⟩
  · exact fun ⟨⟨h, hbody⟩, hotherwise⟩ => .ifElse h hbody hotherwise

/-- A loop is checked once, as if its body ran a single time. -/
theorem loop_iff :
    WellFormed Γ (.statement (.loop e body)) ↔ e.Scoped Γ ∧ WellFormed Γ (.block body) := by
  constructor
  · intro h
    cases h with
    | loop h hbody => exact ⟨h, hbody⟩
  · exact fun ⟨h, hbody⟩ => .loop h hbody

/-- The parts of a `for` loop, in the order of the text. -/
theorem forLoop_iff {Γ₁ : Context} {init step : Stmt}
    (hΓ₁ : Γ₁ = (Γ.enter []).after (.statement init)) :
    WellFormed Γ (.statement (.block [init, .loop e (body ++ [step])])) ↔
      ((WellFormed (Γ.enter []) (.statement init) ∧ e.Scoped Γ₁) ∧
        WellFormed Γ₁ (.statement step)) ∧
        WellFormed (Γ₁.after (.statement step)) (.block body) := by
  constructor
  · intro h
    -- the body and the step are determined by the list that they make up together
    generalize hlist : body ++ [step] = steps at h
    cases h with
    | forLoop hinit hΓ₁' h hstep hΓ₂ hbody =>
      obtain ⟨rfl, rfl⟩ := List.append_singleton_inj.mp hlist
      obtain rfl := hΓ₁.trans hΓ₁'.symm
      subst hΓ₂
      exact ⟨⟨⟨hinit, h⟩, hstep⟩, hbody⟩
  · rintro ⟨⟨⟨hinit, h⟩, hstep⟩, hbody⟩
    exact .forLoop hinit hΓ₁ h hstep rfl hbody

/-- A function is declared in front of its body, which has the parameters in its scope. -/
theorem function_iff :
    WellFormed Γ (.statement (.function name type params body)) ↔
      WellFormed ((Γ.extend [] [(name, params)]).enter params) (.body body) := by
  constructor
  · intro h
    cases h with
    | function h => exact h
  · exact .function

/-- Statements are checked one after the other, each in the context behind those in front of it. -/
theorem cons_iff {s : Stmt} :
    WellFormed Γ (.body (s :: body)) ↔
      WellFormed Γ (.statement s) ∧ WellFormed (Γ.after (.statement s)) (.body body) := by
  constructor
  · intro h
    cases h with
    | cons first rest => exact ⟨first, rest⟩
  · exact fun ⟨first, rest⟩ => .cons first rest

end WellFormed

/-- The program is well formed where nothing is declared in front of it. -/
def Program.WellFormed (p : Program) : Prop :=
  TinyImp.WellFormed {} (.body p.body)

end TinyImp
