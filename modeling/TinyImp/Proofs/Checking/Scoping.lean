import TinyImp.Compilation
import TinyImp.Proofs.Checking.Represents
import TinyImp.Proofs.Parsing.Completeness

/-!
# Clean compilations are the well-formed programs

Along the reading of a program the symbol table of the checker represents the context of the place
that has been reached. Reports are only ever added, and none is added while a phrase is read
exactly if the phrase is well formed in the context in front of it (`checks_reads`). For a text
that scans without a report and parses, the compilation is therefore clean exactly if the program
is well formed (`isClean_compile_iff`).
-/

namespace TinyImp

/-! ### Reports -/

/-- Where reports are only added and none is there at the end of a way that was not at its
beginning, none has been added in between. -/
theorem reports_eq_of_grows {reports reports₁ reports' : List Report} (h : reports <+: reports₁)
    (h' : reports₁ <+: reports') (heq : reports' = reports) : reports₁ = reports := by
  have hlength : reports.length = reports₁.length :=
    Nat.le_antisymm h.length_le (heq ▸ h'.length_le)
  exact (h.eq_of_length hlength).symm

/-- Reports are only added between two states of the checker, and none is exactly if `P` holds. -/
structure Accepts (c c' : Checker) (P : Prop) : Prop where
  grows : c.reports <+: c'.reports
  unchanged_iff : c'.reports = c.reports ↔ P

namespace Accepts

variable {c c₁ c' : Checker} {P Q : Prop}

private theorem of_eq (h : c'.reports = c.reports) (hP : P) : Accepts c c' P :=
  ⟨h ▸ List.prefix_rfl, iff_of_true h hP⟩

private theorem congr (h : Accepts c c' P) (hPQ : P ↔ Q) : Accepts c c' Q :=
  ⟨h.grows, h.unchanged_iff.trans hPQ⟩

/-- Only the reports at both ends matter. -/
theorem of_reports {d d' : Checker} (h : Accepts c c' P) (hd : d.reports = c.reports)
    (hd' : d'.reports = c'.reports) : Accepts d d' P := by
  constructor
  · rw [hd, hd']
    exact h.grows
  · rw [hd, hd']
    exact h.unchanged_iff

/-- Nothing is reported on the whole way exactly if nothing is on its two parts. What the second
part accepts matters only if the first accepts. -/
theorem trans_of (h₁ : Accepts c c₁ P) (hgrows : c₁.reports <+: c'.reports)
    (h₂ : P → (c'.reports = c₁.reports ↔ Q)) : Accepts c c' (P ∧ Q) := by
  refine ⟨h₁.grows.trans hgrows, fun h => ?_, fun ⟨hP, hQ⟩ => ?_⟩
  · have hfirst := reports_eq_of_grows h₁.grows hgrows h
    have hP := h₁.unchanged_iff.mp hfirst
    exact ⟨hP, (h₂ hP).mp (h.trans hfirst.symm)⟩
  · exact ((h₂ hP).mpr hQ).trans (h₁.unchanged_iff.mpr hP)

/-- Two steps accept what both of them accept. -/
private theorem trans (h₁ : Accepts c c₁ P) (h₂ : Accepts c₁ c' Q) : Accepts c c' (P ∧ Q) :=
  h₁.trans_of h₂.grows fun _ => h₂.unchanged_iff

end Accepts

/-- The checker takes no undeclared name for an `int`, and its symbols represent the context. -/
structure Checker.At (c : Checker) (Γ : Context) : Prop where
  strict : c.options.assumeIntParams = false
  represents : c.symbols.Represents Γ

/-! ### The operations of the checker -/

section Operations

variable {c : Checker} {Γ : Context} {name : String} {line : Nat}

/-- A report accepts nothing. -/
private theorem accepts_reportFault (c : Checker) (line : Nat) (fault : Fault) :
    Accepts c (c.reportFault line fault) False := by
  refine ⟨List.prefix_append _ _, ?_⟩
  simp [Checker.reportFault, Checker.record]

namespace Checker.At

private theorem reportFault (h : c.At Γ) (line : Nat) (fault : Fault) :
    (c.reportFault line fault).At Γ :=
  ⟨h.strict, h.represents⟩

private theorem declare (h : c.At Γ) (p : Param) : (c.declare p.name p.type).At (Γ.extend [p] []) :=
  ⟨h.strict, h.represents.declare p⟩

/-- Behind a phrase that declares nothing, the context is the one in front of it. -/
theorem extend_nil (h : c.At Γ) : c.At (Γ.extend [] []) := by
  rwa [Context.extend_nil]

private theorem openScope (h : c.At Γ) : c.openScope.At (Γ.enter []) :=
  ⟨h.strict, h.represents.openScope⟩

/-- The body of a function stands in a scope with its parameters, and can call the function. -/
private theorem openFunction (h : c.At Γ) (name : String) (type : Ty) (params : List Param) :
    (c.declareFunction name type params).openScope.At
      ((Γ.extend [] [(name, params)]).enter params) :=
  ⟨h.strict, h.represents.openFunction name type params⟩

/-- Behind a scope its variables are gone, and the functions declared in it stay. -/
private theorem closeScope {ds ds' : List Param} {hs : List (String × List Param)}
    (h : c.At ((Γ.enter ds).extend ds' hs)) : c.closeScope.At (Γ.extend [] hs) := by
  refine ⟨?_, ?_⟩
  · rw [c.options_closeScope]
    exact h.strict
  · rw [c.symbols_closeScope]
    exact h.represents.closeScope

/-- A variable is read without a report if it is declared, and is reported if it is not. -/
theorem typeOf_cases (h : c.At Γ) (name : String) (line : Nat) :
    (Γ.Declares name ∧ ∃ type, c.typeOf name line = (type, c) ∧ Γ.HasVariable name type) ∨
      (¬ Γ.Declares name ∧
        c.typeOf name line = (.unknown, c.reportFault line (.readUndeclared name))) := by
  rw [← h.represents.isDeclared_iff, Checker.typeOf]
  cases hlookup : c.symbols.lookup name with
  | some v =>
    have htype : c.symbols.typeOf name = .ok v.type := by simp [Symbols.typeOf, hlookup]
    refine .inl ⟨by simp [Symbols.isDeclared, hlookup], v.type, by rw [htype], ?_⟩
    exact h.represents.typeOf_eq_ok_iff.mp htype
  | none =>
    have htype : c.symbols.typeOf name = .error (.readUndeclared name) := by
      simp [Symbols.typeOf, hlookup]
    refine .inr ⟨by simp [Symbols.isDeclared, hlookup], ?_⟩
    rw [htype]
    simp [h.strict]

/-- An assignment to a variable that is not declared is reported. -/
theorem assign (h : c.At Γ) (name : String) (line : Nat) :
    (c.assign name line).At Γ ∧ Accepts c (c.assign name line) (Γ.Declares name) := by
  rw [Checker.assign]
  by_cases hdeclared : c.symbols.isDeclared name = true
  · obtain ⟨s', hs', hrepresents⟩ := h.represents.assign hdeclared
    rw [hs']
    exact ⟨⟨h.strict, hrepresents⟩, .of_eq rfl (h.represents.isDeclared_iff.mp hdeclared)⟩
  · rw [Symbols.assign_of_not_isDeclared hdeclared]
    refine ⟨h.reportFault _ _, (accepts_reportFault _ _ _).congr ?_⟩
    exact iff_of_false not_false fun hdeclares =>
      hdeclared (h.represents.isDeclared_iff.mpr hdeclares)

end Checker.At

end Operations

/-! ### Expressions -/

section Expressions

variable {ts : List Located} {c c' : Checker} {Γ : Context}

/-- An expression has one type at most. -/
private theorem HasType.unique {e : Expr} {σ τ : Ty} (h : HasType Γ e σ) (h' : HasType Γ e τ) :
    σ = τ := by
  induction h generalizing τ with
  | const => cases h'; rfl
  | var h =>
    cases h' with
    | var h' =>
      have heq := (Context.hasVariable_iff.mp h).symm.trans (Context.hasVariable_iff.mp h')
      simpa using heq
  | float _ _ hfloat ihl ihr =>
    cases h' with
    | float => rfl
    | int left right hint =>
      rw [← ihl left, ← ihr right] at hint
      exact absurd hfloat hint
  | int _ _ hint ihl ihr =>
    cases h' with
    | float left right hfloat =>
      rw [← ihl left, ← ihr right] at hfloat
      exact absurd hfloat hint
    | int => rfl
  | compare => cases h'; rfl

/-- An arithmetic node has the type that its operands determine. -/
theorem HasType.ofArith {op : ArithOp} {lhs rhs : Expr} (left : HasType Γ lhs lhs.type)
    (right : HasType Γ rhs rhs.type) :
    HasType Γ (.ofArith op lhs rhs) (Expr.ofArith op lhs rhs).type := by
  change HasType Γ _ (Expr.arithType lhs.type rhs.type)
  unfold Expr.arithType
  split
  · exact .float left right ‹_›
  · exact .int left right ‹_›

/-- An expression is read without a report exactly if its variables are declared, and then carries
its type. -/
theorem checks_readsExpr {n : Nat} {e : Expr} (h : ReadsExpr n ts c e c') (hc : c.At Γ) :
    c'.At Γ ∧ Accepts c c' (e.Scoped Γ) ∧ (e.Scoped Γ → HasType Γ e e.type) := by
  induction h with
  | @var _ line name c =>
    obtain ⟨hdeclares, type, heq, htype⟩ | ⟨hdeclares, heq⟩ := hc.typeOf_cases name line
    · rw [heq]
      exact ⟨hc, .of_eq rfl hdeclares, fun _ => .var htype⟩
    · rw [heq]
      refine ⟨hc.reportFault _ _, (accepts_reportFault _ _ _).congr ?_, fun h => absurd h hdeclares⟩
      exact iff_of_false not_false hdeclares
  | int | float => exact ⟨hc, .of_eq rfl trivial, fun _ => .const⟩
  | parens _ ih => exact ih hc
  | @binary _ _ _ op _ _ _ _ _ _ _ _ _ _ _ ihl ihr =>
    obtain ⟨hc₁, hleft, htypeL⟩ := ihl hc
    obtain ⟨hc', hright, htypeR⟩ := ihr hc₁
    cases op with
    | arith op =>
      exact ⟨hc', hleft.trans hright, fun h => .ofArith (htypeL h.1) (htypeR h.2)⟩
    | compare op => exact ⟨hc', hleft.trans hright, fun _ => .compare⟩

/-- The same for the arguments of a call. -/
theorem checks_readsList {args : List Expr} (h : ReadsList (ReadsExpr 0) ts c args c')
    (hc : c.At Γ) :
    c'.At Γ ∧ Accepts c c' (∀ e ∈ args, e.Scoped Γ) ∧
      ∀ e ∈ args, e.Scoped Γ → HasType Γ e e.type := by
  cases h with
  | nil => exact ⟨hc, .of_eq rfl (by simp), by simp⟩
  | items h =>
    induction h with
    | one h =>
      obtain ⟨hc', haccepts, htype⟩ := checks_readsExpr h hc
      exact ⟨hc', by simpa using haccepts, by simpa using htype⟩
    | cons h _ ih =>
      obtain ⟨hc₁, hfirst, htype⟩ := checks_readsExpr h hc
      obtain ⟨hc', hrest, htypes⟩ := ih hc₁
      refine ⟨hc', (hfirst.trans hrest).congr List.forall_mem_cons.symm, ?_⟩
      exact List.forall_mem_cons.mpr ⟨htype, htypes⟩

end Expressions

/-! ### Calls -/

section Calls

variable {c : Checker} {Γ : Context} {args : List Expr}

/-- Faults are reported one after the other, and nothing else changes. -/
theorem Checker.At.reportFaults (h : c.At Γ) (line : Nat) (faults : List Fault) :
    (faults.foldl (fun c fault => c.reportFault line fault) c).At Γ ∧
      Accepts c (faults.foldl (fun c fault => c.reportFault line fault) c) (faults = []) := by
  rw [Checker.foldl_reportFault]
  exact ⟨⟨h.strict, h.represents⟩, List.prefix_append _ _, by simp⟩

/-- Looking up the arguments again only adds reports. -/
theorem Checker.At.argTypes (h : c.At Γ) (line : Nat) (args : List Expr) :
    (c.argTypes line args).2.At Γ ∧ c.reports <+: (c.argTypes line args).2.reports := by
  induction args generalizing c with
  | nil => exact ⟨h, List.prefix_rfl⟩
  | cons e rest ih =>
    cases e with
    | var name type =>
      obtain ⟨-, type', heq, -⟩ | ⟨-, heq⟩ := h.typeOf_cases name line
      · simpa only [Checker.argTypes, heq] using ih h
      · obtain ⟨hc', hgrows⟩ := ih (h.reportFault line (.readUndeclared name))
        simp only [Checker.argTypes, heq]
        exact ⟨hc', (accepts_reportFault _ _ _).grows.trans hgrows⟩
    | const | arith | compare => exact ih h

/-- Arguments that carry their types are looked up again without a report and with the same
result. -/
theorem Checker.At.argTypes_eq (h : c.At Γ) (line : Nat)
    (htypes : ∀ e ∈ args, HasType Γ e e.type) :
    c.argTypes line args = (args.map Expr.type, c) := by
  induction args with
  | nil => rfl
  | cons e rest ih =>
    obtain ⟨htype, hrest⟩ := List.forall_mem_cons.mp htypes
    cases e with
    | var name type =>
      have hlookup : c.typeOf name line = (type, c) := by
        cases htype with
        | var hvariable =>
          rw [Checker.typeOf, h.represents.typeOf_eq_ok_iff.mpr hvariable]
          rfl
      simp only [Checker.argTypes, hlookup, ih hrest]
      rfl
    | const | arith | compare =>
      simp only [Checker.argTypes, ih hrest]
      rfl

/-- The arguments have the types of the parameters exactly if they carry them. -/
theorem forall₂_hasType_iff {types : List Ty} (htypes : ∀ e ∈ args, HasType Γ e e.type) :
    List.Forall₂ (HasType Γ) args types ↔ args.map Expr.type = types := by
  constructor
  · intro h
    induction h with
    | nil => rfl
    | cons hfirst _ ih =>
      obtain ⟨htype, htypes⟩ := List.forall_mem_cons.mp htypes
      rw [List.map_cons, htype.unique hfirst, ih htypes]
  · rintro rfl
    exact List.forall₂_map_right_iff.mpr (List.forall₂_same.mpr htypes)

/-- A call is checked with some types of the arguments, behind reports about the arguments. If the
arguments carry their types, there are no such reports and those are the types. -/
theorem Checker.At.call_eq (h : c.At Γ) (name : String) (args : List Expr) (line : Nat) :
    ∃ types c₁, c.call name args line =
        (c₁.symbols.callFaults name types).foldl (fun c fault => c.reportFault line fault) c₁ ∧
      c₁.At Γ ∧ c.reports <+: c₁.reports ∧
      ((∀ e ∈ args, HasType Γ e e.type) → types = args.map Expr.type ∧ c₁ = c) := by
  rw [Checker.call]
  by_cases harity : c.symbols.arity name = some args.length
  · obtain ⟨hc₁, hgrows⟩ := h.argTypes line args
    rw [if_pos harity]
    refine ⟨_, _, rfl, hc₁, hgrows, fun htypes => ?_⟩
    rw [h.argTypes_eq line htypes]
    exact ⟨rfl, rfl⟩
  · rw [if_neg harity]
    exact ⟨_, c, rfl, h, List.prefix_rfl, fun _ => ⟨rfl, rfl⟩⟩

/-- A call whose arguments carry their types is reported exactly if it does not fit the latest
header. -/
theorem Checker.At.call (h : c.At Γ) (name : String) (line : Nat)
    (htypes : ∀ e ∈ args, e.Scoped Γ → HasType Γ e e.type) :
    (c.call name args line).At Γ ∧ c.reports <+: (c.call name args line).reports ∧
      ((∀ e ∈ args, e.Scoped Γ) → ((c.call name args line).reports = c.reports ↔
        ∃ params, Γ.HasFunction name params ∧
          List.Forall₂ (HasType Γ) args (params.map (·.type)))) := by
  obtain ⟨types, c₁, heq, hc₁, hgrows, hcarried⟩ := h.call_eq name args line
  obtain ⟨hc', haccepts⟩ := hc₁.reportFaults line (c₁.symbols.callFaults name types)
  rw [heq]
  refine ⟨hc', hgrows.trans haccepts.grows, fun hscoped => ?_⟩
  have hall : ∀ e ∈ args, HasType Γ e e.type := fun e he => htypes e he (hscoped e he)
  obtain ⟨rfl, rfl⟩ := hcarried hall
  rw [haccepts.unchanged_iff, Symbols.callFaults_eq_nil_iff]
  refine exists_congr fun params => and_congr hc₁.represents.function_iff ?_
  exact (forall₂_hasType_iff hall).symm

end Calls

/-! ### Statements -/

section Statements

variable {ts : List Located} {c c' : Checker} {Γ : Context}

/-- A simple statement holds no function header. -/
theorem headers_of_readsSimple {st : Stmt} (h : ReadsSimple ts c st c') : st.headers = [] := by
  cases h <;> rfl

/-- **A simple statement is accepted exactly if it is well formed**, and leads to the context behind
it. -/
private theorem checks_readsSimple {st : Stmt} (h : ReadsSimple ts c st c') (hc : c.At Γ) :
    c'.At (Γ.after (.statement st)) ∧ Accepts c c' (WellFormed Γ (.statement st)) := by
  cases h with
  | @declare _ _ _ name type _ => exact ⟨hc.declare ⟨name, type⟩, .of_eq rfl .declare⟩
  | @declareAssign _ line' _ _ name type _ _ c₁ _ _ init =>
    obtain ⟨hc₁, haccepts, -⟩ := checks_readsExpr init hc
    obtain ⟨hc', hassign⟩ := (hc₁.declare ⟨name, type⟩).assign name line'
    refine ⟨hc', ?_⟩
    -- the variable has just been declared
    have hdeclares : (Γ.extend [⟨name, type⟩] []).Declares name :=
      ⟨Γ.innermost ++ [⟨name, type⟩], List.mem_cons_self, ⟨name, type⟩, by simp, rfl⟩
    have hsame : Accepts c₁ ((c₁.declare name type).assign name line') True :=
      ⟨hassign.grows, hassign.unchanged_iff.trans (iff_of_true hdeclares trivial)⟩
    exact (haccepts.trans hsame).congr (by rw [WellFormed.declareAssign_iff, and_true])
  | @assign line _ name _ _ _ _ value =>
    obtain ⟨hc₁, haccepts, -⟩ := checks_readsExpr value hc
    obtain ⟨hc', hassign⟩ := hc₁.assign name line
    exact ⟨hc'.extend_nil, (haccepts.trans hassign).congr WellFormed.assign_iff.symm⟩
  | @call line _ name _ _ _ _ hargs =>
    obtain ⟨hc₁, haccepts, htypes⟩ := checks_readsList hargs hc
    obtain ⟨hc', hgrows, hcall⟩ := hc₁.call name line htypes
    exact ⟨hc'.extend_nil, (haccepts.trans_of hgrows hcall).congr WellFormed.call_iff.symm⟩

/-- What the reading of a phrase says about the context and the reports. A block is entered with
some declarations, which are the parameters if it is the body of a function. -/
def Phrase.Checks (c c' : Checker) : Phrase → Prop
  | .block ss => ∀ (Γ : Context) (ds : List Param), c.openScope.At (Γ.enter ds) →
      c'.At (Γ.after (.block ss)) ∧ Accepts c c' (WellFormed (Γ.enter ds) (.body ss))
  | p => ∀ Γ : Context, c.At Γ → c'.At (Γ.after p) ∧ Accepts c c' (WellFormed Γ p)

/-- **Checking a phrase.** The context follows the text, and there are no reports exactly if the
phrase is well formed. -/
theorem checks_reads {p : Phrase} (h : Reads ts c p c') : p.Checks c c' := by
  induction h with
  | simple h => exact fun Γ hc => checks_readsSimple h hc
  | @function _ _ _ _ name type _ _ params c _ ss _ _ _ ih =>
    intro Γ hc
    -- the parameters wait for the scope that the body opens
    obtain ⟨hc', haccepts⟩ := ih _ params (hc.openFunction name type params)
    refine ⟨?_, (haccepts.congr WellFormed.function_iff.symm).of_reports rfl rfl⟩
    simpa [Context.after, Stmt.declarations, Stmt.headers] using hc'
  | ifThen condition _ ih =>
    intro Γ hc
    obtain ⟨hc₁, hcond, -⟩ := checks_readsExpr condition hc
    obtain ⟨hc', hbody⟩ := ih Γ [] hc₁.openScope
    refine ⟨hc', (hcond.trans hbody).congr ?_⟩
    rw [WellFormed.ifThen_iff, WellFormed.block_iff]
  | @ifElse _ _ _ _ _ _ _ _ _ _ _ _ ss ss' condition _ _ ih ih' =>
    intro Γ hc
    obtain ⟨hc₁, hcond, -⟩ := checks_readsExpr condition hc
    obtain ⟨hc₂, hbody⟩ := ih Γ [] hc₁.openScope
    obtain ⟨hc', hother⟩ := ih' _ [] hc₂.openScope
    refine ⟨?_, ((hcond.trans hbody).trans hother).congr ?_⟩
    · simpa [Context.after, Stmt.declarations, Stmt.headers] using hc'
    · rw [WellFormed.ifElse_iff, WellFormed.block_iff, WellFormed.block_iff]
  | loop condition _ ih =>
    intro Γ hc
    obtain ⟨hc₁, hcond, -⟩ := checks_readsExpr condition hc
    obtain ⟨hc', hbody⟩ := ih Γ [] hc₁.openScope
    refine ⟨hc', (hcond.trans hbody).congr ?_⟩
    rw [WellFormed.loop_iff, WellFormed.block_iff]
  | @forLoop _ _ _ _ _ _ _ _ _ c _ _ _ c' init step e ss hinit condition hstep _ ih =>
    intro Γ hc
    obtain ⟨hc₁, hacc₁⟩ := checks_readsSimple hinit hc.openScope
    obtain ⟨hc₂, hacc₂, -⟩ := checks_readsExpr condition hc₁
    -- in the text the step stands before the body, in the tree at its end
    obtain ⟨hc₃, hacc₃⟩ := checks_readsSimple hstep hc₂
    obtain ⟨hc₄, hacc₄⟩ := ih _ [] hc₃.openScope
    constructor
    · have hheaders : (Stmt.block [init, .loop e (ss ++ [step])]).headers = Stmt.headersAll ss := by
        simp [Stmt.headers, Stmt.headersAll, Stmt.headersAll_append,
          headers_of_readsSimple hinit, headers_of_readsSimple hstep]
      simp only [Context.after, Context.extend_extend, headers_of_readsSimple hinit,
        headers_of_readsSimple hstep] at hc₄
      rw [Context.after, hheaders]
      exact hc₄.closeScope
    · have hall := ((hacc₁.trans hacc₂).trans hacc₃).trans hacc₄
      rw [← WellFormed.block_iff, ← WellFormed.forLoop_iff rfl] at hall
      exact hall.of_reports rfl (Checker.reports_closeScope _)
  | ret value =>
    intro Γ hc
    obtain ⟨hc', haccepts, -⟩ := checks_readsExpr value hc
    exact ⟨hc'.extend_nil, haccepts.congr WellFormed.ret_iff.symm⟩
  | nil =>
    intro Γ hc
    exact ⟨hc.extend_nil, .of_eq rfl .nil⟩
  | cons _ _ ih ih' =>
    intro Γ hc
    obtain ⟨hc₁, hfirst⟩ := ih Γ hc
    obtain ⟨hc', hrest⟩ := ih' _ hc₁
    refine ⟨?_, (hfirst.trans hrest).congr WellFormed.cons_iff.symm⟩
    simpa [Context.after, Stmt.headersAll] using hc'
  | block _ ih =>
    intro Γ ds hc
    obtain ⟨hc', haccepts⟩ := ih _ hc
    exact ⟨hc'.closeScope, haccepts.of_reports rfl (Checker.reports_closeScope _)⟩

end Statements

/-- The run of the parser in a compilation. -/
theorem parse_of_compile {source : String} {options : Options} {p : Program}
    (hp : (compile source options).program = .ok p) :
    parse (scan source).tokens (Checker.recordScan { options } (scan source)) =
      (.ok p, (parse (scan source).tokens (Checker.recordScan { options } (scan source))).2) :=
  Prod.ext (program_compile source options ▸ hp) rfl

/-- The program of a clean compilation is well formed. -/
theorem wellFormed_of_isClean {source : String} {p : Program}
    (hparse : (compile source {}).program = .ok p) (hclean : (compile source {}).isClean = true) :
    p.WellFormed := by
  obtain ⟨c₁, hreads, hc₁⟩ := parse_eq_ok_iff.mp (parse_of_compile hparse)
  have hat : (Checker.recordScan {} (scan source)).At {} := by
    rw [Checker.recordScan, Checker.foldl_record]
    exact ⟨rfl, .empty⟩
  obtain ⟨-, haccepts⟩ := checks_reads hreads {} hat
  have hnil : c₁.reports = [] := by
    rw [Compilation.isClean, Bool.and_eq_true, List.isEmpty_iff, reports_compile, hc₁] at hclean
    exact hclean.2
  -- nothing has been reported at the end, and so nothing at the beginning
  have hstart := List.prefix_nil.mp (hnil ▸ haccepts.grows)
  exact haccepts.unchanged_iff.mp (hnil.trans hstart.symm)

/-- **Clean compilations.** A text that scans without a report and parses is compiled without a
diagnostic exactly if its program is well formed. -/
theorem isClean_compile_iff {source : String} {p : Program} (hscan : (scan source).reports = [])
    (hparse : (compile source {}).program = .ok p) :
    (compile source {}).isClean = true ↔ p.WellFormed := by
  have hstart : Checker.recordScan {} (scan source) =
      Checker.note {} (.scanned (scan source).tokens.length) := by
    rw [Checker.recordScan, hscan, List.foldl_nil]
  have hrun : parse (scan source).tokens (Checker.recordScan {} (scan source)) =
      (.ok p, (parse (scan source).tokens (Checker.recordScan {} (scan source))).2) :=
    Prod.ext hparse rfl
  obtain ⟨c₁, hreads, hc₁⟩ := parse_eq_ok_iff.mp hrun
  rw [hstart] at hreads
  obtain ⟨-, haccepts⟩ := checks_reads hreads {} ⟨rfl, .empty⟩
  have hreports : (compile source {}).reports = c₁.reports := by
    change (parse _ (Checker.recordScan {} (scan source))).2.reports = _
    rw [hc₁]
    rfl
  rw [Compilation.isClean, hparse, hreports]
  exact List.isEmpty_iff.trans haccepts.unchanged_iff

/-- A function that calls itself with its parameter, and a call of it. -/
def recursion : String := "int f(int n) \x7b f(n); \x7d f(1);"

/-- A function that calls itself is well formed, and is compiled without a diagnostic. -/
theorem isClean_compile_recursion :
    (scan recursion).reports = [] ∧
      ∃ p, (compile recursion {}).program = .ok p ∧ (compile recursion {}).isClean = true ∧
        p.WellFormed := by
  have hscan : (scan recursion).reports = [] := by decide +kernel
  have hclean : (compile recursion {}).isClean = true := by decide +kernel
  refine ⟨hscan, ?_⟩
  cases hparse : (compile recursion {}).program with
  | error e => simp [Compilation.isClean, hparse, Except.isOk, Except.toBool] at hclean
  | ok p => exact ⟨p, rfl, hclean, (isClean_compile_iff hscan hparse).mp hclean⟩

end TinyImp
