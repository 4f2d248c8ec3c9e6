import TinyImp.Proofs.Checking.Leniency
import TinyImp.Proofs.Checking.Lookups
import TinyImp.Proofs.Checking.Scoping
import TinyImp.Proofs.Execution.Blocks

/-!
# What a lenient compilation forgives

A lenient compilation takes an undeclared name for an `int` directly in the body of a function with
parameters, but only up to the first scope that is closed there: the mark that it keeps is not set
again behind the scope. Along the reading of a program the mark says whether the site forgives
(`Checker.Stands`), and so the types of undeclared names and the reports about them are those that
the sites of the lookups determine (`undeclared_forgiven_before_inner_scope`).
-/

namespace TinyImp

/-! ### Reports about undeclared names -/

/-- The undeclared name that the fault is about, if it is a read of one. -/
def Fault.undeclaredRead? : Fault → Option String
  | .readUndeclared name => some name
  | _ => none

/-- The undeclared name that the report is about, if it is about a read of one. -/
def Report.undeclaredRead? (r : Report) : Option String :=
  match r.problem with
  | .misuse fault => fault.undeclaredRead?
  | _ => none

/-- The undeclared names that are reported where they are read, in order. -/
def undeclaredReads (reports : List Report) : List String :=
  reports.filterMap Report.undeclaredRead?

private theorem undeclaredReads_append (first second : List Report) :
    undeclaredReads (first ++ second) = undeclaredReads first ++ undeclaredReads second :=
  List.filterMap_append

/-- A scan reports no name. -/
theorem undeclaredReads_ofLexemes (place : Place) (lexemes : List Lexeme) :
    undeclaredReads (Scan.ofLexemes place lexemes).reports = [] := by
  have hread (place : Place) (lexeme : Lexeme) :
      undeclaredReads (lexeme.read place).report.toList = [] := by
    fun_cases Lexeme.read place lexeme <;> simp_all [undeclaredReads, Report.undeclaredRead?]
  induction lexemes generalizing place with
  | nil => rfl
  | cons lexeme rest ih =>
    rw [Scan.ofLexemes, undeclaredReads_append, hread, ih, List.nil_append]

/-- The faults of a call are not about its arguments' names. -/
theorem Symbols.undeclaredRead?_of_mem_callFaults {s : Symbols} {name : String} {types : List Ty}
    {fault : Fault} (h : fault ∈ s.callFaults name types) : fault.undeclaredRead? = none := by
  unfold Symbols.callFaults at h
  split at h
  · obtain rfl := List.mem_singleton.mp h
    rfl
  · split at h
    · obtain rfl := List.mem_singleton.mp h
      rfl
    · obtain ⟨part, -, hpart⟩ := List.mem_filterMap.mp h
      grind [Fault.undeclaredRead?]

/-- The undeclared names that are reported between two states of the checker are those of the
lookups that are not forgiven, and all lookups have the types that they should have. -/
structure Tells (options : Options) (c c' : Checker) (ls : List Lookup) : Prop where
  settled : ∀ l ∈ ls, l.Settled options
  reported : undeclaredReads c'.reports = undeclaredReads c.reports ++ Lookup.blamed options ls

namespace Tells

variable {options : Options} {c c₁ c' : Checker} {first second : List Lookup}

/-- Other reports say nothing. -/
theorem nil (h : undeclaredReads c'.reports = undeclaredReads c.reports) : Tells options c c' [] :=
  ⟨by simp, by rw [h]; exact (List.append_nil _).symm⟩

/-- What is told in two steps is told in one, in order. -/
private theorem append (h₁ : Tells options c c₁ first) (h₂ : Tells options c₁ c' second) :
    Tells options c c' (first ++ second) := by
  refine ⟨List.forall_mem_append.mpr ⟨h₁.settled, h₂.settled⟩, ?_⟩
  rw [h₂.reported, h₁.reported, Lookup.blamed_append, List.append_assoc]

/-- A step that tells nothing can be left out. -/
private theorem trans_nil (h₁ : Tells options c c₁ first) (h₂ : Tells options c₁ c' []) :
    Tells options c c' first := by
  simpa using h₁.append h₂

/-- A lookup of a declared variable. -/
theorem declared {name : String} {type : Ty} {Γ : Context} {site : Site}
    (h : Γ.HasVariable name type) : Tells options c c [⟨name, type, Γ, site⟩] := by
  have hdeclares : Γ.Declares name := by
    rw [Context.declares_iff, Context.hasVariable_iff.mp h]
    rfl
  have hdeclared : ¬ (Lookup.mk name type Γ site).Undeclared := not_not.mpr hdeclares
  constructor
  · rw [List.forall_mem_singleton, Lookup.Settled, if_neg hdeclared]
    exact h
  · rw [Lookup.blamed_singleton, if_neg fun hl => hdeclared hl.1, List.append_nil]

/-- A lookup of a name that is taken for an `int`. -/
theorem forgiven {name : String} {Γ : Context} {site : Site} (h : ¬ Γ.Declares name)
    (hforgiven : options.assumeIntParams = true ∧ site = .paramBody false)
    (hreports : c'.reports = c.reports) : Tells options c c' [⟨name, .int, Γ, site⟩] := by
  have hundeclared : (Lookup.mk name .int Γ site).Undeclared := h
  have hforgiven : (Lookup.mk name .int Γ site).Forgiven options := hforgiven
  constructor
  · rw [List.forall_mem_singleton, Lookup.Settled, if_pos hundeclared, if_pos hforgiven]
  · rw [Lookup.blamed_singleton, if_neg fun hl => hl.2 hforgiven, List.append_nil, hreports]

/-- A lookup of a name that is reported. -/
theorem blamed {name : String} {Γ : Context} {site : Site} (h : ¬ Γ.Declares name)
    (hforgiven : ¬ (options.assumeIntParams = true ∧ site = .paramBody false))
    (hreports : undeclaredReads c'.reports = undeclaredReads c.reports ++ [name]) :
    Tells options c c' [⟨name, .unknown, Γ, site⟩] := by
  have hundeclared : (Lookup.mk name .unknown Γ site).Undeclared := h
  have hforgiven : ¬ (Lookup.mk name .unknown Γ site).Forgiven options := hforgiven
  constructor
  · rw [List.forall_mem_singleton, Lookup.Settled, if_pos hundeclared, if_neg hforgiven]
  · rw [Lookup.blamed_singleton, if_pos ⟨hundeclared, hforgiven⟩, hreports]

/-- Only the reports at both ends matter. -/
theorem of_reports {d d' : Checker} (h : Tells options c c' first) (hd : d.reports = c.reports)
    (hd' : d'.reports = c'.reports) : Tells options d d' first :=
  ⟨h.settled, by rw [hd, hd']; exact h.reported⟩

end Tells

/-! ### The operations of the checker -/

/-- **Where the checker stands.** Its symbols represent the context, and its mark says whether the
site forgives. -/
structure Checker.Stands (c : Checker) (options : Options) (Γ : Context) (site : Site) : Prop where
  options_eq : c.options = options
  represents : c.symbols.Represents Γ
  inParamScope_eq : c.symbols.inParamScope = site.forgives

/-- An assignment does not change in which kind of scope it is. -/
private theorem Symbols.inParamScope_of_assign {s s' : Symbols} {name : String}
    (h : s.assign name = .ok s') : s'.inParamScope = s.inParamScope := by
  unfold Symbols.assign at h
  split at h
  · cases h
    rfl
  · split at h
    · cases h
      rfl
    · cases h

namespace Checker.Stands

variable {c : Checker} {options : Options} {Γ : Context} {site : Site}

private theorem note (h : c.Stands options Γ site) (event : Event) :
    (c.note event).Stands options Γ site :=
  ⟨h.options_eq, h.represents, h.inParamScope_eq⟩

private theorem reportFault (h : c.Stands options Γ site) (line : Nat) (fault : Fault) :
    (c.reportFault line fault).Stands options Γ site :=
  ⟨h.options_eq, h.represents, h.inParamScope_eq⟩

private theorem declare (h : c.Stands options Γ site) (p : Param) :
    (c.declare p.name p.type).Stands options (Γ.extend [p] []) site :=
  ⟨h.options_eq, h.represents.declare p, h.inParamScope_eq⟩

/-- Behind a phrase that declares nothing, the context is the one in front of it. -/
theorem extend_nil (h : c.Stands options Γ site) : c.Stands options (Γ.extend [] []) site := by
  rwa [Context.extend_nil]

/-- A new scope is not one of parameters. -/
private theorem openScope (h : c.Stands options Γ site) :
    c.openScope.Stands options (Γ.enter []) .elsewhere := by
  refine ⟨h.options_eq, h.represents.openScope, ?_⟩
  change (!(c.symbols.pending.getD []).isEmpty) = false
  rw [h.represents.pending_eq]
  rfl

/-- The scope of a function has its parameters, if it has any. -/
private theorem openFunction (h : c.Stands options Γ site) (name : String) (type : Ty)
    (params : List Param) :
    (c.declareFunction name type params).openScope.Stands options
      ((Γ.extend [] [(name, params)]).enter params) (.ofBody params) :=
  ⟨h.options_eq, h.represents.openFunction name type params, (Site.forgives_ofBody params).symm⟩

/-- Behind a scope the mark is not set, whatever the site. -/
theorem closeScope {ds ds' : List Param} {hs : List (String × List Param)} {outer : Site}
    (h : c.Stands options ((Γ.enter ds).extend ds' hs) site) (houter : outer.forgives = false) :
    c.closeScope.Stands options (Γ.extend [] hs) outer := by
  have hmark : c.symbols.closeScope.inParamScope = outer.forgives := by
    rw [houter]
    unfold Symbols.closeScope
    split <;> rfl
  refine ⟨c.options_closeScope.trans h.options_eq, ?_, ?_⟩
  · rw [c.symbols_closeScope]
    exact h.represents.closeScope
  · rw [c.symbols_closeScope, hmark]

/-- **A lookup** of a variable. -/
theorem typeOf (h : c.Stands options Γ site) (name : String) (line : Nat) :
    (c.typeOf name line).2.Stands options Γ site ∧
      Tells options c (c.typeOf name line).2 [⟨name, (c.typeOf name line).1, Γ, site⟩] := by
  have hmark : (c.options.assumeIntParams && c.symbols.inParamScope) = true ↔
      options.assumeIntParams = true ∧ site = .paramBody false := by
    rw [h.options_eq, h.inParamScope_eq, Bool.and_eq_true, Site.forgives_iff]
  cases hlookup : c.symbols.typeOf name with
  | ok type =>
    have hvariable := h.represents.typeOf_eq_ok_iff.mp hlookup
    have heq : c.typeOf name line = (type, c) := by simp [Checker.typeOf, hlookup]
    rw [heq]
    exact ⟨h, .declared hvariable⟩
  | error fault =>
    obtain ⟨rfl, hundeclared⟩ : fault = .readUndeclared name ∧ ¬ Γ.Declares name := by
      rw [← h.represents.isDeclared_iff, Symbols.isDeclared]
      unfold Symbols.typeOf at hlookup
      split at hlookup
      · cases hlookup
      · obtain rfl := Except.error.inj hlookup
        simp [*]
    by_cases hforgiven : options.assumeIntParams = true ∧ site = .paramBody false
    · have heq : c.typeOf name line = (.int, c.note (.assumedInt line name)) := by
        simp only [Checker.typeOf, hlookup, if_pos (hmark.mpr hforgiven)]
      rw [heq]
      exact ⟨h.note _, .forgiven hundeclared hforgiven rfl⟩
    · have heq : c.typeOf name line = (.unknown, c.reportFault line (.readUndeclared name)) := by
        simp only [Checker.typeOf, hlookup, if_neg (hmark.not.mpr hforgiven)]
      rw [heq]
      exact ⟨h.reportFault _ _, .blamed hundeclared hforgiven (undeclaredReads_append _ _)⟩

/-- An assignment reads no name, and so tells of none. -/
private theorem assign (h : c.Stands options Γ site) (name : String) (line : Nat) :
    (c.assign name line).Stands options Γ site ∧ Tells options c (c.assign name line) [] := by
  rw [Checker.assign]
  by_cases hdeclared : c.symbols.isDeclared name = true
  · obtain ⟨s', hs', hrepresents⟩ := h.represents.assign hdeclared
    rw [hs']
    have hmark := (Symbols.inParamScope_of_assign hs').trans h.inParamScope_eq
    exact ⟨⟨h.options_eq, hrepresents, hmark⟩, .nil rfl⟩
  · rw [Symbols.assign_of_not_isDeclared hdeclared]
    refine ⟨h.reportFault _ _, .nil ?_⟩
    change undeclaredReads (c.reports ++ [_]) = _
    rw [undeclaredReads_append]
    exact List.append_nil _

/-- The table and the context agree on the number of parameters. -/
private theorem arity_eq (h : c.Stands options Γ site) (name : String) :
    c.symbols.arity name = Γ.arity name := by
  rw [Context.arity, ← h.represents.functions name, Option.map_map]
  rfl

/-- The arguments that are variables are looked up again. They have the types of the first lookup.
-/
theorem argTypes (h : c.Stands options Γ site) (line : Nat) (args : List Expr)
    (hsettled : ∀ l ∈ args.flatMap (·.lookupsAgain Γ site), l.Settled options) :
    (c.argTypes line args).2.Stands options Γ site ∧
      Tells options c (c.argTypes line args).2 (args.flatMap (·.lookupsAgain Γ site)) := by
  induction args generalizing c with
  | nil => exact ⟨h, .nil rfl⟩
  | cons e rest ih =>
    rw [List.flatMap_cons, List.forall_mem_append] at hsettled
    cases e with
    | var name type =>
      obtain ⟨hc₁, htells⟩ := h.typeOf name line
      obtain ⟨hc', hrest⟩ := ih hc₁ hsettled.2
      refine ⟨hc', Tells.append ⟨hsettled.1, ?_⟩ hrest⟩
      exact htells.reported.trans (congrArg _ (Lookup.blamed_retype ..))
    | const | arith | compare => exact ih h hsettled.2

/-- Faults that are not about a read. -/
theorem reportFaults (h : c.Stands options Γ site) (line : Nat) {faults : List Fault}
    (hfaults : ∀ fault ∈ faults, fault.undeclaredRead? = none) :
    (faults.foldl (fun c fault => c.reportFault line fault) c).Stands options Γ site ∧
      Tells options c (faults.foldl (fun c fault => c.reportFault line fault) c) [] := by
  have hnone : undeclaredReads (faults.map fun fault => ⟨line, .misuse fault⟩) = [] := by
    refine List.filterMap_eq_nil_iff.mpr fun r hr => ?_
    obtain ⟨fault, hfault, rfl⟩ := List.mem_map.mp hr
    exact hfaults fault hfault
  rw [foldl_reportFault]
  refine ⟨⟨h.options_eq, h.represents, h.inParamScope_eq⟩, .nil ?_⟩
  rw [undeclaredReads_append, hnone, List.append_nil]

/-- A call looks the variables among its arguments up again, if it has as many as there are
parameters. -/
private theorem call (h : c.Stands options Γ site) (name : String) (args : List Expr) (line : Nat)
    (hsettled : ∀ l ∈ args.flatMap (·.lookupsAgain Γ site), l.Settled options) :
    (c.call name args line).Stands options Γ site ∧
      Tells options c (c.call name args line)
        (if Γ.arity name = some args.length then args.flatMap (·.lookupsAgain Γ site) else []) := by
  rw [Checker.call, h.arity_eq name]
  by_cases harity : Γ.arity name = some args.length
  · rw [if_pos harity, if_pos harity]
    obtain ⟨hc₁, htells⟩ := h.argTypes line args hsettled
    obtain ⟨hc', hnone⟩ :=
      hc₁.reportFaults line fun _ => Symbols.undeclaredRead?_of_mem_callFaults
    exact ⟨hc', htells.trans_nil hnone⟩
  · rw [if_neg harity, if_neg harity]
    exact h.reportFaults line fun _ => Symbols.undeclaredRead?_of_mem_callFaults

end Checker.Stands

/-! ### Readings -/

section Readings

variable {ts : List Located} {c c' : Checker} {options : Options} {Γ : Context} {site : Site}

/-- **Reading an expression tells of its lookups.** -/
private theorem tells_readsExpr {n : Nat} {e : Expr} (h : ReadsExpr n ts c e c')
    (hc : c.Stands options Γ site) :
    c'.Stands options Γ site ∧ Tells options c c' (e.lookups Γ site) := by
  induction h with
  | var => exact hc.typeOf _ _
  | int | float => exact ⟨hc, .nil rfl⟩
  | parens _ ih => exact ih hc
  | @binary _ _ _ op _ _ _ _ _ _ _ _ _ _ _ ihl ihr =>
    obtain ⟨hc₁, hleft⟩ := ihl hc
    obtain ⟨hc', hright⟩ := ihr hc₁
    cases op with
    | arith op => exact ⟨hc', hleft.append hright⟩
    | compare op => exact ⟨hc', hleft.append hright⟩

/-- The lookups of arguments are in their order. -/
private theorem tells_readsList {args : List Expr} (h : ReadsList (ReadsExpr 0) ts c args c')
    (hc : c.Stands options Γ site) :
    c'.Stands options Γ site ∧ Tells options c c' (args.flatMap (·.lookups Γ site)) := by
  cases h with
  | nil => exact ⟨hc, .nil rfl⟩
  | items h =>
    induction h with
    | one h => simpa using tells_readsExpr h hc
    | cons h _ ih =>
      obtain ⟨hc₁, hfirst⟩ := tells_readsExpr h hc
      obtain ⟨hc', hrest⟩ := ih hc₁
      exact ⟨hc', hfirst.append hrest⟩

/-- What is looked up again has been looked up before. -/
theorem Expr.lookupsAgain_subset (e : Expr) (Γ : Context) (site : Site) :
    e.lookupsAgain Γ site ⊆ e.lookups Γ site := by
  cases e <;> simp [lookupsAgain, lookups]

/-- A simple statement tells of its lookups, and changes context and site behind it. -/
private theorem tells_readsSimple {s : Stmt} (h : ReadsSimple ts c s c')
    (hc : c.Stands options Γ site) :
    c'.Stands options (Γ.after (.statement s)) (site.after s) ∧
      Tells options c c' (s.lookups Γ site) := by
  have hsite : site.after s = site := site.after_of_not_hasScope (by cases h <;> rfl)
  rw [hsite]
  cases h with
  | @declare _ _ _ name type _ => exact ⟨hc.declare ⟨name, type⟩, .nil rfl⟩
  | @declareAssign _ line' _ _ name type _ _ c₁ _ _ init =>
    obtain ⟨hc₁, htells⟩ := tells_readsExpr init hc
    obtain ⟨hc', hassign⟩ := (hc₁.declare ⟨name, type⟩).assign name line'
    have hnone : Tells options c₁ ((c₁.declare name type).assign name line') [] :=
      hassign.of_reports rfl rfl
    exact ⟨hc', htells.trans_nil hnone⟩
  | @assign line _ name _ _ _ _ value =>
    obtain ⟨hc₁, htells⟩ := tells_readsExpr value hc
    obtain ⟨hc', hassign⟩ := hc₁.assign name line
    exact ⟨hc'.extend_nil, htells.trans_nil hassign⟩
  | @call line _ name _ _ _ args hargs =>
    obtain ⟨hc₁, htells⟩ := tells_readsList hargs hc
    have hsettled : ∀ l ∈ args.flatMap (·.lookupsAgain Γ site), l.Settled options := by
      intro l hl
      obtain ⟨e, he, hl⟩ := List.mem_flatMap.mp hl
      exact htells.settled l (List.mem_flatMap.mpr ⟨e, he, e.lookupsAgain_subset Γ site hl⟩)
    obtain ⟨hc', hcall⟩ := hc₁.call name args line hsettled
    exact ⟨hc'.extend_nil, htells.append hcall⟩

/-- What the reading of a phrase says about its lookups. A block is entered with some declarations
and at some site, which are the parameters and that of a body if it is the body of a function. -/
def Phrase.Tells (options : Options) (c c' : Checker) : Phrase → Prop
  | .statement s => ∀ (Γ : Context) (site : Site), c.Stands options Γ site →
      c'.Stands options (Γ.after (.statement s)) (site.after s) ∧
        TinyImp.Tells options c c' (s.lookups Γ site)
  | .body ss => ∀ (Γ : Context) (site : Site), c.Stands options Γ site →
      (∃ site', c'.Stands options (Γ.after (.body ss)) site') ∧
        TinyImp.Tells options c c' (Lookups.inOrder (Stmt.lookupsEach ss) Γ site)
  | .block ss => ∀ (Γ : Context) (ds : List Param) (site outer : Site),
      c.openScope.Stands options (Γ.enter ds) site → outer.forgives = false →
      c'.Stands options (Γ.after (.block ss)) outer ∧
        TinyImp.Tells options c c' (Lookups.inOrder (Stmt.lookupsEach ss) (Γ.enter ds) site)

/-- **Reading a phrase.** The checker is always where the text is, and tells about every lookup what
its site determines. -/
theorem tells_reads {p : Phrase} (h : Reads ts c p c') : p.Tells options c c' := by
  induction h with
  | simple h => exact fun Γ site hc => tells_readsSimple h hc
  | @function _ _ _ _ name type _ _ params c _ ss _ _ _ ih =>
    intro Γ site hc
    -- the parameters wait for the scope that the body opens
    obtain ⟨hc', htells⟩ := ih _ params (.ofBody params)
      (site.after (.function name type params ss)) (hc.openFunction name type params)
      (site.forgives_after_of_hasScope rfl)
    refine ⟨?_, htells.of_reports rfl rfl⟩
    simpa [Context.after, Stmt.declarations, Stmt.headers] using hc'
  | @ifThen _ _ _ _ _ _ _ _ e ss condition _ ih =>
    intro Γ site hc
    obtain ⟨hc₁, hcondition⟩ := tells_readsExpr condition hc
    obtain ⟨hc', hbody⟩ := ih Γ [] .elsewhere (site.after (.ifThen e ss)) hc₁.openScope
      (site.forgives_after_of_hasScope rfl)
    exact ⟨hc', hcondition.append hbody⟩
  | @ifElse _ _ _ _ _ _ _ _ _ _ _ e ss ss' condition _ _ ih ih' =>
    intro Γ site hc
    obtain ⟨hc₁, hcondition⟩ := tells_readsExpr condition hc
    obtain ⟨hc₂, hbody⟩ := ih Γ [] .elsewhere .elsewhere hc₁.openScope rfl
    obtain ⟨hc', hotherwise⟩ := ih' _ [] .elsewhere (site.after (.ifElse e ss ss')) hc₂.openScope
      (site.forgives_after_of_hasScope rfl)
    refine ⟨?_, (hcondition.append hbody).append hotherwise⟩
    simpa [Context.after, Stmt.declarations, Stmt.headers] using hc'
  | @loop _ _ _ _ _ _ _ _ e ss condition _ ih =>
    intro Γ site hc
    obtain ⟨hc₁, hcondition⟩ := tells_readsExpr condition hc
    obtain ⟨hc', hbody⟩ := ih Γ [] .elsewhere (site.after (.loop e ss)) hc₁.openScope
      (site.forgives_after_of_hasScope rfl)
    exact ⟨hc', hcondition.append hbody⟩
  | @forLoop _ _ _ _ _ _ _ _ _ c _ _ _ c' init step e ss hinit condition hstep _ ih =>
    intro Γ site hc
    obtain ⟨hc₁, htells₁⟩ := tells_readsSimple hinit hc.openScope
    obtain ⟨hc₂, htells₂⟩ := tells_readsExpr condition hc₁
    -- in the text the step stands before the body, in the tree at its end
    obtain ⟨hc₃, htells₃⟩ := tells_readsSimple hstep hc₂
    obtain ⟨hc₄, htells₄⟩ := ih _ [] .elsewhere .elsewhere hc₃.openScope rfl
    constructor
    · have hheaders : (Stmt.block [init, .loop e (ss ++ [step])]).headers = Stmt.headersAll ss := by
        simp [Stmt.headers, Stmt.headersAll, Stmt.headersAll_append,
          headers_of_readsSimple hinit, headers_of_readsSimple hstep]
      simp only [Context.after, Context.extend_extend, headers_of_readsSimple hinit,
        headers_of_readsSimple hstep] at hc₄
      rw [Context.after, hheaders]
      exact hc₄.closeScope (site.forgives_after_of_hasScope rfl)
    · have hall := ((htells₁.append htells₂).append htells₃).append htells₄
      rw [Stmt.lookups_for]
      exact hall.of_reports rfl (Checker.reports_closeScope _)
  | ret value =>
    intro Γ site hc
    obtain ⟨hc', htells⟩ := tells_readsExpr value hc
    rw [site.after_of_not_hasScope rfl]
    exact ⟨hc'.extend_nil, htells⟩
  | nil =>
    intro Γ site hc
    exact ⟨⟨site, hc.extend_nil⟩, .nil rfl⟩
  | cons _ _ ih ih' =>
    intro Γ site hc
    obtain ⟨hc₁, hfirst⟩ := ih Γ site hc
    obtain ⟨⟨site', hc'⟩, hrest⟩ := ih' _ _ hc₁
    refine ⟨⟨site', ?_⟩, hfirst.append hrest⟩
    simpa [Context.after, Stmt.headersAll] using hc'
  | block _ ih =>
    intro Γ ds site outer hc houter
    obtain ⟨⟨site', hc'⟩, htells⟩ := ih _ _ hc
    exact ⟨hc'.closeScope houter, htells.of_reports rfl (Checker.reports_closeScope _)⟩

end Readings

/-! ### Compilations -/

/-- Where undeclared names can be forgiven, settled lookups of them are all of type `int` if none of
them stands behind a scope. -/
theorem Lookup.all_int_iff {options : Options} {ls : List Lookup}
    (hsettled : ∀ l ∈ ls, l.Settled options) (hoptions : options.assumeIntParams = true) :
    (∀ l ∈ ls, l.Undeclared → l.site ≠ .elsewhere → l.type = .int) ↔
      ∀ l ∈ ls, l.Undeclared → l.site ≠ .paramBody true := by
  have htype {l : Lookup} (hl : l ∈ ls) (hundeclared : l.Undeclared) :
      l.type = if l.site = .paramBody false then .int else .unknown := by
    have hl := hsettled l hl
    rw [Settled, if_pos hundeclared] at hl
    simpa only [Forgiven, hoptions, true_and] using hl
  constructor
  · intro hint l hl hundeclared hsite
    have hunknown := htype hl hundeclared
    rw [hint l hl hundeclared (by simp [hsite]), hsite] at hunknown
    cases hunknown
  · intro hbehind l hl hundeclared hsite
    have hsite : l.site = .paramBody false := by
      have hnot := hbehind l hl hundeclared
      cases hcases : l.site with
      | elsewhere => exact absurd hcases hsite
      | paramBody closed => cases closed <;> simp_all
    rw [htype hl hundeclared, if_pos hsite]

/-- The checker in front of a program. -/
theorem Checker.stands_recordScan (options : Options) (source : String) :
    (Checker.recordScan { options } (scan source)).Stands options {} .elsewhere ∧
      undeclaredReads (Checker.recordScan { options } (scan source)).reports = [] := by
  rw [Checker.recordScan, Checker.foldl_record]
  exact ⟨⟨rfl, .empty, rfl⟩, undeclaredReads_ofLexemes _ _⟩

/-- **What a compilation forgives.** For every text that parses, with whatever options: every
variable is looked up; each lookup has the type of the declaration or, if there is none, `int` where
it is forgiven and `unknown` where it is not; and the undeclared names that are reported are those
of the lookups that are not forgiven, in their order. So all undeclared names directly in the bodies
of functions with parameters are taken for an `int` by a lenient compilation if and only if none of
them stands behind a scope that has been closed in the same body. -/
theorem undeclared_forgiven_before_inner_scope {source : String} {options : Options} {p : Program}
    (hp : (compile source options).program = .ok p) :
    (∀ (name : String) (type : Ty), .var name type ∈ Stmt.exprNodes p.statements →
        ∃ l ∈ p.lookups, l.name = name ∧ l.type = type) ∧
      (∀ l ∈ p.lookups, l.Settled options) ∧
      undeclaredReads (compile source options).reports = Lookup.blamed options p.lookups ∧
      (options.assumeIntParams = true →
        ((∀ l ∈ p.lookups, l.Undeclared → l.site ≠ .elsewhere → l.type = .int) ↔
          ∀ l ∈ p.lookups, l.Undeclared → l.site ≠ .paramBody true)) := by
  have hrun : parse (scan source).tokens (Checker.recordScan { options } (scan source)) =
      (.ok p, (parse (scan source).tokens (Checker.recordScan { options } (scan source))).2) :=
    Prod.ext (program_compile source options ▸ hp) rfl
  obtain ⟨c₁, hreads, hc₁⟩ := parse_eq_ok_iff.mp hrun
  obtain ⟨hstart, hnone⟩ := Checker.stands_recordScan options source
  obtain ⟨-, htells⟩ := tells_reads hreads {} .elsewhere hstart
  have hreports : (compile source options).reports = c₁.reports := by
    rw [reports_compile, hc₁]
    rfl
  refine ⟨fun name type => p.exists_lookup, htells.settled, ?_, ?_⟩
  · rw [hreports, htells.reported, hnone, List.nil_append]
    rfl
  · exact Lookup.all_int_iff htells.settled

/-- A condition in front of the scope and a value behind it, neither of them declared. -/
def aroundScope : String := "int f(int a) \x7b if (q) \x7b \x7d return q; \x7d"

def aroundScopeTokens : List Located :=
  [.kwInt, .identifier "f", .openParen, .kwInt, .identifier "a", .closeParen, .openBrace, .kwIf,
    .openParen, .identifier "q", .closeParen, .openBrace, .closeBrace, .kwReturn, .identifier "q",
    .semicolon, .closeBrace].map fun w => ⟨w, 1⟩

def aroundScopeProgram : Program :=
  ⟨[.function "f" .int [⟨"a", .int⟩] [.ifThen (.var "q" .int) [], .ret (.var "q" .unknown)]]⟩

/-- The same name is an `int` in front of the scope and reported behind it. -/
theorem aroundScope_forgiven_once :
    (compile aroundScope .lenient).program = .ok aroundScopeProgram ∧
      aroundScopeProgram.lookups.map (·.site) = [.paramBody false, .paramBody true] ∧
      (∀ l ∈ aroundScopeProgram.lookups, l.Undeclared ∧ l.Settled .lenient) ∧
      undeclaredReads (compile aroundScope .lenient).reports = ["q"] := by
  have htokens : (scan aroundScope).tokens = aroundScopeTokens := by decide +kernel
  have hp : (compile aroundScope .lenient).program = .ok aroundScopeProgram := by
    rw [program_compile_of_scan htokens (by decide +kernel)]
    rfl
  obtain ⟨-, hsettled, hreported, -⟩ := undeclared_forgiven_before_inner_scope hp
  have hundeclared : ∀ l ∈ aroundScopeProgram.lookups, l.Undeclared := by decide
  exact ⟨hp, rfl, fun l hl => ⟨hundeclared l hl, hsettled l hl⟩, hreported⟩

/-- A value behind a scope, which nothing declares. -/
def behindScope : String := "int f(int a) \x7b if (a) \x7b \x7d return q; \x7d"

def behindScopeTokens : List Located :=
  [.kwInt, .identifier "f", .openParen, .kwInt, .identifier "a", .closeParen, .openBrace, .kwIf,
    .openParen, .identifier "a", .closeParen, .openBrace, .closeBrace, .kwReturn, .identifier "q",
    .semicolon, .closeBrace].map fun w => ⟨w, 1⟩

def behindScopeProgram : Program :=
  ⟨[.function "f" .int [⟨"a", .int⟩] [.ifThen (.var "a" .int) [], .ret (.var "q" .unknown)]]⟩

/-- **Not the whole body is forgiven.** An undeclared name directly in the body of a function with a
parameter is reported all the same, if a scope has been closed in front of it. -/
theorem behindScope_not_forgiven :
    (compile behindScope .lenient).program = .ok behindScopeProgram ∧
      (∃ l ∈ behindScopeProgram.lookups, l.name = "q" ∧ l.Undeclared ∧
        l.site = .paramBody true ∧ l.type = .unknown) ∧
      (compile behindScope .lenient).diagnostics.map (·.message) =
        ["Variable 'q' is undeclared"] := by
  have htokens : (scan behindScope).tokens = behindScopeTokens := by decide +kernel
  have hp : (compile behindScope .lenient).program = .ok behindScopeProgram := by
    rw [program_compile_of_scan htokens (by decide +kernel)]
    rfl
  exact ⟨hp, by decide, by decide +kernel⟩

end TinyImp
