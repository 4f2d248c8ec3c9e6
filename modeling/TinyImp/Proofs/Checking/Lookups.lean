import TinyImp.Proofs.Checking.Represents
import TinyImp.Proofs.Code.Nodes

/-!
# Lookups

Every lookup of a variable, said of the finished tree alone: in the order of the text, each with the
context and the **site** where it stands. A site is directly in the body of a function with
parameters, or elsewhere, and in the first case it matters whether an earlier statement of the body
has had a scope of its own.

No variable is left out: each one that occurs in a program is looked up with the type that the tree
has for it (`Program.exists_lookup`).
-/

namespace TinyImp

/-! ### Sites -/

/-- Where a statement stands, as far as undeclared names are concerned. -/
inductive Site where
  | elsewhere
  /-- Directly in the body of a function with parameters. An earlier statement of the body may have
  closed a scope. -/
  | paramBody (closed : Bool)
  deriving DecidableEq

/-- The statement has a scope of its own. -/
def Stmt.hasScope : Stmt → Bool
  | .ifThen _ _ => true
  | .ifElse _ _ _ => true
  | .loop _ _ => true
  | .block _ => true
  | .function _ _ _ _ => true
  | _ => false

namespace Site

/-- The site at the beginning of the body of a function. -/
def ofBody (params : List Param) : Site :=
  if params.isEmpty then .elsewhere else .paramBody false

/-- The site behind a statement. -/
def after (s : Stmt) : Site → Site
  | .elsewhere => .elsewhere
  | .paramBody closed => .paramBody (closed || s.hasScope)

/-- An undeclared name can be forgiven at the site. -/
def forgives : Site → Bool
  | .elsewhere => false
  | .paramBody closed => !closed

/-- A site forgives directly in a body with parameters, as long as no scope has been closed there.
-/
theorem forgives_iff {site : Site} : site.forgives = true ↔ site = .paramBody false := by
  cases site <;> simp [forgives]

/-- A body forgives at its beginning exactly if the function has parameters. -/
theorem forgives_ofBody (params : List Param) : (ofBody params).forgives = !params.isEmpty := by
  unfold ofBody
  split
  · simp_all [forgives]
  · simp_all [forgives]

/-- Nothing is forgiven behind a scope. -/
theorem forgives_after_of_hasScope (site : Site) {s : Stmt} (h : s.hasScope = true) :
    (site.after s).forgives = false := by
  cases site <;> simp [after, forgives, h]

/-- Only a statement with a scope of its own changes the site. -/
theorem after_of_not_hasScope (site : Site) {s : Stmt} (h : s.hasScope = false) :
    site.after s = site := by
  cases site <;> simp [after, h]

end Site

/-! ### Lookups -/

instance (Γ : Context) (name : String) : Decidable (Γ.Declares name) :=
  decidable_of_iff _ Context.declares_iff.symm

/-- The number of parameters in the latest header of a function. -/
def Context.arity (Γ : Context) (name : String) : Option Nat :=
  (Γ.headers.reverse.lookup name).map List.length

/-- A lookup of a variable, with the type that the tree has for it. -/
structure Lookup where
  name : String
  type : Ty
  context : Context
  site : Site

namespace Lookup

/-- Nothing declares the name where it is looked up. -/
def Undeclared (l : Lookup) : Prop :=
  ¬ l.context.Declares l.name

instance (l : Lookup) : Decidable l.Undeclared :=
  inferInstanceAs (Decidable (¬ _))

/-- An undeclared name is taken for an `int` here. -/
def Forgiven (options : Options) (l : Lookup) : Prop :=
  options.assumeIntParams = true ∧ l.site = .paramBody false

instance (options : Options) (l : Lookup) : Decidable (l.Forgiven options) :=
  inferInstanceAs (Decidable (_ ∧ _))

/-- The type of the lookup: that of the declaration, or else what an undeclared name gets here. -/
def Settled (options : Options) (l : Lookup) : Prop :=
  if l.Undeclared then l.type = if l.Forgiven options then .int else .unknown
  else l.context.HasVariable l.name l.type

/-- The undeclared names among the lookups that are not forgiven, in order. -/
def blamed (options : Options) (ls : List Lookup) : List String :=
  (ls.filter fun l => l.Undeclared ∧ ¬ l.Forgiven options).map (·.name)

/-- Undeclared names are blamed in their order. -/
theorem blamed_append (options : Options) (first second : List Lookup) :
    blamed options (first ++ second) = blamed options first ++ blamed options second := by
  simp [blamed]

/-- A name is blamed if it is undeclared and not forgiven. -/
theorem blamed_singleton (options : Options) (l : Lookup) :
    blamed options [l] = if l.Undeclared ∧ ¬ l.Forgiven options then [l.name] else [] := by
  by_cases h : l.Undeclared ∧ ¬ l.Forgiven options
  · rw [if_pos h, blamed, List.filter_cons, if_pos (decide_eq_true h)]
    rfl
  · rw [if_neg h, blamed, List.filter_cons, if_neg (by simpa using h)]
    rfl

/-- Whether a name is blamed does not depend on its type. -/
theorem blamed_retype (options : Options) (name : String) (type type' : Ty) (Γ : Context)
    (site : Site) :
    blamed options [⟨name, type, Γ, site⟩] = blamed options [⟨name, type', Γ, site⟩] := by
  rw [blamed_singleton, blamed_singleton]
  rfl

end Lookup

/-- The lookups that a piece of a program leads to, by where it stands. -/
abbrev Lookups := Context → Site → List Lookup

/-- The lookups of an expression. -/
def Expr.lookups : Expr → Lookups
  | .const _, _, _ => []
  | .var name type, Γ, site => [⟨name, type, Γ, site⟩]
  | .arith _ _ lhs rhs, Γ, site => lhs.lookups Γ site ++ rhs.lookups Γ site
  | .compare _ lhs rhs, Γ, site => lhs.lookups Γ site ++ rhs.lookups Γ site

/-- An argument that is a variable is looked up once more for the call. -/
def Expr.lookupsAgain : Expr → Lookups
  | .var name type, Γ, site => [⟨name, type, Γ, site⟩]
  | _, _, _ => []

/-- The lookups of statements that follow each other. -/
def Lookups.inOrder : List (Stmt × Lookups) → Lookups
  | [], _, _ => []
  | part :: rest, Γ, site =>
    part.2 Γ site ++ inOrder rest (Γ.after (.statement part.1)) (site.after part.1)

mutual

/-- The lookups of a statement, in the order of the text. -/
def Stmt.lookups : Stmt → Lookups
  | .declare _ _, _, _ => []
  | .declareAssign _ _ init, Γ, site => init.lookups Γ site
  | .assign _ value, Γ, site => value.lookups Γ site
  | .ifThen e body, Γ, site =>
    e.lookups Γ site ++ Lookups.inOrder (Stmt.lookupsEach body) (Γ.enter []) .elsewhere
  | .ifElse e body otherwise, Γ, site =>
    e.lookups Γ site ++ Lookups.inOrder (Stmt.lookupsEach body) (Γ.enter []) .elsewhere ++
      Lookups.inOrder (Stmt.lookupsEach otherwise) ((Γ.after (.block body)).enter []) .elsewhere
  | .loop e body, Γ, site =>
    e.lookups Γ site ++ Lookups.inOrder (Stmt.lookupsEach body) (Γ.enter []) .elsewhere
  | .block [init, .loop e body], Γ, _ =>
    -- the last statement of the body is the step, which stands in the header in the text
    let header := (Γ.enter []).after (.statement init)
    let parts := Stmt.lookupsEach body
    let step := parts.getLast?.toList
    init.lookups (Γ.enter []) .elsewhere ++ e.lookups header .elsewhere ++
      Lookups.inOrder step header .elsewhere ++
      Lookups.inOrder parts.dropLast ((header.after (.body (step.map (·.1)))).enter []) .elsewhere
  | .block body, Γ, _ => Lookups.inOrder (Stmt.lookupsEach body) (Γ.enter []) .elsewhere
  | .function name _ params body, Γ, _ =>
    Lookups.inOrder (Stmt.lookupsEach body) ((Γ.extend [] [(name, params)]).enter params)
      (.ofBody params)
  | .call name args, Γ, site =>
    args.flatMap (·.lookups Γ site) ++
      if Γ.arity name = some args.length then args.flatMap (·.lookupsAgain Γ site) else []
  | .ret value, Γ, site => value.lookups Γ site

/-- Statements with their lookups. -/
def Stmt.lookupsEach : List Stmt → List (Stmt × Lookups)
  | [] => []
  | s :: rest => (s, s.lookups) :: Stmt.lookupsEach rest

end

/-- The lookups of a program, in the order of the text. -/
def Program.lookups (p : Program) : List Lookup :=
  Lookups.inOrder (Stmt.lookupsEach p.body) {} .elsewhere

private theorem Stmt.lookupsEach_append (ss rest : List Stmt) :
    Stmt.lookupsEach (ss ++ rest) = Stmt.lookupsEach ss ++ Stmt.lookupsEach rest := by
  induction ss with
  | nil => rfl
  | cons s ss ih => simp [Stmt.lookupsEach, ih]

/-- The lookups of a `for` loop, in the order of its text. -/
theorem Stmt.lookups_for (init step : Stmt) (e : Expr) (body : List Stmt) (Γ : Context)
    (site : Site) :
    (Stmt.block [init, .loop e (body ++ [step])]).lookups Γ site =
      init.lookups (Γ.enter []) .elsewhere ++
        e.lookups ((Γ.enter []).after (.statement init)) .elsewhere ++
        step.lookups ((Γ.enter []).after (.statement init)) .elsewhere ++
        Lookups.inOrder (Stmt.lookupsEach body)
          ((((Γ.enter []).after (.statement init)).after (.statement step)).enter [])
          .elsewhere := by
  simp [Stmt.lookups, Stmt.lookupsEach, Stmt.lookupsEach_append, Lookups.inOrder, Context.after,
    Stmt.headersAll]

/-! ### Every variable is looked up -/

section Coverage

variable {name : String} {type : Ty}

/-- The variables of an expression are looked up. -/
theorem Expr.mem_lookups {e : Expr} (h : .var name type ∈ e.nodes) (Γ : Context) (site : Site) :
    ⟨name, type, Γ, site⟩ ∈ e.lookups Γ site := by
  induction e with
  | const => simp [nodes] at h
  | var => simpa [nodes, lookups] using h
  | arith op type' lhs rhs ihl ihr =>
    simp only [nodes, List.mem_cons, reduceCtorEq, false_or, List.mem_append] at h
    exact List.mem_append.mpr (h.imp ihl ihr)
  | compare op lhs rhs ihl ihr =>
    simp only [nodes, List.mem_cons, reduceCtorEq, false_or, List.mem_append] at h
    exact List.mem_append.mpr (h.imp ihl ihr)

namespace Stmt

/-- Every variable of the statement is looked up, wherever the statement stands. -/
def LooksUp (s : Stmt) : Prop :=
  ∀ (name : String) (type : Ty), .var name type ∈ exprNodes s.nodes → ∀ (Γ : Context) (site : Site),
    ∃ l ∈ s.lookups Γ site, l.name = name ∧ l.type = type

/-- So it is of several statements, if it is of each. -/
theorem exists_mem_inOrder {ss : List Stmt} (h : ∀ s ∈ ss, s.LooksUp)
    (hvar : .var name type ∈ exprNodes (nodesAll ss)) (Γ : Context) (site : Site) :
    ∃ l ∈ Lookups.inOrder (lookupsEach ss) Γ site, l.name = name ∧ l.type = type := by
  induction ss generalizing Γ site with
  | nil => simp [nodesAll, exprNodes] at hvar
  | cons s rest ih =>
    obtain ⟨hs, hrest⟩ := List.forall_mem_cons.mp h
    rw [lookupsEach, Lookups.inOrder]
    rw [nodesAll, exprNodes_append, List.mem_append] at hvar
    rcases hvar with hvar | hvar
    · obtain ⟨l, hl, heq⟩ := hs name type hvar Γ site
      exact ⟨l, List.mem_append_left _ hl, heq⟩
    · obtain ⟨l, hl, heq⟩ := ih hrest hvar _ _
      exact ⟨l, List.mem_append_right _ hl, heq⟩

/-- A condition, and the lookups behind it. -/
theorem exists_lookup_of_condition {e : Expr} {ls : List Lookup} {Γ : Context} {site : Site}
    (h : .var name type ∈ e.nodes ∨ ∃ l ∈ ls, l.name = name ∧ l.type = type) :
    ∃ l ∈ e.lookups Γ site ++ ls, l.name = name ∧ l.type = type := by
  rcases h with hvar | ⟨l, hl, heq⟩
  · exact ⟨_, List.mem_append_left _ (e.mem_lookups hvar Γ site), rfl, rfl⟩
  · exact ⟨l, List.mem_append_right _ hl, heq⟩

/-- A statement without a block. -/
theorem looksUp_of_simple {s : Stmt} (hnodes : s.nodes = [s])
    (hlookups : ∀ e ∈ s.expressions, ∀ Γ site, e.lookups Γ site ⊆ s.lookups Γ site) :
    s.LooksUp := by
  intro name type hvar Γ site
  obtain ⟨e, he, hvar⟩ : ∃ e ∈ s.expressions, .var name type ∈ e.nodes := by
    simpa [hnodes, exprNodes] using hvar
  exact ⟨_, hlookups e he Γ site (e.mem_lookups hvar Γ site), rfl, rfl⟩

/-- A `for` loop. The step is the last statement of the body. -/
theorem looksUp_for {init : Stmt} {e : Expr} {body : List Stmt} (hinit : init.LooksUp)
    (hbody : ∀ s ∈ body, s.LooksUp) : (Stmt.block [init, .loop e body]).LooksUp := by
  intro name type hvar Γ site
  have hparts : .var name type ∈ exprNodes init.nodes ∨ .var name type ∈ e.nodes ∨
      .var name type ∈ exprNodes (nodesAll body) := by
    simpa [nodes, nodesAll, expressions] using hvar
  rcases hparts with hvar | hvar | hvar
  · obtain ⟨l, hl, heq⟩ := hinit name type hvar (Γ.enter []) .elsewhere
    exact ⟨l, by simp [lookups, hl], heq⟩
  · have hl := e.mem_lookups hvar ((Γ.enter []).after (.statement init)) .elsewhere
    exact ⟨⟨name, type, (Γ.enter []).after (.statement init), .elsewhere⟩,
      by simp [lookups, hl], rfl, rfl⟩
  · rcases List.eq_nil_or_concat' body with rfl | ⟨body, step, rfl⟩
    · simp [nodesAll, exprNodes] at hvar
    · rw [nodesAll_append, exprNodes_append, List.mem_append] at hvar
      rw [lookups_for]
      rcases hvar with hvar | hvar
      · obtain ⟨l, hl, heq⟩ := exists_mem_inOrder
          (fun s hs => hbody s (List.mem_append_left _ hs)) hvar
          ((((Γ.enter []).after (.statement init)).after (.statement step)).enter []) .elsewhere
        exact ⟨l, List.mem_append_right _ hl, heq⟩
      · obtain ⟨l, hl, heq⟩ := hbody step (by simp) name type (by simpa [nodesAll] using hvar)
          ((Γ.enter []).after (.statement init)) .elsewhere
        exact ⟨l, List.mem_append_left _ (List.mem_append_right _ hl), heq⟩

/-- What the recursion carries: a block may be a `for` loop, which looks into its second
statement. -/
structure Covered (s : Stmt) : Prop where
  looksUp : s.LooksUp
  loop : ∀ e body, s = .loop e body → ∀ t ∈ body, t.LooksUp

mutual

private theorem covered : (s : Stmt) → s.Covered
  | .declare _ _ => ⟨looksUp_of_simple rfl (by simp [expressions]), nofun⟩
  | .declareAssign _ _ init => ⟨looksUp_of_simple rfl (by simp [expressions, lookups]), nofun⟩
  | .assign _ value => ⟨looksUp_of_simple rfl (by simp [expressions, lookups]), nofun⟩
  | .ifThen e body => by
    have hbody := fun s hs => (coveredEach body s hs).looksUp
    refine ⟨fun name type hvar Γ site => exists_lookup_of_condition ?_, nofun⟩
    have hparts : .var name type ∈ e.nodes ∨ .var name type ∈ exprNodes (nodesAll body) := by
      simpa [nodes, expressions] using hvar
    exact hparts.imp_right fun hvar => exists_mem_inOrder hbody hvar _ _
  | .ifElse e body otherwise => by
    have hbody := fun s hs => (coveredEach body s hs).looksUp
    have hotherwise := fun s hs => (coveredEach otherwise s hs).looksUp
    refine ⟨fun name type hvar Γ site => ?_, nofun⟩
    have hparts : .var name type ∈ e.nodes ∨ .var name type ∈ exprNodes (nodesAll body) ∨
        .var name type ∈ exprNodes (nodesAll otherwise) := by
      simpa [nodes, expressions] using hvar
    rw [lookups, List.append_assoc]
    refine exists_lookup_of_condition (hparts.imp_right ?_)
    rintro (hvar | hvar)
    · obtain ⟨l, hl, heq⟩ := exists_mem_inOrder hbody hvar (Γ.enter []) .elsewhere
      exact ⟨l, List.mem_append_left _ hl, heq⟩
    · obtain ⟨l, hl, heq⟩ := exists_mem_inOrder hotherwise hvar
        ((Γ.after (.block body)).enter []) .elsewhere
      exact ⟨l, List.mem_append_right _ hl, heq⟩
  | .loop e body => by
    have hbody := fun s hs => (coveredEach body s hs).looksUp
    refine ⟨fun name type hvar Γ site => exists_lookup_of_condition ?_, ?_⟩
    · have hparts : .var name type ∈ e.nodes ∨ .var name type ∈ exprNodes (nodesAll body) := by
        simpa [nodes, expressions] using hvar
      exact hparts.imp_right fun hvar => exists_mem_inOrder hbody hvar _ _
    · rintro _ _ ⟨⟩
      exact hbody
  | .block body => by
    have hbody := coveredEach body
    refine ⟨?_, nofun⟩
    by_cases hfor : ∃ init e steps, body = [init, .loop e steps]
    · obtain ⟨init, e, steps, rfl⟩ := hfor
      exact looksUp_for (hbody init (by simp)).looksUp ((hbody _ (by simp)).loop e steps rfl)
    · intro name type hvar Γ site
      have hlookups : (Stmt.block body).lookups Γ site =
          Lookups.inOrder (lookupsEach body) (Γ.enter []) .elsewhere := by
        rw [lookups]
        exact fun init e steps h => hfor ⟨init, e, steps, h⟩
      rw [hlookups]
      exact exists_mem_inOrder (fun s hs => (hbody s hs).looksUp)
        (by simpa [nodes, expressions] using hvar) _ _
  | .function _ _ params body => by
    have hbody := fun s hs => (coveredEach body s hs).looksUp
    refine ⟨fun name type hvar Γ site => ?_, nofun⟩
    exact exists_mem_inOrder hbody (by simpa [nodes, expressions] using hvar) _ _
  | .call _ args => by
    refine ⟨looksUp_of_simple rfl fun e he Γ site l hl => ?_, nofun⟩
    exact List.mem_append_left _ (List.mem_flatMap.mpr ⟨e, he, hl⟩)
  | .ret value => ⟨looksUp_of_simple rfl (by simp [expressions, lookups]), nofun⟩

private theorem coveredEach : (ss : List Stmt) → ∀ s ∈ ss, s.Covered
  | [] => by simp
  | s :: rest => List.forall_mem_cons.mpr ⟨covered s, coveredEach rest⟩

end

end Stmt

end Coverage

/-- Every variable of a program is looked up. -/
theorem Program.exists_lookup (p : Program) {name : String} {type : Ty}
    (h : .var name type ∈ Stmt.exprNodes p.statements) :
    ∃ l ∈ p.lookups, l.name = name ∧ l.type = type :=
  Stmt.exists_mem_inOrder (fun s _ => s.covered.looksUp) h {} .elsewhere

end TinyImp
