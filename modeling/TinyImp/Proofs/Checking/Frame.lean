import TinyImp.Proofs.Checking.Scoping

/-!
# What a reading leaves alone

While a phrase is read, reports are only added, and all of them are about names. The scopes that are
open already keep their variables: none loses its type, and none that is initialized becomes
uninitialized again. New names come into the innermost scope only, and only from the declarations
that stand directly in the phrase; whatever is declared in a block, in the header of a loop or as a
parameter belongs to a scope that has been closed again behind the phrase.
-/

namespace TinyImp

/-! ### Scopes -/

namespace Scope

variable {scope scope' : Scope} {name : String}

/-- The variables of a scope are still there later on: they have the same type, and are still
initialized if they were. -/
def Keeps (scope scope' : Scope) : Prop :=
  ∀ name v, scope.lookup name = some v →
    ∃ v', scope'.lookup name = some v' ∧ v'.type = v.type ∧
      (v.initialized = true → v'.initialized = true)

/-- A scope keeps its variables, and the names that it declares later on are those and the given
ones. -/
structure Gains (names : List String) (scope scope' : Scope) : Prop where
  keeps : scope.Keeps scope'
  names_iff (name : String) :
    (scope'.lookup name).isSome = true ↔ (scope.lookup name).isSome = true ∨ name ∈ names

theorem Gains.refl (scope : Scope) : scope.Gains [] scope :=
  ⟨fun _ v hv => ⟨v, hv, rfl, id⟩, by simp⟩

/-- What is gained in two steps is gained in one. -/
theorem Gains.trans {scope₁ : Scope} {names names' : List String} (h : scope.Gains names scope₁)
    (h' : scope₁.Gains names' scope') : scope.Gains (names ++ names') scope' where
  keeps name v hv := by
    obtain ⟨v₁, hv₁, htype₁, hinit₁⟩ := h.keeps name v hv
    obtain ⟨v', hv', htype', hinit'⟩ := h'.keeps name v₁ hv₁
    exact ⟨v', hv', htype'.trans htype₁, fun hinit => hinit' (hinit₁ hinit)⟩
  names_iff name := by
    rw [h'.names_iff, h.names_iff, List.mem_append, or_assoc]

/-- A first declaration counts: a name that is there already keeps its entry. -/
theorem lookup_declare (scope : Scope) (name : String) (type : Ty) (other : String) :
    (scope.declare name type).lookup other =
      (scope.lookup other).or (if other = name then some { type } else none) := by
  unfold Scope.declare
  by_cases hother : other = name
  · subst hother
    cases hlookup : scope.lookup other with
    | some v => simp [hlookup]
    | none => simp
  · have hne : (other == name) = false := beq_false_of_ne hother
    split
    · simp
    · simp [List.lookup_cons, hne]

/-- A declaration gains its name. -/
private theorem gains_declare (scope : Scope) (name : String) (type : Ty) :
    scope.Gains [name] (scope.declare name type) where
  keeps other v hv := by
    refine ⟨v, ?_, rfl, id⟩
    rw [lookup_declare, hv]
    rfl
  names_iff other := by
    rw [lookup_declare]
    by_cases hother : other = name
    · simp [hother]
    · simp [hother]

/-- A mark gains no name. -/
private theorem gains_markInitialized (scope : Scope) (name : String) :
    scope.Gains [] (scope.markInitialized name) where
  keeps other v hv := by
    rw [lookup_markInitialized, hv]
    refine ⟨_, rfl, ?_, fun hinit => ?_⟩
    · split <;> rfl
    · split
      · rfl
      · exact hinit
  names_iff other := by
    rw [lookup_markInitialized, Option.isSome_map]
    simp

/-- A scope that gains no names has the same ones. -/
theorem Gains.isSome_lookup_eq (h : scope.Gains [] scope') (name : String) :
    (scope'.lookup name).isSome = (scope.lookup name).isSome := by
  have hname := h.names_iff name
  rw [Bool.eq_iff_iff, hname]
  simp

end Scope

/-- The enclosing scopes keep their variables and gain no names. -/
abbrev ScopesKept : List Scope → List Scope → Prop :=
  List.Forall₂ (Scope.Gains [])

theorem ScopesKept.refl (scopes : List Scope) : ScopesKept scopes scopes :=
  List.forall₂_same.mpr fun scope _ => .refl scope

/-- Scopes that are kept in two steps are kept in one. -/
theorem ScopesKept.trans {scopes scopes₁ scopes' : List Scope} (h : ScopesKept scopes scopes₁)
    (h' : ScopesKept scopes₁ scopes') : ScopesKept scopes scopes' := by
  induction h generalizing scopes' with
  | nil => exact h'
  | cons hfirst _ ih =>
    obtain ⟨scope, rest, hfirst', hrest', rfl⟩ := List.forall₂_cons_left_iff.mp h'
    exact .cons (hfirst.trans hfirst') (ih hrest')

/-- Marks keep all scopes. -/
private theorem scopesKept_markInitializedIn (name : String) (scopes : List Scope) :
    ScopesKept scopes (Symbols.markInitializedIn name scopes) := by
  induction scopes with
  | nil => exact .nil
  | cons scope rest ih =>
    unfold Symbols.markInitializedIn
    split
    · exact .cons (scope.gains_markInitialized name) (ScopesKept.refl rest)
    · exact .cons (.refl scope) ih

/-! ### Reports about names -/

namespace Checker

variable {c c₁ c' : Checker} {name : String} {line : Nat}

/-- Reports are only added, and those that are added are about names. -/
def Adds (c c' : Checker) : Prop :=
  ∃ added, c'.reports = c.reports ++ added ∧ ∀ r ∈ added, r.problem.kind = .semantic

/-- Nothing is added where the reports stay the same. -/
theorem Adds.of_eq (h : c'.reports = c.reports) : c.Adds c' :=
  ⟨[], by simp [h], by simp⟩

/-- Reports that are added one after the other are added together. -/
theorem Adds.trans (h : c.Adds c₁) (h' : c₁.Adds c') : c.Adds c' := by
  obtain ⟨added, hadded, hkind⟩ := h
  obtain ⟨added', hadded', hkind'⟩ := h'
  refine ⟨added ++ added', by rw [hadded', hadded, List.append_assoc], fun r hr => ?_⟩
  obtain hr | hr := List.mem_append.mp hr
  · exact hkind r hr
  · exact hkind' r hr

/-- The diagnostics grow as the reports do. -/
theorem Adds.diagnostics (h : c.Adds c') :
    ∃ added, c'.diagnostics = c.diagnostics ++ added ∧ ∀ d ∈ added, d.kind = .semantic := by
  obtain ⟨added, hadded, hkind⟩ := h
  refine ⟨added.map Report.diagnostic, ?_, fun d hd => ?_⟩
  · rw [Checker.diagnostics, hadded, List.map_append, Checker.diagnostics]
  · obtain ⟨r, hr, rfl⟩ := List.mem_map.mp hd
    exact hkind r hr

/-- Nothing happens but that reports are added. -/
structure Remarks (c c' : Checker) : Prop where
  symbols_eq : c'.symbols = c.symbols
  adds : c.Adds c'

theorem Remarks.refl (c : Checker) : c.Remarks c :=
  ⟨rfl, .of_eq rfl⟩

/-- Remarks that are made one after the other are made together. -/
private theorem Remarks.trans (h : c.Remarks c₁) (h' : c₁.Remarks c') : c.Remarks c' :=
  ⟨h'.symbols_eq.trans h.symbols_eq, h.adds.trans h'.adds⟩

/-- A note in the log is no report. -/
theorem remarks_note (c : Checker) (event : Event) : c.Remarks (c.note event) :=
  ⟨rfl, .of_eq rfl⟩

private theorem remarks_reportFault (c : Checker) (line : Nat) (fault : Fault) :
    c.Remarks (c.reportFault line fault) :=
  ⟨rfl, [⟨line, .misuse fault⟩], rfl, by simp [Problem.kind]⟩

/-- A lookup reports the name at most, and leaves the symbols alone. -/
theorem remarks_typeOf (c : Checker) (name : String) (line : Nat) :
    c.Remarks (c.typeOf name line).2 := by
  unfold Checker.typeOf
  split
  · exact .refl c
  · split
    · exact ⟨rfl, .of_eq rfl⟩
    · exact c.remarks_reportFault line _

/-- So do the lookups of arguments. -/
theorem remarks_argTypes (c : Checker) (line : Nat) (args : List Expr) :
    c.Remarks (c.argTypes line args).2 := by
  induction args generalizing c with
  | nil => exact .refl c
  | cons e rest ih =>
    cases e with
    | var name type => exact (c.remarks_typeOf name line).trans (ih _)
    | const | arith | compare => exact ih c

/-- Faults are reported without a change of symbols. -/
private theorem remarks_reportFaults (c : Checker) (line : Nat) (faults : List Fault) :
    c.Remarks (faults.foldl (fun c fault => c.reportFault line fault) c) := by
  rw [foldl_reportFault]
  refine ⟨rfl, faults.map fun fault => ⟨line, .misuse fault⟩, rfl, fun r hr => ?_⟩
  obtain ⟨fault, -, rfl⟩ := List.mem_map.mp hr
  rfl

/-- **A call changes no symbol**: whatever is wrong with it is reported. -/
theorem remarks_call (c : Checker) (name : String) (args : List Expr) (line : Nat) :
    c.Remarks (c.call name args line) := by
  rw [Checker.call]
  by_cases harity : c.symbols.arity name = some args.length
  · rw [if_pos harity]
    exact (c.remarks_argTypes line args).trans (remarks_reportFaults _ _ _)
  · rw [if_neg harity]
    exact c.remarks_reportFaults _ _

/-! ### The same scopes again -/

/-- The same scopes are open, the innermost has gained the given names, and no parameters are
pending if none were. -/
structure Balances (names : List String) (c c' : Checker) : Prop where
  adds : c.Adds c'
  innermost : c.symbols.innermost.Gains names c'.symbols.innermost
  enclosing : ScopesKept c.symbols.enclosing c'.symbols.enclosing
  pending : c.symbols.pending = none → c'.symbols.pending = none

namespace Balances

variable {names names' : List String}

/-- Reports do not open or close a scope. -/
theorem of_remarks (h : c.Remarks c') : c.Balances [] c' := by
  refine ⟨h.adds, ?_, ?_, ?_⟩
  · rw [h.symbols_eq]
    exact .refl _
  · rw [h.symbols_eq]
    exact ScopesKept.refl _
  · rw [h.symbols_eq]
    exact id

private theorem refl (c : Checker) : c.Balances [] c :=
  of_remarks (.refl c)

/-- Two steps that leave the same scopes open do so together, and what they declare adds up. -/
theorem trans (h : c.Balances names c₁) (h' : c₁.Balances names' c') :
    c.Balances (names ++ names') c' :=
  ⟨h.adds.trans h'.adds, h.innermost.trans h'.innermost, h.enclosing.trans h'.enclosing,
    fun hpending => h'.pending (h.pending hpending)⟩

/-- A declaration gives the innermost scope its name. -/
theorem declare (c : Checker) (name : String) (type : Ty) :
    c.Balances [name] (c.declare name type) :=
  ⟨.of_eq rfl, c.symbols.innermost.gains_declare name type, ScopesKept.refl _, id⟩

/-- An assignment marks a variable or reports a name, and declares nothing. -/
theorem assign (c : Checker) (name : String) (line : Nat) :
    c.Balances [] (c.assign name line) := by
  unfold Checker.assign Symbols.assign
  by_cases hinner : (c.symbols.innermost.lookup name).isSome = true
  · rw [if_pos hinner]
    exact ⟨.of_eq rfl, c.symbols.innermost.gains_markInitialized name, ScopesKept.refl _, id⟩
  · rw [if_neg hinner]
    by_cases hdeclared : c.symbols.isDeclared name = true
    · rw [if_pos hdeclared]
      exact ⟨.of_eq rfl, .refl _, scopesKept_markInitializedIn name _, id⟩
    · rw [if_neg hdeclared]
      exact of_remarks (c.remarks_reportFault line _)

/-- **A scope of its own.** What is declared in a scope is gone when it is closed, and the pending
parameters have been taken. -/
theorem inScope (h : c.openScope.Balances names c₁) :
    c.Balances [] c₁.closeScope ∧ c₁.closeScope.symbols.pending = none := by
  have hpending : c₁.symbols.pending = none := h.pending rfl
  obtain ⟨scope, rest, hinner, houter, henclosing⟩ := List.forall₂_cons_left_iff.mp h.enclosing
  have hclose : c₁.closeScope.symbols =
      { c₁.symbols with innermost := scope, enclosing := rest, inParamScope := false } := by
    rw [symbols_closeScope, Symbols.closeScope, henclosing]
  refine ⟨⟨?_, ?_, ?_, fun _ => ?_⟩, ?_⟩
  · exact h.adds.trans (.of_eq c₁.reports_closeScope)
  · rw [hclose]
    exact hinner
  · rw [hclose]
    exact houter
  · rw [hclose]
    exact hpending
  · rw [hclose]
    exact hpending

end Balances

end Checker

/-! ### Readings -/

variable {α : Type} {ts : List Located} {c c' : Checker}

/-- **Reading an expression declares nothing.** -/
private theorem remarks_readsExpr {m : Nat} {e : Expr} (h : ReadsExpr m ts c e c') :
    c.Remarks c' := by
  induction h with
  | var => exact Checker.remarks_typeOf _ _ _
  | int => exact .refl _
  | float => exact .refl _
  | parens _ ih => exact ih
  | binary _ _ _ _ ihl ihr => exact ihl.trans ihr

/-- Neither does reading a list of such items. -/
private theorem remarks_readsList {item : ReadingOf α}
    (hitem : ∀ {ts c a c'}, item ts c a c' → c.Remarks c') {as : List α}
    (h : ReadsList item ts c as c') : c.Remarks c' := by
  have hitems : ∀ {ts c as c'}, ReadsSeparated item ts c as c' → c.Remarks c' := by
    intro ts c as c' hreads
    induction hreads with
    | one hread => exact hitem hread
    | cons hread _ ih => exact (hitem hread).trans ih
  cases h with
  | nil => exact .refl c
  | items hreads => exact hitems hreads

/-- A simple statement declares its variable, if it declares one, in the innermost scope. -/
private theorem balances_readsSimple {s : Stmt} (h : ReadsSimple ts c s c') :
    c.Balances s.declared?.toList c' := by
  cases h with
  | declare => exact .declare _ _ _
  | declareAssign _ init =>
    exact (Checker.Balances.of_remarks (remarks_readsExpr init)).trans
      ((Checker.Balances.declare _ _ _).trans (.assign _ _ _))
  | assign value =>
    exact (Checker.Balances.of_remarks (remarks_readsExpr value)).trans (.assign _ _ _)
  | call hargs =>
    exact .of_remarks ((remarks_readsList remarks_readsExpr hargs).trans
      (Checker.remarks_call _ _ _ _))

/-- What a phrase declares in the scope in which it stands. A block leaves no parameters pending. -/
def Phrase.Balances (c c' : Checker) : Phrase → Prop
  | .statement s => c.Balances s.declared?.toList c'
  | .body ss => c.Balances (ss.filterMap Stmt.declared?) c'
  | .block _ => c.Balances [] c' ∧ c'.symbols.pending = none

/-- **A reading leaves the scopes balanced.** -/
theorem balances_reads {p : Phrase} (h : Reads ts c p c') : p.Balances c c' := by
  induction h with
  | simple h => exact balances_readsSimple h
  | function _ _ _ ih =>
    -- the header makes its parameters pending, and the body takes them
    obtain ⟨⟨hadds, hinner, houter, -⟩, hpending⟩ := ih
    exact ⟨hadds, hinner, houter, fun _ => hpending⟩
  | ifThen condition _ ih =>
    exact (Checker.Balances.of_remarks (remarks_readsExpr condition)).trans ih.1
  | ifElse condition _ _ ih ih' =>
    exact (Checker.Balances.of_remarks (remarks_readsExpr condition)).trans (ih.1.trans ih'.1)
  | loop condition _ ih =>
    exact (Checker.Balances.of_remarks (remarks_readsExpr condition)).trans ih.1
  | forLoop hinit condition hstep _ ih =>
    have hheader := (balances_readsSimple hinit).trans
      ((Checker.Balances.of_remarks (remarks_readsExpr condition)).trans
        ((balances_readsSimple hstep).trans ih.1))
    exact hheader.inScope.1
  | ret value => exact .of_remarks (remarks_readsExpr value)
  | nil => exact .refl _
  | @cons ts us c c₁ c' s ss _ _ ih ih' =>
    have hnames : (s :: ss).filterMap Stmt.declared? =
        s.declared?.toList ++ ss.filterMap Stmt.declared? := by
      cases hs : s.declared? <;> simp [hs]
    rw [Phrase.Balances, hnames]
    exact ih.trans ih'
  | block _ ih => exact ih.inScope

end TinyImp
