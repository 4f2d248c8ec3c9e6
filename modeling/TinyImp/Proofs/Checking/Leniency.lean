import Mathlib.Logic.Relation
import TinyImp.Proofs.Checking.Frame
import TinyImp.Proofs.Checking.Resolve
import TinyImp.Proofs.Parsing.Lockstep

/-!
# The lenient option only ever forgives

With the lenient option an undeclared name may be taken for an `int` where the strict checker
reports it and gives it the type `unknown`. The two types never go further than the name itself: an
arithmetic result is a `float` only if an operand is, and `unknown` and `int` are both none. So the
two runs stay coupled (`forgiving`): the symbols are the same, and the reports of the lenient run
are those of the strict run but for some that are **forgiven** (`Forgiven`). Where a name is used as
an argument, a parameter of type `int` is content with it, and for one of type `float` the report
names the other type.

A strict run that reports nothing has taken no type from an undeclared name. It is then a lenient
run as well (`steady_reads`), and the trees are the same with all their types.
-/

namespace TinyImp

/-! ### Reports -/

/-- **Forgiven reports.** The second list is the first one without some reports of undeclared
variables and some of an `unknown` argument for a parameter of type `int`; and in some reports of an
`unknown` argument for a parameter of type `float` the argument is an `int`. -/
inductive Forgiven : List Report → List Report → Prop
  | nil : Forgiven [] []
  | keep (r : Report) {strict lenient : List Report} (h : Forgiven strict lenient) :
      Forgiven (r :: strict) (r :: lenient)
  | undeclared (line : Nat) (name : String) {strict lenient : List Report}
      (h : Forgiven strict lenient) :
      Forgiven (⟨line, .misuse (.readUndeclared name)⟩ :: strict) lenient
  | intExpected (line : Nat) (name : String) (position : Nat) {strict lenient : List Report}
      (h : Forgiven strict lenient) :
      Forgiven (⟨line, .misuse (.argumentType name position .int .unknown)⟩ :: strict) lenient
  | floatExpected (line : Nat) (name : String) (position : Nat) {strict lenient : List Report}
      (h : Forgiven strict lenient) :
      Forgiven (⟨line, .misuse (.argumentType name position .float .unknown)⟩ :: strict)
        (⟨line, .misuse (.argumentType name position .float .int)⟩ :: lenient)

namespace Forgiven

variable {S L S' L' : List Report}

private theorem refl (S : List Report) : Forgiven S S := by
  induction S with
  | nil => exact .nil
  | cons r S ih => exact .keep r ih

/-- Reports are forgiven part by part. -/
private theorem append (h : Forgiven S L) (h' : Forgiven S' L') : Forgiven (S ++ S') (L ++ L') := by
  induction h with
  | nil => exact h'
  | keep r _ ih => exact .keep r ih
  | undeclared line name _ ih => exact .undeclared line name ih
  | intExpected line name position _ ih => exact .intExpected line name position ih
  | floatExpected line name position _ ih => exact .floatExpected line name position ih

/-- No report is added. -/
theorem length_le (h : Forgiven S L) : L.length ≤ S.length := by
  induction h with
  | nil => exact Nat.le_refl 0
  | keep _ _ ih | floatExpected _ _ _ _ ih => exact Nat.succ_le_succ ih
  | undeclared _ _ _ ih | intExpected _ _ _ _ ih => exact Nat.le_succ_of_le ih

end Forgiven

/-! ### Types -/

/-- The types are the same, or `unknown` has been taken for `int`. -/
def Ty.Forgives (type type' : Ty) : Prop :=
  type' = type ∨ type = .unknown ∧ type' = .int

namespace Ty.Forgives

private theorem refl (type : Ty) : type.Forgives type := .inl rfl

/-- A `float` is one for both. -/
theorem float_iff {type type' : Ty} (h : type.Forgives type') : type' = .float ↔ type = .float := by
  obtain rfl | ⟨rfl, rfl⟩ := h
  · rfl
  · simp

/-- **Arithmetic forgets the difference.** -/
theorem arithType_eq {σ σ' τ τ' : Ty} (hσ : σ.Forgives σ') (hτ : τ.Forgives τ') :
    Expr.arithType σ' τ' = Expr.arithType σ τ := by
  simp only [Expr.arithType, hσ.float_iff, hτ.float_iff]

end Ty.Forgives

/-- The faults of a call, whatever the number of its first argument is. A parameter is an `int` or a
`float`. -/
theorem forgiven_argumentTypes {types types' : List Ty} (h : List.Forall₂ Ty.Forgives types types')
    (line : Nat) (name : String) (params : List Param)
    (hparams : ∀ p ∈ params, p.type = .int ∨ p.type = .float) (k : Nat) :
    let faults := fun types : List Ty =>
      ((List.zip types params).zipIdx k).filterMap fun ((got, param), i) =>
        if got = param.type then none else some (Fault.argumentType name (i + 1) param.type got)
    Forgiven ((faults types).map fun fault => ⟨line, .misuse fault⟩)
      ((faults types').map fun fault => ⟨line, .misuse fault⟩) := by
  induction h generalizing params k with
  | nil => exact .nil
  | @cons type type' types types' hfirst _ ih =>
    cases params with
    | nil => exact .nil
    | cons p params =>
      have hrest := ih params (fun q hq => hparams q (List.mem_cons_of_mem p hq)) (k + 1)
      intro faults
      simp only [faults, List.zip_cons_cons, List.zipIdx_cons, List.filterMap_cons]
      -- an `unknown` argument is wrong for every parameter, an `int` only for a `float`
      obtain rfl | ⟨rfl, rfl⟩ := hfirst
      · by_cases htype : type' = p.type
        · simpa [htype] using hrest
        · simpa [htype] using hrest.keep _
      · obtain hp | hp := hparams p List.mem_cons_self
        · simpa [hp] using hrest.intExpected line name (k + 1)
        · simpa [hp] using hrest.floatExpected line name (k + 1)

/-! ### The operations of two checkers -/

namespace Checker

/-- A strict checker and one that may be lenient have the same symbols, and the reports of the
second are forgiven ones of the first. -/
structure Forgives (c d : Checker) : Prop where
  strict : c.options.assumeIntParams = false
  symbols_eq : d.symbols = c.symbols
  reports : Forgiven c.reports d.reports
  params : ∀ name signature, c.symbols.function name = some signature →
    ∀ p ∈ signature.params, p.type = .int ∨ p.type = .float

/-! The options stay what they are. -/

theorem options_typeOf (c : Checker) (name : String) (line : Nat) :
    (c.typeOf name line).2.options = c.options := by
  unfold Checker.typeOf
  split
  · rfl
  · split <;> rfl

private theorem options_argTypes (c : Checker) (line : Nat) (args : List Expr) :
    (c.argTypes line args).2.options = c.options := by
  induction args generalizing c with
  | nil => rfl
  | cons e rest ih =>
    cases e with
    | var name type => exact (ih _).trans (c.options_typeOf name line)
    | const | arith | compare => exact ih c

/-- A call does not touch the options. -/
theorem options_call (c : Checker) (name : String) (args : List Expr) (line : Nat) :
    (c.call name args line).options = c.options := by
  rw [Checker.call]
  by_cases harity : c.symbols.arity name = some args.length
  · rw [if_pos harity]
    dsimp only
    rw [foldl_reportFault]
    exact c.options_argTypes line args
  · rw [if_neg harity]
    dsimp only
    rw [foldl_reportFault]

namespace Forgives

variable {c d : Checker}

/-- Whatever the logs are. -/
theorem of_reports {c' d' : Checker} (h : c.Forgives d) (hoptions : c'.options = c.options)
    (hc : c'.symbols = c.symbols) (hd : d'.symbols = d.symbols)
    (hreports : Forgiven c'.reports d'.reports) : c'.Forgives d' where
  strict := hoptions ▸ h.strict
  symbols_eq := by rw [hc, hd, h.symbols_eq]
  reports := hreports
  params := hc ▸ h.params

/-- A change of the symbols that leaves the functions alone. -/
theorem of_symbols {c' d' : Checker} (h : c.Forgives d) (hoptions : c'.options = c.options)
    (hsymbols : d'.symbols = c'.symbols) (hfunctions : c'.symbols.functions = c.symbols.functions)
    (hc : c'.reports = c.reports) (hd : d'.reports = d.reports) : c'.Forgives d' where
  strict := hoptions ▸ h.strict
  symbols_eq := hsymbols
  reports := by
    rw [hc, hd]
    exact h.reports
  params name signature hfunction := by
    rw [Symbols.function, hfunctions] at hfunction
    exact h.params name signature hfunction

/-- Both report the same. -/
theorem reportFault (h : c.Forgives d) (line : Nat) (fault : Fault) :
    (c.reportFault line fault).Forgives (d.reportFault line fault) :=
  h.of_reports rfl rfl rfl (h.reports.append (.refl _))

/-- The lenient checker may take an undeclared name to be an `int`, which the strict one reports. -/
private theorem typeOf (h : c.Forgives d) (name : String) (line : Nat) :
    (c.typeOf name line).1.Forgives (d.typeOf name line).1 ∧
      (c.typeOf name line).2.Forgives (d.typeOf name line).2 := by
  unfold Checker.typeOf Symbols.typeOf
  rw [h.symbols_eq, h.strict]
  cases c.symbols.lookup name with
  | some v => exact ⟨.refl _, h⟩
  | none =>
    simp only [Bool.false_and, Bool.false_eq_true, if_false]
    split
    · -- only the strict checker has something to report
      refine ⟨.inr ⟨rfl, rfl⟩, h.of_reports rfl rfl rfl ?_⟩
      have hreports := h.reports.append (.undeclared line name .nil)
      rwa [List.append_nil] at hreports
    · exact ⟨.refl _, h.reportFault line _⟩

private theorem assign (h : c.Forgives d) (name : String) (line : Nat) :
    (c.assign name line).Forgives (d.assign name line) := by
  unfold Checker.assign Symbols.assign
  rw [h.symbols_eq]
  by_cases hinner : (c.symbols.innermost.lookup name).isSome = true
  · rw [if_pos hinner]
    exact h.of_symbols rfl rfl rfl rfl rfl
  · rw [if_neg hinner]
    by_cases hdeclared : c.symbols.isDeclared name = true
    · rw [if_pos hdeclared]
      exact h.of_symbols rfl rfl rfl rfl rfl
    · rw [if_neg hdeclared]
      exact h.reportFault line _

/-- The types of arguments are the same, or `unknown` has been taken for `int`. -/
private theorem argTypes (h : c.Forgives d) (line : Nat) {args args' : List Expr}
    (hargs : List.Forall₂ (fun e e' => e'.erase = e.erase ∧ e.type.Forgives e'.type) args args') :
    List.Forall₂ Ty.Forgives (c.argTypes line args).1 (d.argTypes line args').1 ∧
      (c.argTypes line args).2.Forgives (d.argTypes line args').2 := by
  induction hargs generalizing c d with
  | nil => exact ⟨.nil, h⟩
  | @cons e e' args args' he _ ih =>
    obtain ⟨herase, htype⟩ := he
    cases e with
    | var name type =>
      -- the same name is looked up once more
      cases e' <;> simp only [Expr.erase, reduceCtorEq, Expr.var.injEq] at herase
      obtain ⟨rfl, -⟩ := herase
      obtain ⟨hfirst, hc⟩ := h.typeOf _ line
      exact ⟨.cons hfirst (ih hc).1, (ih hc).2⟩
    | const | arith | compare =>
      cases e' <;> simp only [Expr.erase, reduceCtorEq] at herase
      exact ⟨.cons htype (ih h).1, (ih h).2⟩

/-- Where the number of arguments is right, some faults may be forgiven. -/
theorem callFaults (h : c.Forgives d) (line : Nat) (name : String) {types types' : List Ty}
    (htypes : List.Forall₂ Ty.Forgives types types') :
    Forgiven ((c.symbols.callFaults name types).map fun fault => ⟨line, .misuse fault⟩)
      ((d.symbols.callFaults name types').map fun fault => ⟨line, .misuse fault⟩) := by
  unfold Symbols.callFaults
  rw [h.symbols_eq, ← htypes.length_eq]
  cases hfunction : c.symbols.function name with
  | none => exact .refl _
  | some signature =>
    dsimp only
    split
    · exact .refl _
    · exact forgiven_argumentTypes htypes line name _ (h.params name signature hfunction) 0

/-- The reports of a call are forgiven as those of its arguments are. -/
private theorem call (h : c.Forgives d) (name : String) {args args' : List Expr}
    (hargs : List.Forall₂ (fun e e' => e'.erase = e.erase ∧ e.type.Forgives e'.type) args args')
    (line : Nat) : (c.call name args line).Forgives (d.call name args' line) := by
  have hcheck : ∀ {c d : Checker}, c.Forgives d → ∀ {types types' : List Ty},
      List.Forall₂ Ty.Forgives types types' →
      ((c.symbols.callFaults name types).foldl (fun c fault => c.reportFault line fault) c).Forgives
        ((d.symbols.callFaults name types').foldl (fun c fault => c.reportFault line fault) d) := by
    intro c d h types types' htypes
    rw [foldl_reportFault, foldl_reportFault]
    exact h.of_reports rfl rfl rfl (h.reports.append (h.callFaults line name htypes))
  rw [Checker.call, Checker.call, h.symbols_eq, ← hargs.length_eq]
  by_cases harity : c.symbols.arity name = some args.length
  · rw [if_pos harity, if_pos harity]
    exact hcheck (h.argTypes line hargs).2 (h.argTypes line hargs).1
  · -- the arguments are not looked up again, and only their number is reported
    rw [if_neg harity, if_neg harity]
    exact hcheck h (List.forall₂_map_left_iff.mpr (List.forall₂_map_right_iff.mpr
      (hargs.imp fun _ _ he => he.2)))

/-- Both declare the function, whose parameters are an `int` or a `float`. -/
theorem declareFunction (h : c.Forgives d) (name : String) (type : Ty) {params : List Param}
    (hparams : ∀ p ∈ params, p.type = .int ∨ p.type = .float) :
    (c.declareFunction name type params).Forgives (d.declareFunction name type params) where
  strict := h.strict
  symbols_eq := congrArg (·.declareFunction name type params) h.symbols_eq
  reports := h.reports
  params other signature hfunction := by
    rw [Symbols.function] at hfunction
    change List.lookup other ((name, _) :: c.symbols.functions) = _ at hfunction
    rw [List.lookup_cons] at hfunction
    split at hfunction
    · obtain rfl := Option.some.inj hfunction
      exact hparams
    · exact h.params other signature hfunction

private theorem closeScope (h : c.Forgives d) : c.closeScope.Forgives d.closeScope := by
  refine h.of_symbols c.options_closeScope ?_ ?_ c.reports_closeScope d.reports_closeScope
  · rw [symbols_closeScope, symbols_closeScope, h.symbols_eq]
  · rw [symbols_closeScope, Symbols.closeScope]
    split <;> rfl

end Forgives

end Checker

/-- **Strictness and leniency are coupled.** -/
def forgiving : Coupling where
  checkers := Checker.Forgives
  exprs e e' := e'.erase = e.erase ∧ e.type.Forgives e'.type
  const value := ⟨rfl, .refl _⟩
  apply op {lhs lhs' rhs rhs'} hlhs hrhs := by
    refine ⟨op.erase_apply_congr hlhs.1 hrhs.1, .inl ?_⟩
    cases op with
    | arith op => exact Ty.Forgives.arithType_eq hlhs.2 hrhs.2
    | compare op => rfl
  typeOf h name line := ⟨⟨rfl, (h.typeOf name line).1⟩, (h.typeOf name line).2⟩
  declare h name type :=
    h.of_symbols rfl (congrArg (·.declare name type) h.symbols_eq) rfl rfl rfl
  assign h name line := h.assign name line
  call h name _ _ hargs line := h.call name hargs line
  declareFunction h name type _ hparams := h.declareFunction name type hparams
  openScope h := h.of_symbols rfl (congrArg Symbols.openScope h.symbols_eq) rfl rfl rfl
  closeScope h := h.closeScope
  note h _ := h.of_reports rfl rfl rfl h.reports

/-! ### Runs without a report -/

/-- The operation only adds reports, and what it does to the symbols depends on the symbols
alone. -/
structure Checker.Uniform (f : Checker → Checker) : Prop where
  options_eq (c : Checker) : (f c).options = c.options
  grows (c : Checker) : c.reports <+: (f c).reports
  symbols_congr {c d : Checker} (h : d.symbols = c.symbols) : (f d).symbols = (f c).symbols

namespace Checker.Uniform

/-- Uniform steps one after the other are uniform. -/
private theorem comp {f g : Checker → Checker} (hg : Uniform g) (hf : Uniform f) :
    Uniform fun c => g (f c) where
  options_eq c := (hg.options_eq (f c)).trans (hf.options_eq c)
  grows c := (hf.grows c).trans (hg.grows (f c))
  symbols_congr h := hg.symbols_congr (hf.symbols_congr h)

private theorem declare (name : String) (type : Ty) : Uniform (·.declare name type) where
  options_eq _ := rfl
  grows _ := List.prefix_rfl
  symbols_congr h := congrArg (·.declare name type) h

/-- A declaration of a function looks at nothing but the symbols. -/
theorem declareFunction (name : String) (type : Ty) (params : List Param) :
    Uniform (·.declareFunction name type params) where
  options_eq _ := rfl
  grows _ := List.prefix_rfl
  symbols_congr h := congrArg (·.declareFunction name type params) h

private theorem openScope : Uniform Checker.openScope where
  options_eq _ := rfl
  grows _ := List.prefix_rfl
  symbols_congr h := congrArg Symbols.openScope h

private theorem closeScope : Uniform Checker.closeScope where
  options_eq := options_closeScope
  grows c := c.reports_closeScope ▸ List.prefix_rfl
  symbols_congr h := by rw [symbols_closeScope, symbols_closeScope, h]

/-- An assignment that is reported leaves the symbols alone. -/
theorem assign (name : String) (line : Nat) : Uniform (·.assign name line) where
  options_eq c := by
    unfold Checker.assign
    split <;> rfl
  grows c := by
    unfold Checker.assign
    split
    · exact List.prefix_rfl
    · exact List.prefix_append _ _
  symbols_congr h := by
    unfold Checker.assign
    rw [h]
    split
    · rfl
    · exact h

/-- A call leaves the symbols alone, whatever the types of its arguments are. -/
theorem call (name : String) (args : List Expr) (line : Nat) :
    Uniform (·.call name args line) where
  options_eq c := c.options_call name args line
  grows c := by
    obtain ⟨added, hadded, -⟩ := (c.remarks_call name args line).adds
    exact ⟨added, hadded.symm⟩
  symbols_congr {c d} h := by
    rw [(d.remarks_call name args line).symbols_eq, (c.remarks_call name args line).symbols_eq, h]

end Checker.Uniform

/-- Reports are only added between two states of the checker, and the options stay. Where a strict
checker reports nothing, every checker with the same symbols can go the same way. -/
structure Steady (c c' : Checker) (way : Checker → Checker → Prop) : Prop where
  options_eq : c'.options = c.options
  grows : c.reports <+: c'.reports
  again : c.options.assumeIntParams = false → c'.reports = c.reports →
    ∀ d : Checker, d.symbols = c.symbols → ∃ d', way d d' ∧ d'.symbols = c'.symbols

namespace Steady

variable {c c₁ c' : Checker} {way way₁ way₂ : Checker → Checker → Prop}

private theorem refl (h : ∀ d, way d d) : Steady c c way :=
  ⟨rfl, List.prefix_rfl, fun _ _ d hd => ⟨d, h d, hd⟩⟩

/-- A reading that is steady is steady in every way that it implies. -/
private theorem mono (h : Steady c c' way₁) (hway : ∀ {d d'}, way₁ d d' → way d d') :
    Steady c c' way where
  options_eq := h.options_eq
  grows := h.grows
  again hstrict hreports d hd := by
    obtain ⟨d', hd', hsymbols⟩ := h.again hstrict hreports d hd
    exact ⟨d', hway hd', hsymbols⟩

/-- One way and then another. -/
theorem seq (h₁ : Steady c c₁ way₁) (h₂ : Steady c₁ c' way₂) :
    Steady c c' (Relation.Comp way₁ way₂) where
  options_eq := h₂.options_eq.trans h₁.options_eq
  grows := h₁.grows.trans h₂.grows
  again hstrict hreports d hd := by
    -- a report on the first part would still be there at the end
    have hfirst := reports_eq_of_grows h₁.grows h₂.grows hreports
    obtain ⟨d₁, hd₁, hsymbols₁⟩ := h₁.again hstrict hfirst d hd
    obtain ⟨d', hd', hsymbols'⟩ :=
      h₂.again (h₁.options_eq ▸ hstrict) (hreports.trans hfirst.symm) d₁ hsymbols₁
    exact ⟨d', ⟨d₁, hd₁, hd'⟩, hsymbols'⟩

/-- A single operation. -/
theorem of_uniform {f : Checker → Checker} (hf : Checker.Uniform f) (hway : ∀ d, way d (f d)) :
    Steady c (f c) way :=
  ⟨hf.options_eq c, hf.grows c, fun _ _ d hd => ⟨f d, hway d, hf.symbols_congr hd⟩⟩

/-- A way that ends with an operation. -/
theorem snoc {f : Checker → Checker} (h : Steady c c₁ way₁) (hf : Checker.Uniform f)
    (hway : ∀ {d d₁}, way₁ d d₁ → way d (f d₁)) : Steady c (f c₁) way := by
  have hlast : Steady c₁ (f c₁) fun d d' => d' = f d := of_uniform hf fun _ => rfl
  refine (h.seq hlast).mono ?_
  rintro d _ ⟨d₁, hd₁, rfl⟩
  exact hway hd₁

/-- A way that begins with an operation. -/
theorem cons {f : Checker → Checker} (h : Steady (f c) c' way) (hf : Checker.Uniform f) :
    Steady c c' fun d => way (f d) := by
  have hfirst : Steady c (f c) fun d d' => d' = f d := of_uniform hf fun _ => rfl
  refine (hfirst.seq h).mono ?_
  rintro d d' ⟨_, rfl, hd'⟩
  exact hd'

/-- **A variable that is read without a report** is declared, and its type is the same for all. -/
theorem typeOf (c : Checker) (name : String) (line : Nat) :
    Steady c (c.typeOf name line).2
      fun d d' => d.typeOf name line = ((c.typeOf name line).1, d') := by
  obtain ⟨-, added, hadded, -⟩ := c.remarks_typeOf name line
  refine ⟨c.options_typeOf name line, ⟨added, hadded.symm⟩, fun hstrict hreports d hd => ?_⟩
  unfold Checker.typeOf at hreports ⊢
  rw [hd]
  cases htype : c.symbols.typeOf name with
  | ok type => exact ⟨d, rfl, hd⟩
  | error fault => simp [htype, hstrict, Checker.reportFault, Checker.record] at hreports

end Steady

section Readings

variable {α : Type} {ts : List Located} {c c' : Checker}

/-- Without a report, an expression is read in the same way by every checker with the same symbols.
-/
private theorem steady_readsExpr {m : Nat} {e : Expr} (h : ReadsExpr m ts c e c') :
    Steady c c' (ReadsExpr m ts · e ·) := by
  induction h with
  | @var least line name c =>
    refine (Steady.typeOf c name line).mono fun {d d'} htype => ?_
    have hread : ReadsExpr least [⟨.identifier name, line⟩] d _ _ := .var
    rwa [htype] at hread
  | int => exact .refl fun _ => .int
  | float => exact .refl fun _ => .float
  | parens _ ih => exact ih.mono fun inner => .parens inner
  | binary hop hle _ _ ihl ihr =>
    exact (ihl.seq ihr).mono fun ⟨_, left, right⟩ => .binary hop hle left right

/-- So is a list of items that are. -/
private theorem steady_readsList {item : ReadingOf α} {as : List α} (h : ReadsList item ts c as c')
    (hitem : ∀ {ts c a c'}, item ts c a c' → Steady c c' (item ts · a ·)) :
    Steady c c' (ReadsList item ts · as ·) := by
  have hitems : ∀ {ts c as c'}, ReadsSeparated item ts c as c' →
      Steady c c' (ReadsSeparated item ts · as ·) := by
    intro ts c as c' hreads
    induction hreads with
    | one hread => exact (hitem hread).mono fun h => .one h
    | cons hread _ ih => exact ((hitem hread).seq ih).mono fun ⟨_, h, others⟩ => .cons h others
  cases h with
  | nil => exact .refl fun _ => .nil
  | items hreads => exact (hitems hreads).mono fun h => .items h

private theorem steady_readsParam {p : Param} (h : ReadsParam ts c p c') :
    Steady c c' (ReadsParam ts · p ·) := by
  cases h with
  | mk htype => exact .refl fun _ => .mk htype

/-- So is a simple statement. -/
private theorem steady_readsSimple {s : Stmt} (h : ReadsSimple ts c s c') :
    Steady c c' (ReadsSimple ts · s ·) := by
  cases h with
  | declare htype => exact .of_uniform (.declare _ _) fun _ => .declare htype
  | declareAssign htype init =>
    exact (steady_readsExpr init).snoc ((Checker.Uniform.assign _ _).comp (.declare _ _))
      fun init => .declareAssign htype init
  | assign value => exact (steady_readsExpr value).snoc (.assign _ _) fun value => .assign value
  | call hargs =>
    exact (steady_readsList hargs steady_readsExpr).snoc (.call _ _ _) fun hargs => .call hargs

/-- **A strict reading without a report** is one for every checker with the same symbols. -/
theorem steady_reads {p : Phrase} (h : Reads ts c p c') : Steady c c' (Reads ts · p ·) := by
  induction h with
  | simple h => exact (steady_readsSimple h).mono fun h => .simple h
  | function htype hparams _ ih =>
    refine ((steady_readsList hparams steady_readsParam).seq
      (ih.cons (.declareFunction _ _ _))).mono ?_
    rintro d d' ⟨d₁, hparams, body⟩
    -- the checker hears of the parameters only when the function is declared
    obtain rfl := Parser.readsList_readsParam_checker hparams
    exact .function htype hparams body
  | ifThen condition _ ih =>
    exact ((steady_readsExpr condition).seq ih).mono fun ⟨_, condition, body⟩ =>
      .ifThen condition body
  | ifElse condition _ _ ih ih' =>
    exact ((steady_readsExpr condition).seq (ih.seq ih')).mono
      fun ⟨_, condition, _, body, otherwise⟩ => .ifElse condition body otherwise
  | loop condition _ ih =>
    exact ((steady_readsExpr condition).seq ih).mono fun ⟨_, condition, body⟩ =>
      .loop condition body
  | forLoop hinit condition hstep _ ih =>
    have hheader := (steady_readsSimple hinit).seq ((steady_readsExpr condition).seq
      ((steady_readsSimple hstep).seq ih))
    exact (hheader.cons .openScope).snoc .closeScope
      fun ⟨_, hinit, _, condition, _, hstep, body⟩ => .forLoop hinit condition hstep body
  | ret value => exact (steady_readsExpr value).mono fun value => .ret value
  | nil => exact .refl fun _ => .nil
  | cons _ _ ih ih' => exact (ih.seq ih').mono fun ⟨_, first, rest⟩ => .cons first rest
  | block _ ih => exact (ih.cons .openScope).snoc .closeScope fun body => .block body

/-- A strict parse without a report builds the tree that every checker with the same symbols
builds. -/
theorem parse_eq_of_reports_eq_nil {p : Program} (h : parse ts c = (.ok p, c'))
    (hstrict : c.options.assumeIntParams = false) (hreports : c'.reports = [])
    {d : Checker} (hd : d.symbols = c.symbols) : (parse ts d).1 = .ok p := by
  obtain ⟨c₁, hreads, rfl⟩ := parse_eq_ok_iff.mp h
  have hsteady := steady_reads hreads
  have hend : c₁.reports = [] := hreports
  have hstart : c.reports = [] := List.prefix_nil.mp (hend ▸ hsteady.grows)
  obtain ⟨d₁, hreads', -⟩ := hsteady.again hstrict (hend.trans hstart.symm) d hd
  rw [parse_eq_ok_iff.mpr ⟨d₁, hreads', rfl⟩]

end Readings

/-! ### Two compilations -/

/-- Undeclared names are reported. -/
def Options.strict : Options := { assumeIntParams := false }

/-- Undeclared names may be taken for an `int`. -/
def Options.lenient : Options := { assumeIntParams := true }

/-- The symbols at the end of a compilation. -/
def finalSymbols (source : String) (options : Options) : Symbols :=
  (Checker.parseSource { options } source).2.2.symbols

/-- The two checkers have heard of the same text. -/
theorem forgives_recordScan (scanned : Scan) :
    (Checker.recordScan { options := .strict } scanned).Forgives
      (Checker.recordScan { options := .lenient } scanned) := by
  rw [Checker.recordScan, Checker.recordScan, Checker.foldl_record, Checker.foldl_record]
  refine ⟨rfl, rfl, .refl _, fun name signature hfunction => ?_⟩
  cases hfunction

/-- **Leniency only forgives.** For every text, the reports of the lenient compilation are those of
the strict one, in their order, but for some that are forgiven; there are not more of them. If the
strict compilation has no diagnostic, the lenient one has none either, and the programs are the same
with all their types. The symbols are the same at the end in any case. -/
theorem lenient_only_forgives (source : String) :
    Forgiven (compile source .strict).reports (compile source .lenient).reports ∧
      (compile source .lenient).diagnostics.length ≤ (compile source .strict).diagnostics.length ∧
      ((compile source .strict).diagnostics = [] →
        (compile source .lenient).diagnostics = [] ∧
          (compile source .lenient).program = (compile source .strict).program) ∧
      finalSymbols source .lenient = finalSymbols source .strict := by
  -- the whole text is one coupled run; an error is the same for both
  have hstart := forgives_recordScan (scan source)
  obtain ⟨hforgives, herror⟩ := forgiving.parse hstart (scan source).tokens
  have hreports : Forgiven (compile source .strict).reports (compile source .lenient).reports := by
    rw [reports_compile, reports_compile]
    exact hforgives.reports
  have hlength : (compile source .lenient).diagnostics.length ≤
      (compile source .strict).diagnostics.length := by
    simpa [Compilation.diagnostics] using hreports.length_le
  refine ⟨hreports, hlength, fun hclean => ⟨?_, ?_⟩, hforgives.symbols_eq⟩
  · rw [hclean] at hlength
    exact List.length_eq_zero_iff.mp (Nat.le_zero.mp hlength)
  · have hnone : (compile source .strict).reports = [] := List.map_eq_nil_iff.mp hclean
    rw [reports_compile] at hnone
    rw [program_compile, program_compile]
    generalize hrun : parse (scan source).tokens
      (Checker.recordScan { options := .strict } (scan source)) = outcome at hnone herror ⊢
    obtain ⟨result, c'⟩ := outcome
    cases result with
    | error e => exact (herror e).mp rfl
    | ok p => exact parse_eq_of_reports_eq_nil hrun hstart.strict hnone hstart.symbols_eq

/-- A call with two arguments that nothing declares, in the body of a function with a parameter. -/
def missingArguments : String :=
  "int g(int a, float b) \x7b \x7d int f(int n) \x7b g(m, m); \x7d"

/-- All that the lenient checker has to say is that the second argument should be a `float`. Of a
clean text it makes the same program. -/
theorem missingArguments_forgiven :
    (compile missingArguments .strict).reports.length = 6 ∧
      (compile missingArguments .lenient).reports =
        [⟨1, .misuse (.argumentType "g" 2 .float .int)⟩] ∧
      Forgiven (compile missingArguments .strict).reports
        (compile missingArguments .lenient).reports ∧
      (compile recursion .strict).diagnostics = [] ∧
      (compile recursion .lenient).program = (compile recursion .strict).program := by
  obtain ⟨-, -, hclean, -⟩ := lenient_only_forgives recursion
  have hnil : (compile recursion .strict).diagnostics = [] := by decide +kernel
  exact ⟨by decide +kernel, by decide +kernel, (lenient_only_forgives missingArguments).1, hnil,
    (hclean hnil).2⟩

end TinyImp
