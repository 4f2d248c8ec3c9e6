import TinyImp.Proofs.Checking.Resolve
import TinyImp.Proofs.Parsing.Completeness

/-!
# Checking while parsing is resolution afterwards

The checker follows the parser token by token. A step of resolution **follows** the checker from
one state to another if it takes every state of resolution that mirrors the first to one that
mirrors the second. Each operation of the checker is followed by its counterpart, sequences of steps
follow sequences of operations, and so the resolution of the erased tree follows the reading that
built the tree (`follows_reads`).
-/

namespace TinyImp

/-- Resolution and checker agree on options and symbols, and the faults found are those reported
behind the reports `base`. -/
structure Mirrors (base : List Report) (c : Checker) (r : Resolution) : Prop where
  options_eq : r.options = c.options
  symbols_eq : r.symbols = c.symbols
  reports_eq : ∃ added, c.reports = base ++ added ∧
    added.map (·.problem) = r.faults.map Problem.misuse

/-- The log is not mirrored. -/
theorem Mirrors.note {base : List Report} {c : Checker} {r : Resolution} (h : Mirrors base c r)
    (event : Event) : Mirrors base (c.note event) r :=
  ⟨h.options_eq, h.symbols_eq, h.reports_eq⟩

/-- The step takes resolution along with the checker from `c` to `c'`, and returns `a`. -/
def Follows {α : Type} (step : Resolve α) (a : α) (c c' : Checker) : Prop :=
  ∀ base r, Mirrors base c r → ∃ r', step r = (a, r') ∧ Mirrors base c' r'

namespace Follows

variable {α β : Type} {a : α} {b : β} {c c₁ c' : Checker}

private theorem pure (a : α) (c : Checker) : Follows (pure a) a c c := fun _ r h => ⟨r, rfl, h⟩

/-- **The resolution follows sequences** of steps. -/
private theorem bind {step : Resolve α} {f : α → Resolve β} (h : Follows step a c c₁)
    (hf : Follows (f a) b c₁ c') : Follows (step >>= f) b c c' := by
  intro base r hr
  obtain ⟨r₁, hstep, hr₁⟩ := h base r hr
  obtain ⟨r', hf', hr'⟩ := hf base r₁ hr₁
  refine ⟨r', ?_, hr'⟩
  change (match step r with | (a, r₁) => f a r₁) = (b, r')
  rw [hstep]
  exact hf'

/-- A step that looks at the state sees the options and the symbols of the checker. -/
theorem look {f : Resolution → Resolve α}
    (h : ∀ r, r.options = c.options → r.symbols = c.symbols → Follows (f r) a c c') :
    Follows (get >>= f) a c c' :=
  fun base r hr => h r hr.options_eq hr.symbols_eq base r hr

/-! ### The operations of the checker -/

/-- A change of the symbol table, whatever is noted of it in the log. -/
theorem update {f : Symbols → Symbols} (hoptions : c'.options = c.options)
    (hsymbols : c'.symbols = f c.symbols) (hreports : c'.reports = c.reports) :
    Follows (Resolve.update f) () c c' := by
  intro base r hr
  refine ⟨{ r with symbols := f r.symbols }, rfl, ?_, ?_, ?_⟩
  · exact hr.options_eq.trans hoptions.symm
  · rw [hsymbols, ← hr.symbols_eq]
  · rw [hreports]
    exact hr.reports_eq

private theorem openScope (c : Checker) :
    Follows (Resolve.update Symbols.openScope) () c c.openScope :=
  update rfl rfl rfl

private theorem closeScope (c : Checker) :
    Follows (Resolve.update Symbols.closeScope) () c c.closeScope :=
  update c.options_closeScope c.symbols_closeScope c.reports_closeScope

private theorem declare (c : Checker) (name : String) (type : Ty) :
    Follows (Resolve.update (·.declare name type)) () c (c.declare name type) :=
  update rfl rfl rfl

/-- A declaration of a function changes the symbols in both. -/
theorem declareFunction (c : Checker) (name : String) (type : Ty) (params : List Param) :
    Follows (Resolve.update (·.declareFunction name type params)) () c
      (c.declareFunction name type params) :=
  update rfl rfl rfl

/-- Faults are reported in both, in order. -/
private theorem report (c : Checker) (line : Nat) (faults : List Fault) :
    Follows (Resolve.report faults) () c
      (faults.foldl (fun c fault => c.reportFault line fault) c) := by
  intro base r hr
  obtain ⟨added, hadded, hfaults⟩ := hr.reports_eq
  rw [Checker.foldl_reportFault]
  refine ⟨{ r with faults := r.faults ++ faults }, rfl, hr.options_eq, hr.symbols_eq,
    added ++ faults.map fun fault => ⟨line, .misuse fault⟩, ?_, ?_⟩
  · rw [hadded, List.append_assoc]
  · simp [hfaults]

/-- The resolution finds the type that the checker has found. -/
private theorem typeOf (c : Checker) (name : String) (line : Nat) :
    Follows (Resolve.typeOf name) (c.typeOf name line).1 c (c.typeOf name line).2 := by
  refine look fun r hoptions hsymbols => ?_
  rw [hoptions, hsymbols]
  unfold Checker.typeOf
  cases c.symbols.typeOf name with
  | ok type => exact pure type c
  | error fault =>
    dsimp only
    split
    · exact fun base r hr => ⟨r, rfl, hr.note _⟩
    · exact bind (report c line [fault]) (pure _ _)

/-- Both mark the variable, or report the name. -/
private theorem assign (c : Checker) (name : String) (line : Nat) :
    Follows (Resolve.assign name) () c (c.assign name line) := by
  refine look fun r _ hsymbols => ?_
  rw [hsymbols]
  unfold Checker.assign
  cases c.symbols.assign name with
  | ok symbols => exact update rfl rfl rfl
  | error fault => exact report c line [fault]

/-- The types of arguments are found again in their order. -/
private theorem arguments (c : Checker) (line : Nat) (args : List Expr) :
    Follows (args.mapM Resolve.argument) (c.argTypes line args).1 c (c.argTypes line args).2 := by
  induction args generalizing c with
  | nil => exact pure [] c
  | cons e rest ih =>
    rw [List.mapM_cons]
    cases e with
    | var name type => exact bind (typeOf c name line) (bind (ih _) (pure _ _))
    | const | arith | compare => exact bind (pure _ _) (bind (ih _) (pure _ _))

/-- Both report the same faults of a call. -/
private theorem call (c : Checker) (name : String) (args : List Expr) (line : Nat) :
    Follows (Resolve.call name args) () c (c.call name args line) := by
  have hcheck (types : List Ty) (c : Checker) :
      Follows (do Resolve.report ((← get).symbols.callFaults name types)) () c
        ((c.symbols.callFaults name types).foldl (fun c fault => c.reportFault line fault) c) := by
    refine look fun r _ hsymbols => ?_
    rw [hsymbols]
    exact report c line _
  by_cases harity : c.symbols.arity name = some args.length
  · have htypes : Follows (Resolve.arguments name args) (c.argTypes line args).1 c
        (c.argTypes line args).2 := by
      refine look fun r _ hsymbols => ?_
      rw [hsymbols, if_pos harity]
      exact arguments c line args
    rw [Checker.call, if_pos harity]
    exact bind htypes (hcheck _ _)
  · have htypes : Follows (Resolve.arguments name args) (args.map Expr.type) c c := by
      refine look fun r _ hsymbols => ?_
      rw [hsymbols, if_neg harity]
      exact pure _ c
    rw [Checker.call, if_neg harity]
    exact bind htypes (hcheck _ _)

/-- A step that follows what happens in a scope follows the scope as a whole. -/
theorem inScope {step : Resolve α} (h : Follows step a c.openScope c') :
    Follows (Resolve.inScope step) a c c'.closeScope :=
  bind (openScope c) (bind h (bind (closeScope c') (pure a _)))

end Follows

/-! ### Readings -/

variable {ts : List Located} {c c' : Checker}

/-- **Erasing and resolving an expression gives it back**, and does to the symbols what reading it
did. -/
private theorem follows_readsExpr {n : Nat} {e : Expr} (h : ReadsExpr n ts c e c') :
    Follows e.erase.resolve e c c' := by
  induction h with
  | @var _ line name c => exact .bind (.typeOf c name line) (.pure _ _)
  | int | float => exact .pure _ _
  | parens _ ih => exact ih
  | @binary _ _ _ op _ _ _ _ _ _ _ _ _ _ _ ihl ihr =>
    cases op with
    | arith op => exact .bind ihl (.bind ihr (.pure _ _))
    | compare op => exact .bind ihl (.bind ihr (.pure _ _))

private theorem follows_readsSeparated {es : List Expr}
    (h : ReadsSeparated (ReadsExpr 0) ts c es c') :
    Follows ((es.map Expr.erase).mapM Expr.resolve) es c c' := by
  induction h with
  | one h =>
    rw [List.map_cons, List.mapM_cons]
    exact .bind (follows_readsExpr h) (.bind (.pure [] _) (.pure _ _))
  | cons h _ ih =>
    rw [List.map_cons, List.mapM_cons]
    exact .bind (follows_readsExpr h) (.bind ih (.pure _ _))

private theorem follows_readsList {es : List Expr} (h : ReadsList (ReadsExpr 0) ts c es c') :
    Follows ((es.map Expr.erase).mapM Expr.resolve) es c c' := by
  cases h with
  | nil => exact .pure [] _
  | items h => exact follows_readsSeparated h

/-- The same holds of simple statements. -/
private theorem follows_readsSimple {st : Stmt} (h : ReadsSimple ts c st c') :
    Follows st.erase.resolve st c c' := by
  cases h with
  | declare => exact .bind (.declare _ _ _) (.pure _ _)
  | declareAssign _ init =>
    exact .bind (follows_readsExpr init)
      (.bind (.declare _ _ _) (.bind (.assign _ _ _) (.pure _ _)))
  | assign value => exact .bind (follows_readsExpr value) (.bind (.assign _ _ _) (.pure _ _))
  | call h => exact .bind (follows_readsList h) (.bind (.call _ _ _ _) (.pure _ _))

/-- The steps that resolve a phrase. -/
def Phrase.Follows (c c' : Checker) : Phrase → Prop
  | .statement st => TinyImp.Follows st.erase.resolve st c c'
  | .body ss => TinyImp.Follows (Resolve.inOrder (Stmt.resolveEach (Stmt.eraseAll ss))) ss c c'
  | .block ss =>
    TinyImp.Follows (Resolve.inScope (Resolve.inOrder (Stmt.resolveEach (Stmt.eraseAll ss)))) ss
      c c'

/-- **Inline checking.** The resolution of an erased phrase follows the reading of the phrase. -/
theorem follows_reads {p : Phrase} (h : Reads ts c p c') : p.Follows c c' := by
  induction h with
  | simple h => exact follows_readsSimple h
  | function _ _ _ ih => exact .bind (.declareFunction _ _ _ _) (.bind ih (.pure _ _))
  | ifThen condition _ ih | loop condition _ ih =>
    exact .bind (follows_readsExpr condition) (.bind ih (.pure _ _))
  | ifElse condition _ _ ih ih' =>
    exact .bind (follows_readsExpr condition) (.bind ih (.bind ih' (.pure _ _)))
  | @forLoop _ _ _ _ _ _ _ _ _ _ _ _ _ _ init step e ss hinit condition hstep _ ih =>
    have herase : (Stmt.block [init, .loop e (ss ++ [step])]).erase =
        .block [init.erase, .loop e.erase (Stmt.eraseAll ss ++ [step.erase])] := by
      simp [Stmt.erase, Stmt.eraseAll, Stmt.eraseAll_append]
    change Follows (Stmt.block [init, .loop e (ss ++ [step])]).erase.resolve _ _ _
    rw [herase, Stmt.resolve_for]
    exact .inScope (.bind (follows_readsSimple hinit) (.bind (follows_readsExpr condition)
      (.bind (.bind (follows_readsSimple hstep) (.bind (.pure [] _) (.pure _ _)))
        (.bind ih (.pure _ _)))))
  | ret value => exact .bind (follows_readsExpr value) (.pure _ _)
  | nil => exact .pure [] _
  | cons _ _ ih ih' => exact .bind ih (.bind ih' (.pure _ _))
  | block _ ih => exact .inScope ih

/-- **Checking while parsing is resolution afterwards.** Resolving the erased tree from the symbols
in front of the text puts all types back, ends with the symbols that the parse ends with, and finds
the faults that the parse has reported, in the same order. -/
theorem resolve_erase_of_parse {tokens : List Located} {c c' : Checker} {p : Program}
    (h : parse tokens c = (.ok p, c')) :
    ∃ r, p.erase.resolve { options := c.options, symbols := c.symbols } = (p, r) ∧
      r.symbols = c'.symbols ∧
      ∃ added, c'.diagnostics = c.diagnostics ++ added ∧
        added.map (fun d => (d.kind, d.message, d.fix)) =
          r.faults.map fun fault => (Diagnostic.Kind.semantic, fault.message, fault.fix) := by
  obtain ⟨c₁, hreads, rfl⟩ := parse_eq_ok_iff.mp h
  have hfollows : Follows p.erase.resolve p c c₁ := .bind (follows_reads hreads) (.pure _ _)
  have hstart : Mirrors c.reports c { options := c.options, symbols := c.symbols } :=
    ⟨rfl, rfl, [], by simp⟩
  obtain ⟨r, hrun, -, hsymbols, added, hadded, hfaults⟩ := hfollows c.reports _ hstart
  refine ⟨r, hrun, hsymbols, added.map Report.diagnostic, ?_, ?_⟩
  · simp [Checker.diagnostics, Checker.note, hadded]
  · calc (added.map Report.diagnostic).map (fun d => (d.kind, d.message, d.fix))
      _ = (added.map (·.problem)).map (fun p => (p.kind, p.message, p.fix)) := by
        rw [List.map_map, List.map_map]
        rfl
      _ = r.faults.map (fun fault => (Diagnostic.Kind.semantic, fault.message, fault.fix)) := by
        rw [hfaults, List.map_map]
        rfl

/-- The tokens of a `for` loop with an empty body that counts `i` up to an undeclared `n`. -/
def countingTokens : List Located :=
  [⟨.kwFor, 1⟩, ⟨.openParen, 1⟩, ⟨.kwInt, 1⟩, ⟨.identifier "i", 1⟩, ⟨.assign, 1⟩, ⟨.intLit 0, 1⟩,
    ⟨.semicolon, 1⟩, ⟨.identifier "i", 1⟩, ⟨.less, 1⟩, ⟨.identifier "n", 1⟩, ⟨.semicolon, 1⟩,
    ⟨.identifier "i", 1⟩, ⟨.assign, 1⟩, ⟨.identifier "i", 1⟩, ⟨.plus, 1⟩, ⟨.intLit 1, 1⟩,
    ⟨.closeParen, 1⟩, ⟨.openBrace, 1⟩, ⟨.closeBrace, 2⟩]

/-- The tree of the loop, with the types that its names have. -/
def countingLoop : Program :=
  ⟨[.block [.declareAssign "i" .int (.const (.int 0)),
    .loop (.compare .less (.var "i" .int) (.var "n" .unknown))
      [.assign "i" (.arith .add .int (.var "i" .int) (.const (.int 1)))]]]⟩

/-- The types of a loop with a counter are found again. -/
theorem resolve_erase_countingLoop :
    parse countingTokens {} = (.ok countingLoop, (parse countingTokens {}).2) ∧
      ∃ r, countingLoop.erase.resolve { options := {}, symbols := {} } = (countingLoop, r) ∧
        r.symbols = (parse countingTokens {}).2.symbols ∧
        ∃ added, (parse countingTokens {}).2.diagnostics = [] ++ added ∧
          added.map (fun d => (d.kind, d.message, d.fix)) =
            r.faults.map fun fault => (Diagnostic.Kind.semantic, fault.message, fault.fix) :=
  have hparse : parse countingTokens {} = (.ok countingLoop, (parse countingTokens {}).2) :=
    Prod.ext rfl rfl
  ⟨hparse, resolve_erase_of_parse hparse⟩

end TinyImp
