import Mathlib.Data.List.Induction
import TinyImp.Proofs.Checking.Leniency

/-!
# Calls

What is wrong with a call depends on the signature of the function and on the variables in scope
alone, and all of it is reported at the line of the call: an unknown function, or a wrong number of
arguments, and nothing else; otherwise first the arguments that are undeclared variables, then the
arguments of a wrong type (`Checker.call_reports_exactly`).
-/

namespace TinyImp

namespace Checker

/-! ### What is wrong with a call -/

/-- An undeclared variable is taken for an `int`, without a report. -/
def assumesInt (c : Checker) : Bool :=
  c.options.assumeIntParams && c.symbols.inParamScope

/-- The type of an argument. A variable has the type of its declaration, whatever type the tree has
for it. -/
def argType (c : Checker) : Expr → Ty
  | .var name _ =>
    match c.symbols.lookup name with
    | some v => v.type
    | none => if c.assumesInt then .int else .unknown
  | e => e.type

/-- The argument is a variable that no open scope declares. -/
def undeclared? (c : Checker) : Expr → Option String
  | .var name _ =>
    if c.symbols.scopes.any fun scope => (scope.lookup name).isSome then none else some name
  | _ => none

/-- The faults of the arguments that are undeclared variables. -/
def readFaults (c : Checker) (args : List Expr) : List Fault :=
  if c.assumesInt then [] else (args.filterMap c.undeclared?).map .readUndeclared

/-- The fault of the argument at an index, if its type is not that of the parameter. In the fault
positions count from one. -/
def mismatchAt? (c : Checker) (name : String) (args : List Expr) (params : List Param) (i : Nat) :
    Option Fault :=
  args[i]?.bind fun e => params[i]?.bind fun param =>
    if c.argType e = param.type then none
    else some (.argumentType name (i + 1) param.type (c.argType e))

/-- All that is wrong with a call. -/
def faultsOfCall (c : Checker) (name : String) (args : List Expr) : List Fault :=
  match c.symbols.function name with
  | none => [.unknownFunction name]
  | some signature =>
    if args.length ≠ signature.params.length then
      [.argumentCount name signature.params.length args.length]
    else
      c.readFaults args ++
        (List.range args.length).filterMap (c.mismatchAt? name args signature.params)

/-! ### The types of the arguments -/

variable {c c' : Checker}

/-- What is wrong with arguments does not depend on what has been reported so far. -/
theorem argType_congr (hsymbols : c'.symbols = c.symbols) (hoptions : c'.options = c.options) :
    c'.argType = c.argType := by
  cases c
  cases c'
  subst hsymbols hoptions
  rfl

/-- The faults of reads depend on the symbols and the options only. -/
private theorem readFaults_congr (hsymbols : c'.symbols = c.symbols)
    (hoptions : c'.options = c.options) :
    c'.readFaults = c.readFaults := by
  cases c
  cases c'
  subst hsymbols hoptions
  rfl

/-- The faults of the first argument come first. -/
private theorem readFaults_cons (c : Checker) (e : Expr) (rest : List Expr) :
    c.readFaults (e :: rest) = c.readFaults [e] ++ c.readFaults rest := by
  unfold readFaults
  split
  · rfl
  · rw [← List.map_append, ← List.filterMap_append, List.singleton_append]

/-- A name is undeclared if its lookup fails. -/
theorem undeclared?_var (c : Checker) (name : String) (type : Ty) :
    c.undeclared? (.var name type) =
      if (c.symbols.lookup name).isSome then none else some name := by
  rw [undeclared?, Symbols.lookup, List.isSome_findSome?]

/-- One lookup: the type that it gives, and the report that it adds. -/
theorem typeOf_eq (c : Checker) (name : String) (type : Ty) (line : Nat) :
    (c.typeOf name line).1 = c.argType (.var name type) ∧
      (c.typeOf name line).2.reports = c.reports ++
        (c.readFaults [.var name type]).map fun fault => ⟨line, .misuse fault⟩ := by
  simp only [typeOf, argType, Symbols.typeOf, readFaults, assumesInt, List.filterMap_cons,
    List.filterMap_nil, undeclared?_var]
  cases c.symbols.lookup name with
  | some v => simp
  | none =>
    by_cases hassumes : (c.options.assumeIntParams && c.symbols.inParamScope) = true
    · simp [hassumes, note]
    · simp [hassumes, reportFault, record]

/-- The lookups of all arguments, first to last. -/
theorem argTypes_eq (c : Checker) (line : Nat) (args : List Expr) :
    (c.argTypes line args).1 = args.map c.argType ∧
      (c.argTypes line args).2.reports = c.reports ++
        (c.readFaults args).map fun fault => ⟨line, .misuse fault⟩ := by
  induction args generalizing c with
  | nil => simp [argTypes, readFaults]
  | cons e rest ih =>
    rw [readFaults_cons, List.map_append, ← List.append_assoc]
    cases e with
    | var name type =>
      obtain ⟨htype, hreports⟩ := c.typeOf_eq name type line
      obtain ⟨hrest, hreports'⟩ := ih (c.typeOf name line).2
      have hsymbols := (c.remarks_typeOf name line).symbols_eq
      have hoptions := c.options_typeOf name line
      rw [argType_congr hsymbols hoptions] at hrest
      rw [readFaults_congr hsymbols hoptions, hreports] at hreports'
      exact ⟨List.cons_eq_cons.mpr ⟨htype, hrest⟩, hreports'⟩
    | const | arith | compare =>
      obtain ⟨hrest, hreports⟩ := ih c
      refine ⟨congrArg _ hrest, hreports.trans ?_⟩
      simp [readFaults, undeclared?]

/-! ### The faults of a call -/

/-- The entries of a numbered list, one by one. -/
theorem filterMap_zipIdx_eq {α β : Type} (l : List α) (f : α × Nat → Option β) :
    l.zipIdx.filterMap f =
      (List.range l.length).filterMap fun i => l[i]?.bind fun a => f (a, i) := by
  induction l using List.reverseRecOn with
  | nil => rfl
  | append_singleton l a ih =>
    have hfront : ∀ i ∈ List.range l.length,
        ((l ++ [a])[i]?.bind fun a => f (a, i)) = l[i]?.bind fun a => f (a, i) := by
      intro i hi
      rw [List.getElem?_append_left (List.mem_range.mp hi)]
    rw [List.zipIdx_append, List.filterMap_append, ih, List.length_append, List.length_singleton,
      List.range_succ, List.filterMap_append, List.filterMap_congr hfront]
    simp [List.filterMap_cons]

/-- The arguments of a wrong type, position by position. -/
theorem callFaults_map_argType (c : Checker) (name : String) (args : List Expr)
    {signature : Signature} (hfunction : c.symbols.function name = some signature)
    (hlength : args.length = signature.params.length) :
    c.symbols.callFaults name (args.map c.argType) =
      (List.range args.length).filterMap (c.mismatchAt? name args signature.params) := by
  simp only [Symbols.callFaults, hfunction, List.length_map, ne_eq, hlength, not_true_eq_false,
    if_false, filterMap_zipIdx_eq, List.length_zip, Nat.min_self]
  refine List.filterMap_congr fun i hi => ?_
  have hparam : i < signature.params.length := List.mem_range.mp hi
  have harg : i < args.length := hlength ▸ hparam
  have hzip : (List.zip (args.map c.argType) signature.params)[i]? =
      some (c.argType args[i], signature.params[i]) :=
    List.getElem?_zip_eq_some.mpr ⟨by simp [harg], by simp [hparam]⟩
  rw [mismatchAt?, hzip, List.getElem?_eq_getElem harg, List.getElem?_eq_getElem hparam]
  rfl

/-- The faults of a call become reports, one by one. -/
theorem reports_call (c : Checker) (name : String) (args : List Expr) (line : Nat) :
    (c.call name args line).reports = c.reports ++
      (c.faultsOfCall name args).map fun fault => ⟨line, .misuse fault⟩ := by
  rw [call]
  by_cases harity : c.symbols.arity name = some args.length
  · -- the lookups of the arguments report first, and the table is the same behind them
    obtain ⟨signature, hfunction, hparams⟩ := Option.map_eq_some_iff.mp harity
    obtain ⟨htypes, hreports⟩ := c.argTypes_eq line args
    rw [if_pos harity]
    dsimp only
    rw [foldl_reportFault]
    dsimp only
    rw [hreports, (c.remarks_argTypes line args).symbols_eq, htypes,
      callFaults_map_argType c name args hfunction hparams.symm, List.append_assoc,
      ← List.map_append, faultsOfCall, hfunction]
    dsimp only
    rw [if_neg (not_not.mpr hparams.symm)]
  · rw [if_neg harity]
    dsimp only
    rw [foldl_reportFault]
    dsimp only
    congr 2
    rw [Symbols.callFaults, faultsOfCall]
    cases hfunction : c.symbols.function name with
    | none => rfl
    | some signature =>
      have hlength : args.length ≠ signature.params.length := by
        intro hlength
        exact harity (by rw [Symbols.arity, hfunction, hlength]; rfl)
      dsimp only
      rw [List.length_map, if_pos hlength, if_pos hlength]

/-- **A call reports exactly what is wrong with it.** Whatever the state of the checker, the symbols
stay as they are and the options too, and one diagnostic is added for each fault of the call, in
order, at the line of the call. -/
theorem call_reports_exactly (c : Checker) (name : String) (args : List Expr) (line : Nat) :
    (c.call name args line).symbols = c.symbols ∧
      (c.call name args line).options = c.options ∧
      (c.call name args line).diagnostics =
        c.diagnostics ++ (c.faultsOfCall name args).map fun fault =>
          ⟨line, .semantic, fault.message, fault.fix⟩ := by
  refine ⟨(c.remarks_call name args line).symbols_eq, c.options_call name args line, ?_⟩
  rw [diagnostics, reports_call, List.map_append, List.map_map]
  rfl

/-- A variable that nothing declares is reported twice: as undeclared, and, once all arguments have
been looked up, as of an unknown type. -/
example :
    let g : Signature := ⟨.int, [⟨"a", .int⟩, ⟨"b", .float⟩, ⟨"c", .int⟩]⟩
    let c : Checker := { symbols := { functions := [("g", g)] } }
    c.faultsOfCall "g" [.var "m" .int, .const (.int 1), .const (.int 2)] =
      [.readUndeclared "m", .argumentType "g" 1 .int .unknown,
        .argumentType "g" 2 .float .int] := by
  decide

end Checker

end TinyImp
