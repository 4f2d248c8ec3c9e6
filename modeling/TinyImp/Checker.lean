import TinyImp.Log
import TinyImp.Stmt
import TinyImp.Symbols
import TinyImp.Token.Scanner

/-!
# The checker

While a program is parsed, the checker follows its declarations and uses of names, keeps the symbol
table up to date, and records what is wrong without ever stopping the parse. Its diagnostics and its
log are in the order in which things happened.
-/

namespace TinyImp

/-- The choices that a user has. -/
structure Options where
  /-- Take an undeclared name for an `int`, without a report, directly in the body of a function
  that has parameters. -/
  assumeIntParams : Bool := false
  deriving DecidableEq, Inhabited

/-- The state of checking. -/
structure Checker where
  options : Options := {}
  symbols : Symbols := {}
  reports : List Report := []
  log : List Event := []
  deriving DecidableEq

namespace Checker

/-! ### Records -/

/-- Adds an event to the log. -/
def note (c : Checker) (event : Event) : Checker :=
  { c with log := c.log ++ [event] }

/-- Adds a report to the diagnostics, and notes it in the log. -/
def record (c : Checker) (report : Report) : Checker :=
  { c with reports := c.reports ++ [report], log := c.log ++ [.recorded report] }

/-- Records a misuse of a name. -/
def reportFault (c : Checker) (line : Nat) (fault : Fault) : Checker :=
  c.record ⟨line, .misuse fault⟩

/-- Reports are recorded in their order. -/
theorem foldl_record (c : Checker) (reports : List Report) :
    reports.foldl record c =
      { c with
        reports := c.reports ++ reports
        log := c.log ++ reports.map .recorded } := by
  induction reports generalizing c with
  | nil => simp
  | cons r rest ih =>
    rw [List.foldl_cons, ih]
    simp [record]

/-- Faults are reported in their order. -/
theorem foldl_reportFault (c : Checker) (line : Nat) (faults : List Fault) :
    faults.foldl (fun c fault => c.reportFault line fault) c =
      { c with
        reports := c.reports ++ faults.map fun fault => ⟨line, .misuse fault⟩
        log := c.log ++ faults.map fun fault => .recorded ⟨line, .misuse fault⟩ } := by
  have hrecord := c.foldl_record (faults.map fun fault => ⟨line, .misuse fault⟩)
  rwa [List.foldl_map, List.map_map] at hrecord

/-- The diagnostics recorded so far. -/
def diagnostics (c : Checker) : List Diagnostic :=
  c.reports.map Report.diagnostic

/-- Forgets the diagnostics recorded so far. -/
def clearReports (c : Checker) : Checker :=
  { c with reports := [] }

/-- Forgets all names. -/
def resetSymbols (c : Checker) : Checker :=
  { c with symbols := {} }

/-- Records what the scan of a text has met, and notes how many tokens it brought. -/
def recordScan (c : Checker) (scan : Scan) : Checker :=
  (scan.reports.foldl record c).note (.scanned scan.tokens.length)

/-! ### Names -/

/-- Opens a scope. -/
def openScope (c : Checker) : Checker :=
  let symbols := c.symbols.openScope
  { c with symbols }.note (.scopeOpened symbols.depth (c.symbols.pending.getD []).length)

/-- Closes the innermost scope. Nothing is noted if only the outermost one is open. -/
def closeScope (c : Checker) : Checker :=
  let closed := { c with symbols := c.symbols.closeScope }
  if 1 < c.symbols.depth then closed.note (.scopeClosed c.symbols.depth) else closed

/-- The symbols close their innermost scope, whatever is noted. -/
theorem symbols_closeScope (c : Checker) : c.closeScope.symbols = c.symbols.closeScope := by
  unfold closeScope
  split <;> rfl

/-- Closing a scope reports nothing. -/
theorem reports_closeScope (c : Checker) : c.closeScope.reports = c.reports := by
  unfold closeScope
  split <;> rfl

/-- Closing a scope leaves the options as they are. -/
theorem options_closeScope (c : Checker) : c.closeScope.options = c.options := by
  unfold closeScope
  split <;> rfl

/-- Declares a variable. -/
def declare (c : Checker) (name : String) (type : Ty) : Checker :=
  { c with symbols := c.symbols.declare name type }

/-- Declares a function. -/
def declareFunction (c : Checker) (name : String) (returnType : Ty) (params : List Param) :
    Checker :=
  { c with symbols := c.symbols.declareFunction name returnType params }.note
    (.functionDeclared name params.length)

/-- Notes an assignment to a variable. -/
def assign (c : Checker) (name : String) (line : Nat) : Checker :=
  match c.symbols.assign name with
  | .ok symbols => { c with symbols }
  | .error fault => c.reportFault line fault

/-- The type of a variable where it is read; `unknown` after a report if it is not declared. -/
def typeOf (c : Checker) (name : String) (line : Nat) : Ty × Checker :=
  match c.symbols.typeOf name with
  | .ok type => (type, c)
  | .error fault =>
    if c.options.assumeIntParams && c.symbols.inParamScope then
      (.int, c.note (.assumedInt line name))
    else
      (.unknown, c.reportFault line fault)

/-- The types of the arguments of a call, first to last. A variable is looked up once more, at the
line of the call. -/
def argTypes (c : Checker) (line : Nat) : List Expr → List Ty × Checker
  | [] => ([], c)
  | e :: rest =>
    let (type, c) :=
      match e with
      | .var name _ => c.typeOf name line
      | e => (e.type, c)
    let (types, c) := c.argTypes line rest
    (type :: types, c)

/-- Checks a call. Variables among the arguments are looked up again only if the function is
declared with that number of parameters. -/
def call (c : Checker) (name : String) (args : List Expr) (line : Nat) : Checker :=
  let (types, c) :=
    if c.symbols.arity name = some args.length then c.argTypes line args
    else (args.map Expr.type, c)
  (c.symbols.callFaults name types).foldl (fun c fault => c.reportFault line fault) c

end Checker

end TinyImp
