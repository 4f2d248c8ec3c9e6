import TinyImp.Asm.Code
import TinyImp.Parser.Statement

/-!
# Compilation

One run of the compiler over a source text: scan it, parse and check it, and generate code if the
parse succeeds. Diagnostics do not stand in the way of code; only a parse error does.
-/

namespace TinyImp

/-- Scans and parses a text with a checker that may have seen other texts before. -/
def Checker.parseSource (c : Checker) (source : String) :
    List Located × Except ParseError Program × Checker :=
  let scanned := scan source
  (scanned.tokens, parse scanned.tokens (c.recordScan scanned))

/-- What a run of the compiler has produced. -/
structure Compilation where
  tokens : List Located
  program : Except ParseError Program
  /-- The code, if the parse succeeded. -/
  assembly : Option Assembly
  reports : List Report
  log : List Event

namespace Compilation

/-- The diagnostics of the run. -/
def diagnostics (c : Compilation) : List Diagnostic :=
  c.reports.map Report.diagnostic

/-- The parse succeeded and there is no diagnostic. -/
def isClean (c : Compilation) : Bool :=
  c.program.isOk && c.reports.isEmpty

end Compilation

/-- What is noted about the outcome of a parse: the size of the code, or the error. -/
def outcomeEvent : Except ParseError Program → Event
  | .ok p =>
    .generated p.assembly.text.length (Stmt.registersAll p.body) (Stmt.labelsAll p.body)
  | .error e => .parseFailed e

/-- Compiles a source text. -/
def compile (source : String) (options : Options) : Compilation :=
  let (tokens, program, checker) := Checker.parseSource { options } source
  { tokens
    program
    assembly := program.toOption.map Program.assembly
    reports := checker.reports
    log := checker.log ++ [outcomeEvent program, .finished checker.reports.length] }

/-! ### The parts of a compilation -/

/-- A compilation parses the tokens of its text. -/
theorem program_compile (source : String) (options : Options) :
    (compile source options).program =
      (parse (scan source).tokens (Checker.recordScan { options } (scan source))).1 := by
  change _ = (Checker.parseSource { options } source).2.1
  unfold compile
  generalize Checker.parseSource { options } source = outcome
  rfl

/-- The reports of a compilation are those of a parse whose checker starts with what the scan
reports. -/
theorem reports_compile (source : String) (options : Options) :
    (compile source options).reports =
      (parse (scan source).tokens (Checker.recordScan { options } (scan source))).2.reports := by
  change _ = (Checker.parseSource { options } source).2.2.reports
  unfold compile
  generalize Checker.parseSource { options } source = outcome
  rfl

/-- There is code if there is a program. -/
theorem assembly_compile (source : String) (options : Options) :
    (compile source options).assembly =
      (compile source options).program.toOption.map Program.assembly := by
  unfold compile
  generalize Checker.parseSource { options } source = outcome
  rfl

end TinyImp
