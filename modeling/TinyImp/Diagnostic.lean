import TinyImp.Number.Written
import TinyImp.Symbols.Fault
import TinyImp.Text.Column

/-!
# Diagnostics

A *problem* is a cause that compilation reports and goes on after; a *report* is a problem at a
line. As a *diagnostic* a report has its final wording: the line, the kind of problem, a message
and a proposed fix. The summary of a list of diagnostics is a table with one row for each, in the
order in which they were recorded.
-/

namespace TinyImp

/-- The stage to which a diagnostic belongs: the text itself, or the use of names in it. -/
inductive Diagnostic.Kind where
  | lexical
  | semantic
  deriving DecidableEq

/-- The word for a kind in the summary table. -/
def Diagnostic.Kind.text : Diagnostic.Kind → String
  | .lexical => "Syntax"
  | .semantic => "Semantic"

/-- A worded diagnostic. -/
structure Diagnostic where
  line : Nat
  kind : Diagnostic.Kind
  message : String
  fix : String
  deriving DecidableEq

/-- The greatest integer constant. A larger literal is reported and stands for this number. -/
def maxInt : Nat := Nat.pow 2 63 - 1

/-! ### Wording -/

namespace Fault

/-- What is wrong. -/
def message : Fault → String
  | .assignedUndeclared name => s!"Variable '{name}' used before declaration"
  | .readUndeclared name => s!"Variable '{name}' is undeclared"
  | .unknownFunction name => s!"Function '{name}' not declared"
  | .argumentCount name expected got =>
    s!"Function '{name}' called with {digits got} argument(s), but expected {digits expected}"
  | .argumentType name position expected got =>
    s!"Argument {digits position} of function '{name}' expected type '{expected.text}'" ++
      s!", but got '{got.text}'"

/-- What would set it right. -/
def fix : Fault → String
  | .assignedUndeclared name => s!"Declare variable '{name}' before use"
  | .readUndeclared name => s!"Declare variable '{name}' before use"
  | .unknownFunction name => s!"Define '{name}()' before calling it."
  | .argumentCount name expected _ =>
    let values := String.intercalate ", " (List.replicate expected "val")
    s!"Call '{name}' with {digits expected} argument(s), like: {name}({values})"
  | .argumentType _ position expected _ =>
    s!"Make sure argument {digits position} is of type '{expected.text}'"

end Fault

/-- A cause that is reported without stopping the compilation. -/
inductive Problem where
  /-- A character that belongs to no token. -/
  | strayCharacter (c : Char)
  /-- An integer literal, given by its digits, beyond the greatest integer constant. -/
  | integerTooLarge (literal : String)
  /-- A misuse of a name. -/
  | misuse (fault : Fault)
  deriving DecidableEq

namespace Problem

/-- The kind of diagnostic that a problem gives. -/
def kind : Problem → Diagnostic.Kind
  | .strayCharacter _ => .lexical
  | .integerTooLarge _ => .lexical
  | .misuse _ => .semantic

/-- What is wrong. -/
def message : Problem → String
  | .strayCharacter c => s!"Invalid character '{c.toString}'"
  | .integerTooLarge literal => s!"Integer literal '{literal}' is out of range"
  | .misuse fault => fault.message

/-- What would set it right. -/
def fix : Problem → String
  | .strayCharacter c =>
    s!"Remove or replace '{c.toString}' with a valid symbol or identifier."
  | .integerTooLarge _ => s!"Use a value no larger than {digits maxInt}."
  | .misuse fault => fault.fix

end Problem

/-- A problem and the line at which it is reported. -/
structure Report where
  line : Nat
  problem : Problem
  deriving DecidableEq

/-- The worded form of a report. -/
def Report.diagnostic (r : Report) : Diagnostic :=
  ⟨r.line, r.problem.kind, r.problem.message, r.problem.fix⟩

/-! ### The summary table -/

namespace Diagnostic

/-- The cells of a row: line, message, kind and fix. -/
def cells (d : Diagnostic) : List String :=
  [digits d.line, d.message, d.kind.text, d.fix]

/-- The titles of the columns. -/
def titles : List String := ["Line", "Error", "Type", "Fix"]

/-- The column widths that fit all the given rows. -/
def widths (rows : List (List String)) : List Nat :=
  (List.range titles.length).map fun column =>
    Text.widest (rows.map fun row => row.getD column "")

/-- A line of the table: the cells filled up to the widths, two spaces apart. -/
def tableLine (widths : List Nat) (row : List String) : String :=
  String.intercalate "  " (List.zipWith Text.padRight widths row)

/-- The lines of the summary table below its caption: titles, a rule, and one line for each
diagnostic. -/
def tableLines (ds : List Diagnostic) : List String :=
  let rows := ds.map cells
  let columns := widths (titles :: rows)
  let header := tableLine columns titles
  header :: String.ofList (List.replicate header.length '-') :: rows.map (tableLine columns)

/-- The summary of all diagnostics. -/
def summary (ds : List Diagnostic) : String :=
  if ds.isEmpty then "No errors detected.\n"
  else String.join (("Summary Table" :: tableLines ds).map (· ++ "\n"))

/-- The diagnostics of one kind, in order. -/
def ofKind (ds : List Diagnostic) (kind : Kind) : List Diagnostic :=
  ds.filter (·.kind = kind)

end Diagnostic

end TinyImp
