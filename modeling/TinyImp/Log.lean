import TinyImp.Diagnostic
import TinyImp.Parser.Error

/-!
# The log

Compilation keeps a log of what it does. An entry is an event; its level and its wording are
functions of the event.
-/

namespace TinyImp

/-- Something that compilation notes in its log. -/
inductive Event where
  | recorded (report : Report)
  | scanned (tokens : Nat)
  | functionDeclared (name : String) (params : Nat)
  /-- A scope was opened; the depth counts it. -/
  | scopeOpened (depth params : Nat)
  /-- A scope was closed; the depth counts it still. -/
  | scopeClosed (depth : Nat)
  /-- An undeclared name was taken for an `int`. -/
  | assumedInt (line : Nat) (name : String)
  | parsed (statements : Nat)
  | generated (instructions registers labels : Nat)
  | parseFailed (error : ParseError)
  | finished (diagnostics : Nat)
  deriving DecidableEq

namespace Event

/-- How much attention an event deserves. -/
inductive Level where
  | trace
  | debug
  | warn
  deriving DecidableEq

/-- The word for a level. -/
def Level.text : Level → String
  | .trace => "TRACE"
  | .debug => "DEBUG"
  | .warn => "WARN"

/-- The level of an event: scopes and functions are traced, an assumption is a warning. -/
def level : Event → Level
  | .functionDeclared _ _ => .trace
  | .scopeOpened _ _ => .trace
  | .scopeClosed _ => .trace
  | .assumedInt _ _ => .warn
  | _ => .debug

/-- The wording of an event. -/
def message : Event → String
  | .recorded report =>
    let d := report.diagnostic
    s!"line {digits d.line}: {d.kind.text} diagnostic: {d.message}"
  | .scanned tokens => s!"lexed {digits tokens} tokens"
  | .functionDeclared name params =>
    s!"function {name} declared with {digits params} parameter(s)"
  | .scopeOpened depth params =>
    s!"scope {digits depth} opened with {digits params} parameter(s)"
  | .scopeClosed depth => s!"scope {digits depth} closed"
  | .assumedInt line name => s!"line {digits line}: '{name}' is not declared, assuming int"
  | .parsed statements => s!"parsed {digits statements} top-level statement(s)"
  | .generated instructions registers labels =>
    s!"generated {digits instructions} instruction(s) using {digits registers} register(s)" ++
      s!" and {digits labels} label(s)"
  | .parseFailed error => s!"parse failed: {error.message}"
  | .finished diagnostics => s!"compilation finished with {digits diagnostics} diagnostic(s)"

/-- The line of a log: level and wording. -/
def text (e : Event) : String :=
  s!"{e.level.text} {e.message}"

end Event

end TinyImp
