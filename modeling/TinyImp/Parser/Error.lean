import TinyImp.Token

/-!
# Parse errors

The error that ends a parse: what stands where something else was expected, and on which line.
-/

namespace TinyImp

/-- The cause of a failed parse. -/
inductive ParseError.Cause where
  /-- One token was expected and another one found. -/
  | expected (wanted got : Token)
  | expectedIdentifier (got : Token)
  | expectedType (got : Token)
  /-- A token that cannot stand here. -/
  | unexpected (got : Token)
  | expectedExpression (got : Token)
  /-- The text ends too early. -/
  | unexpectedEnd
  deriving DecidableEq

/-- A failed parse. At the end of the text, the line is that of the last token. -/
structure ParseError where
  cause : ParseError.Cause
  line : Nat
  deriving DecidableEq

namespace ParseError

/-- What is wrong. -/
def Cause.message : Cause → String
  | .expected wanted got =>
    s!"syntax error at token '{got.text}', expected '{wanted.text}'"
  | .expectedIdentifier got => s!"syntax error at token '{got.text}', expected identifier"
  | .expectedType got => s!"syntax error at token '{got.text}', expected type specifier"
  | .unexpected got => s!"syntax error at token '{got.text}'"
  | .expectedExpression got => s!"syntax error at token '{got.text}', expected expression"
  | .unexpectedEnd => "syntax error at EOF"

/-- What is wrong, and where. -/
def message (e : ParseError) : String :=
  s!"{e.cause.message} (line {digits e.line})"

end ParseError

end TinyImp
