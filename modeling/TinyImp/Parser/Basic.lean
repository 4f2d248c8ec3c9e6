import TinyImp.Checker

/-!
# Parsers

A parser reads tokens from the front of those that are left, tells the checker what it has read,
and either returns a value or fails. The state that it has reached, the checker's records included,
outlives a failure.

Repetition is bounded by a number of tokens. With no token left nothing can be repeated and nothing
can be nested, so a bound of at least the number of tokens left never cuts a parse short; the case
of bound zero is then the case of the empty rest.
-/

namespace TinyImp

/-- The state of a parse. -/
structure ParseState where
  /-- The tokens that are left. -/
  unread : List Located
  /-- The line of the token read last, or one. -/
  lastLine : Nat := 1
  checker : Checker

/-- A parser for values of a type. -/
abbrev Parser := EStateM ParseError ParseState

namespace Parser

/-- The next token, which stays unread. -/
def peek : Parser (Option Token) := fun s =>
  .ok (s.unread.head?.map (·.token)) s

/-- Fails because the text ends here. -/
def failAtEnd {α : Type} : Parser α := fun s =>
  .error ⟨.unexpectedEnd, s.lastLine⟩ s

/-- Reads the next token. -/
def next : Parser Located := fun s =>
  match s.unread with
  | [] => failAtEnd s
  | t :: rest => .ok t { s with unread := rest, lastLine := t.line }

/-- Fails at a token for a cause. -/
def failAt {α : Type} (t : Located) (cause : Token → ParseError.Cause) : Parser α :=
  throw ⟨cause t.token, t.line⟩

/-- Fails at the next token for a cause. The token stays unread. -/
def reject {α : Type} (cause : Token → ParseError.Cause) : Parser α := fun s =>
  match s.unread with
  | [] => failAtEnd s
  | t :: _ => failAt t cause s

/-- Fails because the next token cannot stand here. -/
def unexpected {α : Type} : Parser α :=
  reject .unexpected

/-- Reads the given token. -/
def expect (wanted : Token) : Parser Unit := do
  let t ← next
  if t.token = wanted then pure () else failAt t (.expected wanted)

/-- Reads the given token if it is next, and tells whether it was. -/
def skipIf (wanted : Token) : Parser Bool := fun s =>
  match s.unread with
  | [] => .ok false s
  | t :: rest =>
    if t.token = wanted then .ok true { s with unread := rest, lastLine := t.line }
    else .ok false s

/-- Reads an identifier, and returns it with its line. -/
def identifier : Parser (String × Nat) := do
  let t ← next
  match t.token with
  | .identifier name => pure (name, t.line)
  | _ => failAt t .expectedIdentifier

/-- Reads a type specifier. -/
def typeSpecifier : Parser Ty := do
  let t ← next
  match t.token.type? with
  | some type => pure type
  | none => failAt t .expectedType

/-- Tells the checker something. -/
def tell (f : Checker → Checker) : Parser Unit := fun s =>
  .ok () { s with checker := f s.checker }

/-- Asks the checker something. -/
def ask {α : Type} (f : Checker → α × Checker) : Parser α := fun s =>
  let (a, checker) := f s.checker
  .ok a { s with checker }

/-- Runs a parser that takes a bound on the tokens left with the number of tokens left. -/
def bounded {α : Type} (p : Nat → Parser α) : Parser α := fun s =>
  p s.unread.length s

/-- One or more items with commas between them. -/
def commaSeparated {α : Type} (item : Parser α) : Nat → Parser (List α)
  | 0 => failAtEnd
  | n + 1 => do
    let first ← item
    if ← skipIf .comma then
      let others ← commaSeparated item n
      pure (first :: others)
    else
      pure [first]

/-- A list in parentheses whose opening parenthesis has been read: items with commas between them,
or nothing, and the closing parenthesis. -/
def listInParens {α : Type} (item : Parser α) : Parser (List α) := do
  let items ← if (← peek) = some .closeParen then pure [] else bounded (commaSeparated item)
  expect .closeParen
  pure items

end Parser

end TinyImp
