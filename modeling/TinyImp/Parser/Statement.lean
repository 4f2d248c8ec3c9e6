import TinyImp.Parser.Expression

/-!
# Parsing statements and programs

A statement is told by its first token. What it declares, assigns or calls is handed to the checker
as soon as that part is read: a first value is read before its variable is declared, a function is
declared before its body, and its body opens the scope that takes its parameters.
-/

namespace TinyImp.Parser

/-- The rest of a variable declaration, behind its name: a first value, or nothing. -/
def variableTail (type : Ty) (name : String) (line : Nat) : Parser Stmt := do
  if ← skipIf .assign then
    let init ← expression
    tell (·.declare name type)
    tell (·.assign name line)
    pure (.declareAssign name type init)
  else
    tell (·.declare name type)
    pure (.declare name type)

/-- A parameter of a function. -/
def parameter : Parser Param := do
  let type ← typeSpecifier
  let (name, _) ← identifier
  pure { name, type }

/-- The rest of a function declaration, behind its name. -/
def functionTail (block : Parser (List Stmt)) (returnType : Ty) (name : String) :
    Parser Stmt := do
  expect .openParen
  let params ← listInParens parameter
  tell (·.declareFunction name returnType params)
  let body ← block
  pure (.function name returnType params body)

/-- A declaration of a function or of a variable. -/
def declaration (block : Parser (List Stmt)) : Parser Stmt := do
  let type ← typeSpecifier
  let (name, line) ← identifier
  if (← peek) = some .openParen then
    functionTail block type name
  else
    let s ← variableTail type name line
    expect .semicolon
    pure s

/-- An assignment or a call, without the semicolon. -/
def assignOrCall : Parser Stmt := do
  let (name, line) ← identifier
  match ← peek with
  | some .assign =>
    expect .assign
    let value ← expression
    tell (·.assign name line)
    pure (.assign name value)
  | some .openParen =>
    expect .openParen
    let args ← listInParens expression
    tell (·.call name args line)
    pure (.call name args)
  | _ => unexpected

/-- A statement in the header of a `for` loop. -/
def simpleStatement : Parser Stmt := do
  match ← peek with
  | some (.identifier _) => assignOrCall
  | some .kwInt | some .kwFloat =>
    let type ← typeSpecifier
    let (name, line) ← identifier
    variableTail type name line
  | _ => unexpected

/-- A condition in parentheses. -/
def condition : Parser Expr := do
  expect .openParen
  let e ← expression
  expect .closeParen
  pure e

/-- A conditional statement, with or without an alternative. -/
def ifStatement (block : Parser (List Stmt)) : Parser Stmt := do
  expect .kwIf
  let e ← condition
  let body ← block
  if ← skipIf .kwElse then
    let otherwise ← block
    pure (.ifElse e body otherwise)
  else
    pure (.ifThen e body)

/-- A `while` loop. -/
def whileStatement (block : Parser (List Stmt)) : Parser Stmt := do
  expect .kwWhile
  let e ← condition
  let body ← block
  pure (.loop e body)

/-- A `for` loop. Its header has a scope of its own, around that of the body; the step runs at the
end of the body. -/
def forStatement (block : Parser (List Stmt)) : Parser Stmt := do
  expect .kwFor
  expect .openParen
  tell Checker.openScope
  let init ← simpleStatement
  expect .semicolon
  let e ← expression
  expect .semicolon
  let step ← simpleStatement
  expect .closeParen
  let body ← block
  tell Checker.closeScope
  pure (.block [init, .loop e (body ++ [step])])

/-- A `return` statement. -/
def returnStatement : Parser Stmt := do
  expect .kwReturn
  let e ← expression
  expect .semicolon
  pure (.ret e)

/-- A statement whose blocks are read by `block`. -/
def statementOver (block : Parser (List Stmt)) : Parser Stmt := do
  match ← peek with
  | some .kwInt | some .kwFloat => declaration block
  | some (.identifier _) =>
    let s ← assignOrCall
    expect .semicolon
    pure s
  | some .kwReturn => returnStatement
  | some .kwIf => ifStatement block
  | some .kwWhile => whileStatement block
  | some .kwFor => forStatement block
  | _ => unexpected

/-- Statements up to a closing brace, which is read too. -/
def untilBrace (statement : Parser Stmt) : Nat → Parser (List Stmt)
  | 0 => failAtEnd
  | n + 1 => do
    if ← skipIf .closeBrace then
      pure []
    else
      let s ← statement
      let rest ← untilBrace statement n
      pure (s :: rest)

/-- A block: statements between braces, in a scope of their own. -/
def blockOf (statement : Parser Stmt) : Parser (List Stmt) := do
  expect .openBrace
  tell Checker.openScope
  let body ← bounded (untilBrace statement)
  tell Checker.closeScope
  pure body

/-- A statement within a number of tokens. -/
def statementWithin : Nat → Parser Stmt
  | 0 => failAtEnd
  | n + 1 => statementOver (blockOf (statementWithin n))

/-- A statement. -/
def statement : Parser Stmt :=
  bounded statementWithin

/-- Statements up to the end of the text. -/
def untilEnd : Nat → Parser (List Stmt)
  | 0 => pure []
  | n + 1 => do
    if (← peek).isNone then
      pure []
    else
      let s ← statement
      let rest ← untilEnd n
      pure (s :: rest)

/-- A whole program. -/
def program : Parser Program := do
  let body ← bounded untilEnd
  tell (·.note (.parsed body.length))
  pure ⟨body⟩

end TinyImp.Parser

namespace TinyImp

/-- Parses tokens as a program, and follows them with the checker. -/
def parse (tokens : List Located) (checker : Checker) : Except ParseError Program × Checker :=
  match Parser.program { unread := tokens, checker } with
  | .ok p s => (.ok p, s.checker)
  | .error e s => (.error e, s.checker)

end TinyImp
