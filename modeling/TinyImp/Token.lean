import TinyImp.Expr
import TinyImp.Text.Quoted

/-!
# Tokens

The words and symbols that a program text consists of, the text of each, and the form in which a
listing of tokens shows them.
-/

namespace TinyImp

/-- A token of the language. -/
inductive Token where
  | kwInt
  | kwFloat
  | kwReturn
  | kwIf
  | kwElse
  | kwWhile
  | kwFor
  | identifier (name : String)
  | intLit (value : Int)
  | floatLit (value : Binary64)
  | openParen
  | closeParen
  | openBrace
  | closeBrace
  | semicolon
  | comma
  | plus
  | minus
  | star
  | slash
  | assign
  | equal
  | less
  | greater
  deriving DecidableEq

namespace Token

/-- The token of a word: a reserved word if it is one, else an identifier. -/
def ofWord : String → Token
  | "int" => .kwInt
  | "float" => .kwFloat
  | "return" => .kwReturn
  | "if" => .kwIf
  | "else" => .kwElse
  | "while" => .kwWhile
  | "for" => .kwFor
  | name => .identifier name

/-- The token that a single character is, if it is one. -/
def ofSymbol? : Char → Option Token
  | ';' => some .semicolon
  | ',' => some .comma
  | '(' => some .openParen
  | ')' => some .closeParen
  | '\x7b' => some .openBrace
  | '\x7d' => some .closeBrace
  | '+' => some .plus
  | '-' => some .minus
  | '*' => some .star
  | '/' => some .slash
  | '<' => some .less
  | '>' => some .greater
  | '=' => some .assign
  | _ => none

/-- The type that a type specifier names. -/
def type? : Token → Option Ty
  | .kwInt => some .int
  | .kwFloat => some .float
  | _ => none

/-- The token names a type. -/
def isTypeSpecifier (t : Token) : Bool :=
  t.type?.isSome

/-- The operator that a token stands for between two operands. -/
def operator? : Token → Option BinaryOp
  | .plus => some (.arith .add)
  | .minus => some (.arith .sub)
  | .star => some (.arith .mul)
  | .slash => some (.arith .div)
  | .less => some (.compare .less)
  | .greater => some (.compare .greater)
  | .equal => some (.compare .equal)
  | _ => none

/-- The token may stand between two operands. -/
def isOperator (t : Token) : Bool :=
  t.operator?.isSome

/-- The token as it is written in a program. -/
def text : Token → String
  | .kwInt => "int"
  | .kwFloat => "float"
  | .kwReturn => "return"
  | .kwIf => "if"
  | .kwElse => "else"
  | .kwWhile => "while"
  | .kwFor => "for"
  | .identifier name => name
  | .intLit value => integerText value
  | .floatLit value => value.text
  | .openParen => "("
  | .closeParen => ")"
  | .openBrace => "\x7b"
  | .closeBrace => "\x7d"
  | .semicolon => ";"
  | .comma => ","
  | .plus => "+"
  | .minus => "-"
  | .star => "*"
  | .slash => "/"
  | .assign => "="
  | .equal => "=="
  | .less => "<"
  | .greater => ">"

/-- The kind of a token, with the name or the value that it carries. -/
def description : Token → String
  | .kwInt => "Int"
  | .kwFloat => "Float"
  | .kwReturn => "Return"
  | .kwIf => "If"
  | .kwElse => "Else"
  | .kwWhile => "While"
  | .kwFor => "For"
  | .identifier name => "Identifier(" ++ Text.quote name ++ ")"
  | .intLit value => "IntConst(" ++ integerText value ++ ")"
  | .floatLit value => "FloatConst(" ++ value.text ++ ")"
  | .openParen => "OpenParanth"
  | .closeParen => "CloseParanth"
  | .openBrace => "OpenCurly"
  | .closeBrace => "CloseCurly"
  | .semicolon => "Semicolon"
  | .comma => "Comma"
  | .plus => "Plus"
  | .minus => "Hyphen"
  | .star => "Asterisk"
  | .slash => "FSlash"
  | .assign => "Assign"
  | .equal => "IsEqual"
  | .less => "IsLessThan"
  | .greater => "IsGreaterThan"

end Token

/-- A token and the line on which it stands; lines count from one. -/
structure Located where
  token : Token
  line : Nat
  deriving DecidableEq

/-- The line of a token listing: kind, text and place. -/
def Located.description (t : Located) : String :=
  t.token.description ++ " '" ++ t.token.text ++ "' (line " ++ digits t.line ++ ")"

end TinyImp
