import TinyImp.Diagnostic
import TinyImp.Token.Lexeme

/-!
# Scanning

A scanner reads lexemes one after the other. Blanks move it on, and a line feed starts a new line;
words, numbers and symbols become tokens at the current line; any other character is reported, but
the same character only once on each line, and so is an integer literal out of range.

`Scanner.next` reads up to the next token and no further, so that a problem beyond the token is not
reported before the token after it is asked for. `scan` reads a whole text.
-/

namespace TinyImp

/-- The place of a scanner: the current line, and the stray characters reported on it. -/
structure Place where
  line : Nat := 1
  reported : List Char := []
  deriving DecidableEq

/-- What reading one lexeme brings about. -/
structure Reading where
  token : Option Located := none
  report : Option Report := none
  place : Place

/-- The value of a sequence of decimal digits. -/
def decimalValue (ds : List Char) : Nat :=
  ds.foldl (fun n d => 10 * n + (d.toNat - '0'.toNat)) 0

namespace Lexeme

/-- The value of a number with a fraction: all its digits, over a power of ten. -/
def decimalConst (whole fraction : List Char) : Binary64 :=
  .ofRatio (decimalValue (whole ++ fraction)) (Nat.pow 10 fraction.length)

/-- Reads one lexeme at a place. -/
def read (place : Place) : Lexeme → Reading
  | .blank c =>
    if c = '\n' then ⟨none, none, ⟨place.line + 1, []⟩⟩ else ⟨none, none, place⟩
  | .word letters => ⟨some ⟨.ofWord (String.ofList letters), place.line⟩, none, place⟩
  | .integer whole =>
    let value := decimalValue whole
    if value ≤ maxInt then ⟨some ⟨.intLit value, place.line⟩, none, place⟩
    else
      ⟨some ⟨.intLit maxInt, place.line⟩,
        some ⟨place.line, .integerTooLarge (String.ofList whole)⟩, place⟩
  | .decimal whole fraction =>
    ⟨some ⟨.floatLit (decimalConst whole fraction), place.line⟩, none, place⟩
  | .equality => ⟨some ⟨.equal, place.line⟩, none, place⟩
  | .single c =>
    match Token.ofSymbol? c with
    | some token => ⟨some ⟨token, place.line⟩, none, place⟩
    | none =>
      if c ∈ place.reported then ⟨none, none, place⟩
      else
        ⟨none, some ⟨place.line, .strayCharacter c⟩,
          { place with reported := c :: place.reported }⟩

end Lexeme

/-- What a text holds: its tokens and the problems met among them. -/
structure Scan where
  tokens : List Located := []
  reports : List Report := []
  deriving DecidableEq

/-- Reads all lexemes from a place on. -/
def Scan.ofLexemes (place : Place) : List Lexeme → Scan
  | [] => {}
  | lexeme :: rest =>
    let reading := lexeme.read place
    let later := ofLexemes reading.place rest
    ⟨reading.token.toList ++ later.tokens, reading.report.toList ++ later.reports⟩

/-- Reads a whole program text. -/
def scan (source : String) : Scan :=
  .ofLexemes {} (Lexeme.split source.toList)

/-! ### One token at a time -/

/-- A scanner in the middle of a text. -/
structure Scanner where
  unread : List Lexeme
  place : Place := {}
  reports : List Report := []
  deriving DecidableEq

namespace Scanner

/-- The scanner at the start of a text. -/
def ofSource (source : String) : Scanner :=
  { unread := Lexeme.split source.toList }

/-- Reads up to the next token, or to the end when no token is left. -/
def nextFrom (place : Place) (reports : List Report) :
    List Lexeme → Option Located × Scanner
  | [] => (none, ⟨[], place, reports⟩)
  | lexeme :: rest =>
    let reading := lexeme.read place
    let reports := reports ++ reading.report.toList
    match reading.token with
    | some token => (some token, ⟨rest, reading.place, reports⟩)
    | none => nextFrom reading.place reports rest

/-- The next token, if there is one, and the scanner behind it. -/
def next (s : Scanner) : Option Located × Scanner :=
  nextFrom s.place s.reports s.unread

/-- Asks for a token `n` times, or until there is none. The result holds the tokens, whether the
end was met, and the scanner where it stopped. -/
def take (s : Scanner) : Nat → List Located × Bool × Scanner
  | 0 => ([], false, s)
  | n + 1 =>
    match s.next with
    | (none, after) => ([], true, after)
    | (some token, after) =>
      let (tokens, ended, last) := after.take n
      (token :: tokens, ended, last)

/-- Asks for tokens until there is none. Every token takes a lexeme, so one more question than
there are lexemes meets the end. -/
def takeAll (s : Scanner) : List Located × Bool × Scanner :=
  s.take (s.unread.length + 1)

end Scanner

end TinyImp
