import TinyImp.Text.Extending
import TinyImp.Text.Unprintable

/-!
# Quoted text

A name is shown between double quotes. Inside them a backslash stands before a quote or a
backslash, four control characters have a letter of their own, and every other character that
could not be told apart on paper is given by its code point in hexadecimal.
-/

namespace TinyImp.Text

/-- The code point between braces, in lower-case hexadecimal without leading zeros. -/
def codePoint (c : Char) : List Char :=
  ['\\', 'u', '\x7b'] ++ Nat.toDigits 16 c.toNat ++ ['\x7d']

/-- The characters that stand for one character inside quotes. -/
def escape (c : Char) : List Char :=
  match c with
  | '"' => ['\\', '"']
  | '\\' => ['\\', '\\']
  | '\n' => ['\\', 'n']
  | '\r' => ['\\', 'r']
  | '\t' => ['\\', 't']
  | '\x00' => ['\\', '0']
  | c => if isUnprintable c || isExtending c then codePoint c else [c]

/-- The text between double quotes. -/
def quote (s : String) : String :=
  String.ofList ('"' :: s.toList.flatMap escape ++ ['"'])

end TinyImp.Text
