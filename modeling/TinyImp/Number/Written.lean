import TinyImp.Number.Shortest

/-!
# Written numbers

The text of a floating-point constant: the digits of its shortest decimal, with a decimal point
where the number is neither very large nor very small, and with a power of ten elsewhere.
-/

namespace TinyImp

/-- The decimal digits of a natural number, most significant first. -/
def digits (n : Nat) : String :=
  String.ofList (Nat.toDigits 10 n)

namespace Decimal

/-- The power of ten of the leading digit. -/
def leadingPlace (d : Decimal) : Int :=
  (digits d.coefficient).length - 1 + d.exponent

/-- Numbers from one ten-thousandth up to, but not including, ten to the sixteenth are written
positionally. -/
def isPositional (d : Decimal) : Bool :=
  -4 ≤ d.leadingPlace ∧ d.leadingPlace < 16

/-- Positional notation, with at least one digit on each side of the point. -/
def positional (d : Decimal) : String :=
  let ds := Nat.toDigits 10 d.coefficient
  let zeros (n : Nat) : List Char := List.replicate n '0'
  let (whole, fraction) :=
    if 0 ≤ d.exponent then (ds ++ zeros d.exponent.toNat, ['0'])
    else if 0 ≤ d.leadingPlace then ds.splitAt (d.leadingPlace.toNat + 1)
    else (['0'], zeros (-d.leadingPlace).toNat.pred ++ ds)
  String.ofList whole ++ "." ++ String.ofList fraction

/-- One digit, the others after a point if there are any, and the power of ten. -/
def scientific (d : Decimal) : String :=
  let (leading, others) := (Nat.toDigits 10 d.coefficient).splitAt 1
  let fraction := if others.isEmpty then "" else "." ++ String.ofList others
  let sign := if d.leadingPlace < 0 then "-" else ""
  String.ofList leading ++ fraction ++ "e" ++ sign ++ digits d.leadingPlace.natAbs

/-- The text of a positive decimal. -/
def text (d : Decimal) : String :=
  if d.isPositional then d.positional else d.scientific

end Decimal

/-- The text of a floating-point constant. A zero keeps its sign and a not-a-number has none. -/
def Binary64.text (x : Binary64) : String :=
  let sign := if x.negative then "-" else ""
  match x.magnitude with
  | .nan => "NaN"
  | .infinite => sign ++ "inf"
  | .finite 0 _ => sign ++ "0.0"
  | .finite steps scale => sign ++ (Decimal.shortest steps scale).text

/-- The decimal text of an integer constant. -/
def integerText (i : Int) : String :=
  if i < 0 then "-" ++ digits i.natAbs else digits i.natAbs

end TinyImp
