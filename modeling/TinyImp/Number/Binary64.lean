/-!
# Double-precision numbers

A floating-point constant of the language is kept as the 64 bits of its double-precision
form, so that two constants are the same exactly when their bits are: the payload of a
not-a-number and the sign of a zero are never lost.

A finite double is a whole number of *steps* times a power of two: `steps · 2 ^ (scale - 1074)`,
where `2 ^ (-1074)` is the least positive double. `Binary64.ofRatio` rounds a quotient of two
natural numbers to the nearest double, ties to the even neighbour, by one exact integer division.
-/

namespace TinyImp

/-- A double-precision number, given by its bits: a sign, eleven bits of exponent and
fifty-two bits of fraction. -/
structure Binary64 where
  bits : UInt64
  deriving DecidableEq, Inhabited

namespace Binary64

/-- What the bits below the sign stand for. -/
inductive Magnitude where
  | nan
  | infinite
  /-- The number `steps · 2 ^ (scale - 1074)`. -/
  | finite (steps scale : Nat)
  deriving DecidableEq

/-- The sign bit is set. -/
def negative (x : Binary64) : Bool :=
  Nat.pow 2 63 ≤ x.bits.toNat

/-- The eleven bits below the sign. -/
def exponentField (x : Binary64) : Nat :=
  x.bits.toNat / Nat.pow 2 52 % Nat.pow 2 11

/-- The fifty-two lowest bits. -/
def fractionField (x : Binary64) : Nat :=
  x.bits.toNat % Nat.pow 2 52

/-- The absolute value. Exponent zero marks the subnormal numbers, which have no leading
one; the highest exponent marks infinity and the not-a-numbers. -/
def magnitude (x : Binary64) : Magnitude :=
  if x.exponentField = 2047 then
    if x.fractionField = 0 then .infinite else .nan
  else if x.exponentField = 0 then
    .finite x.fractionField 0
  else
    .finite (Nat.pow 2 52 + x.fractionField) (x.exponentField - 1)

/-- The quotient rounded to the nearest natural number, a half going to the even one. -/
def roundHalfEven (num den : Nat) : Nat :=
  let quotient := num / den
  let twice := 2 * (num % den)
  if twice < den then quotient
  else if den < twice then quotient + 1
  else quotient + quotient % 2

/-- The nonnegative double nearest to `num / den`, a tie going to the even fraction; a quotient
beyond the finite range gives infinity.

The scale leaves fifty-three bits of steps, or fewer at scale zero. Since a subnormal has
scale zero and no leading one, and since a carry out of the steps moves to the next scale, the
bits of the result are `scale · 2 ^ 52 + steps` in every case. -/
def ofRatio (num den : Nat) : Binary64 :=
  let scale := (num * Nat.pow 2 1074 / den).log2 - 52
  let steps := roundHalfEven (num * Nat.pow 2 1074) (den * Nat.pow 2 scale)
  ⟨(min (scale * Nat.pow 2 52 + steps) (2047 * Nat.pow 2 52)).toUInt64⟩

end Binary64

end TinyImp
