import TinyImp.Number.Binary64

/-!
# The shortest decimal that reads back

Every real number in the *rounding interval* of a double reads back as that double. The
shortest decimal is the one with the fewest digits in this interval, and of several such the one
nearest to the double; when two are equally near, the larger is taken.

All quantities are natural numbers counted in units of `10 ^ (-1076)`, in which every finite double
and both ends of its rounding interval are whole. A decimal with few digits is a multiple of a high
power of ten, so the search asks for the highest power with a multiple in the interval.
-/

namespace TinyImp

/-- The decimal number `coefficient · 10 ^ exponent`. -/
structure Decimal where
  coefficient : Nat
  exponent : Int
  deriving DecidableEq

namespace Shortest

/-- One unit is `10 ^ (-unitPlaces)`. -/
def unitPlaces : Nat := 1076

/-- A value in units, with the least and the greatest unit count that read back as it. -/
structure Interval where
  least : Nat
  value : Nat
  greatest : Nat

/-- The rounding interval of the finite double `steps · 2 ^ (scale - 1074)`.

The neighbours are one step away, except that below a power of two the step halves. The two
half-way points belong to the interval when the number of steps is even. -/
def Interval.ofSteps (steps scale : Nat) : Interval :=
  let quarterStep := Nat.pow 2 scale * Nat.pow 5 1074 * 25
  let value := 4 * steps * quarterStep
  let below := if steps = Nat.pow 2 52 ∧ 0 < scale then quarterStep else 2 * quarterStep
  let above := 2 * quarterStep
  let margin := if steps % 2 = 0 then 0 else 1
  ⟨value - below + margin, value, value + above - margin⟩

namespace Interval

/-- Some multiple of `10 ^ places` lies in the interval. -/
def holdsMultiple (i : Interval) (places : Nat) : Bool :=
  i.least ≤ i.greatest / Nat.pow 10 places * Nat.pow 10 places

/-- The highest power of ten, at most the given one, that has a multiple in the interval. -/
def coarsest (i : Interval) : Nat → Nat
  | 0 => 0
  | places + 1 => if i.holdsMultiple (places + 1) then places + 1 else i.coarsest places

/-- The multiple of `grid` in the interval that is nearest to the value, divided by `grid`: of the
multiples on both sides of the value, the upper one if the lower is out of the interval, or if it
is in the interval itself and no farther away. -/
def nearest (i : Interval) (grid : Nat) : Nat :=
  let below := i.value / grid
  let remainder := i.value % grid
  let downAllowed := i.least ≤ below * grid
  let upAllowed := (below + 1) * grid ≤ i.greatest
  if ¬ downAllowed ∨ (upAllowed ∧ grid ≤ 2 * remainder) then below + 1 else below

end Interval

end Shortest

/-- The shortest decimal that reads back as the double `steps · 2 ^ (scale - 1074)`.

No power of ten above a third of the binary logarithm needs a try, since `8 < 10`. -/
def Decimal.shortest (steps scale : Nat) : Decimal :=
  let interval := Shortest.Interval.ofSteps steps scale
  let places := interval.coarsest (interval.greatest.log2 / 3)
  ⟨interval.nearest (Nat.pow 10 places), (places : Int) - Shortest.unitPlaces⟩

end TinyImp
