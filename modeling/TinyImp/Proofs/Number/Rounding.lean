import Mathlib.Algebra.Order.Field.Basic
import Mathlib.Algebra.Order.Field.Rat
import Mathlib.Algebra.Order.Ring.Abs
import Mathlib.Order.Monotone.Basic
import Mathlib.Tactic.Linarith
import Mathlib.Tactic.FieldSimp
import Mathlib.Tactic.Ring
import TinyImp.Number.Binary64

/-!
# Correct rounding

The nonnegative doubles, infinity included, are numbered by their bits. Measured in units of the
least positive double, the double with the bits `n` is the `n`-th point of a *grid* of natural
numbers (`Binary64.grid`): the steps of one scale are equally far apart, and where one scale ends
the next begins. Infinity stands one step behind the last finite double.

A double is the correctly rounded form of a number if no other double is nearer, and if it is even
wherever another one is as near (`Binary64.IsRounded`). There is at most one such double
(`Binary64.IsRounded.unique`), and **`Binary64.ofRatio` finds it** (`Binary64.isRounded_ofRatio`):
the quotient lies between two neighbours of the grid, and the remainder of the division tells
which of the two is nearer.
-/

namespace TinyImp

namespace Binary64

/-! ### The grid of the doubles -/

/-- The nonnegative double with the given bits, in units of the least positive double. -/
def grid (n : ℕ) : ℕ :=
  if n < 2 ^ 52 then n else (2 ^ 52 + n % 2 ^ 52) * 2 ^ (n / 2 ^ 52 - 1)

/-- The steps fill the fraction of their scale, or the scale is the lowest one. -/
def Fits (scale steps : ℕ) : Prop :=
  2 ^ 52 ≤ steps ∨ scale = 0

/-- Scale and steps stand side by side in the bits; a carry out of the steps is the least number of
the next scale. -/
theorem grid_eq {scale steps : ℕ} (hfits : Fits scale steps) (hle : steps ≤ 2 ^ 53) :
    grid (scale * 2 ^ 52 + steps) = steps * 2 ^ scale := by
  rcases Nat.lt_or_ge steps (2 ^ 52) with hlow | hnormal
  · obtain rfl : scale = 0 := hfits.resolve_left (by omega)
    rw [Nat.zero_mul, Nat.zero_add, grid, if_pos hlow, pow_zero, Nat.mul_one]
  · have hge : ¬ scale * 2 ^ 52 + steps < 2 ^ 52 := by omega
    rw [grid, if_neg hge]
    rcases Nat.lt_or_ge steps (2 ^ 53) with hlt | hcarry
    · have hscale : (scale * 2 ^ 52 + steps) / 2 ^ 52 - 1 = scale := by omega
      have hsteps : 2 ^ 52 + (scale * 2 ^ 52 + steps) % 2 ^ 52 = steps := by omega
      rw [hscale, hsteps]
    · have hscale : (scale * 2 ^ 52 + steps) / 2 ^ 52 - 1 = scale + 1 := by omega
      have hsteps : 2 ^ 52 + (scale * 2 ^ 52 + steps) % 2 ^ 52 = 2 ^ 52 := by omega
      obtain rfl : steps = 2 ^ 53 := by omega
      rw [hscale, hsteps]
      ring

/-- Every number has a scale, and steps that fit it. -/
private theorem exists_scale (n : ℕ) :
    ∃ scale steps, n = scale * 2 ^ 52 + steps ∧ Fits scale steps ∧ steps < 2 ^ 53 := by
  refine ⟨n / 2 ^ 52 - 1, n - (n / 2 ^ 52 - 1) * 2 ^ 52, ?_, ?_, ?_⟩ <;> grind [Fits]

/-- The grid goes up. -/
private theorem grid_strictMono : StrictMono grid := by
  refine strictMono_nat_of_lt_succ fun n => ?_
  obtain ⟨scale, steps, rfl, hfits, hlt⟩ := exists_scale n
  have hnext : Fits scale (steps + 1) := hfits.imp_left (by omega)
  rw [grid_eq hfits hlt.le, Nat.add_assoc, grid_eq hnext hlt]
  exact Nat.mul_lt_mul_of_pos_right (Nat.lt_succ_self steps) (by positivity)

/-! ### The nearest point of the grid -/

/-- The bits of infinity, the last point of the grid. -/
def infinityBits : ℕ :=
  2047 * 2 ^ 52

/-- No point of the grid is nearer to `q` than the `n`-th one, which is even wherever another one
is as near. -/
structure Nearest (q : ℚ) (n : ℕ) : Prop where
  le : n ≤ infinityBits
  nearest : ∀ m ≤ infinityBits, |q - grid n| ≤ |q - grid m|
  even : ∀ m ≤ infinityBits, m ≠ n → |q - grid n| = |q - grid m| → n % 2 = 0

private theorem cast_grid_lt {m n : ℕ} (h : m < n) : (grid m : ℚ) < grid n := by
  exact_mod_cast grid_strictMono h

private theorem cast_grid_le {m n : ℕ} (h : m ≤ n) : (grid m : ℚ) ≤ grid n := by
  exact_mod_cast grid_strictMono.monotone h

private theorem sub_grid_le_dist {m n : ℕ} (q : ℚ) (h : m ≤ n) : q - grid n ≤ |q - grid m| :=
  (sub_le_sub_left (cast_grid_le h) q).trans (le_abs_self _)

private theorem sub_grid_lt_dist {m n : ℕ} (q : ℚ) (h : m < n) : q - grid n < |q - grid m| :=
  (sub_lt_sub_left (cast_grid_lt h) q).trans_le (le_abs_self _)

private theorem grid_sub_le_dist {m n : ℕ} (q : ℚ) (h : n ≤ m) : grid n - q ≤ |q - grid m| :=
  (sub_le_sub_right (cast_grid_le h) q).trans ((le_abs_self _).trans_eq (abs_sub_comm _ _))

private theorem grid_sub_lt_dist {m n : ℕ} (q : ℚ) (h : n < m) : grid n - q < |q - grid m| :=
  (sub_lt_sub_right (cast_grid_lt h) q).trans_le ((le_abs_self _).trans_eq (abs_sub_comm _ _))

/-- The neighbour below is the nearest point unless the one above is nearer. Infinity has none
above. -/
theorem Nearest.of_below {q : ℚ} {n : ℕ} (hn : n ≤ infinityBits) (hle : grid n ≤ q)
    (hnear : n < infinityBits → q - grid n ≤ grid (n + 1) - q)
    (htie : n < infinityBits → q - grid n = grid (n + 1) - q → n % 2 = 0) : Nearest q n := by
  have hdist : |q - grid n| = q - grid n := abs_of_nonneg (sub_nonneg.2 hle)
  refine ⟨hn, fun m hm => ?_, fun m hm hne heq => ?_⟩
  · rw [hdist]
    rcases Nat.lt_or_ge n m with h | h
    · exact (hnear (by omega)).trans (grid_sub_le_dist q h)
    · exact sub_grid_le_dist q h
  · rw [hdist] at heq
    rcases hne.lt_or_gt with h | h
    · exact absurd heq (sub_grid_lt_dist q h).ne
    · have hfar := grid_sub_le_dist q (Nat.succ_le_of_lt h)
      exact htie (by omega) (le_antisymm (hnear (by omega)) (heq ▸ hfar))

/-- The neighbour above is the nearest point unless the one below is nearer. -/
theorem Nearest.of_above {q : ℚ} {n : ℕ} (hn : n < infinityBits) (hle : q ≤ grid (n + 1))
    (hnear : grid (n + 1) - q ≤ q - grid n)
    (htie : grid (n + 1) - q = q - grid n → (n + 1) % 2 = 0) : Nearest q (n + 1) := by
  have hdist : |q - grid (n + 1)| = grid (n + 1) - q := by
    rw [abs_sub_comm]
    exact abs_of_nonneg (sub_nonneg.2 hle)
  refine ⟨hn, fun m hm => ?_, fun m hm hne heq => ?_⟩
  · rw [hdist]
    rcases Nat.lt_or_ge n m with h | h
    · exact grid_sub_le_dist q h
    · exact hnear.trans (sub_grid_le_dist q h)
  · rw [hdist] at heq
    rcases hne.lt_or_gt with h | h
    · have hfar := sub_grid_le_dist q (Nat.le_of_lt_succ h)
      exact htie (le_antisymm hnear (heq ▸ hfar))
    · exact absurd heq (grid_sub_lt_dist q h).ne

/-- Two nearest points are the same: two even ones have a point between them, which is nearer. -/
theorem Nearest.unique {q : ℚ} {m n : ℕ} (hm : Nearest q m) (hn : Nearest q n) : m = n := by
  by_contra hne
  wlog hlt : m < n generalizing m n
  · exact this hn hm (Ne.symm hne) (by omega)
  have heq := le_antisymm (hm.nearest n hn.le) (hn.nearest m hm.le)
  have hmeven := hm.even n hn.le (Ne.symm hne) heq
  have hneven := hn.even m hm.le hne heq.symm
  have hlow := cast_grid_lt (Nat.lt_succ_self m)
  have hhigh := cast_grid_lt (show m + 1 < n by omega)
  -- The point behind `m` lies strictly between the two, so it is nearer than the farther one.
  refine absurd (hm.nearest (m + 1) (by have := hn.le; omega)) (not_le.2 ?_)
  rw [abs_lt]
  have := le_abs_self (q - grid m)
  have := neg_le_abs (q - grid n)
  constructor <;> linarith

/-! ### Rounding a quotient -/

/-- The scale chosen for a quotient leaves fifty-three bits of steps, or fewer at the lowest
scale. -/
theorem fits_log2 (num den : ℕ) :
    let scale := (num / den).log2 - 52
    Fits scale (num / (den * 2 ^ scale)) ∧ num / (den * 2 ^ scale) < 2 ^ 53 := by
  intro scale
  have hlt : num / den < 2 ^ ((num / den).log2 + 1) := Nat.lt_log2_self
  rw [← Nat.div_div_eq_div_mul]
  rcases Nat.lt_or_ge 52 (num / den).log2 with hhigh | hlow
  · have hne : num / den ≠ 0 := fun h => by simp [h] at hhigh
    have hge : 2 ^ (num / den).log2 ≤ num / den := Nat.log2_self_le hne
    have hlog : (num / den).log2 = 52 + scale := by omega
    have hpos : 0 < 2 ^ scale := Nat.two_pow_pos scale
    rw [hlog] at hge hlt
    refine ⟨.inl ((Nat.le_div_iff_mul_le hpos).2 ?_), (Nat.div_lt_iff_lt_mul hpos).2 ?_⟩
    · rwa [← pow_add]
    · rwa [← pow_add, Nat.add_right_comm] at *
  · have hscale : scale = 0 := by omega
    rw [hscale, pow_zero, Nat.div_one]
    exact ⟨.inr rfl, hlt.trans_le (Nat.pow_le_pow_right (by omega) (by omega))⟩

/-- The remainder of the division is the distance to the neighbour below. -/
theorem sub_grid_eq {num den scale : ℕ} (hden : 0 < den)
    (hfits : Fits scale (num / (den * 2 ^ scale))) (hlt : num / (den * 2 ^ scale) < 2 ^ 53) :
    (num / den : ℚ) - grid (scale * 2 ^ 52 + num / (den * 2 ^ scale))
      = (num % (den * 2 ^ scale) : ℕ) / den := by
  have hpos : (0 : ℚ) < den := by exact_mod_cast hden
  have hdiv : ((den * 2 ^ scale * (num / (den * 2 ^ scale)) + num % (den * 2 ^ scale) : ℕ) : ℚ)
      = num := by rw [Nat.div_add_mod]
  rw [grid_eq hfits hlt.le, ← hdiv]
  push_cast
  field_simp
  ring

/-- What the remainder lacks to the divisor is the distance to the neighbour above. -/
theorem grid_succ_sub_eq {num den scale : ℕ} (hden : 0 < den)
    (hfits : Fits scale (num / (den * 2 ^ scale))) (hlt : num / (den * 2 ^ scale) < 2 ^ 53) :
    grid (scale * 2 ^ 52 + num / (den * 2 ^ scale) + 1) - (num / den : ℚ)
      = (den * 2 ^ scale - num % (den * 2 ^ scale) : ℕ) / den := by
  have hpos : (0 : ℚ) < den := by exact_mod_cast hden
  have hmod := Nat.mod_lt num (show 0 < den * 2 ^ scale by positivity)
  have hbelow := sub_grid_eq hden hfits hlt
  have hstep := grid_eq (hfits.imp_left (by omega)) (Nat.succ_le_of_lt hlt)
  rw [grid_eq hfits hlt.le] at hbelow
  rw [Nat.add_assoc, hstep, Nat.cast_sub hmod.le, sub_div, ← hbelow]
  push_cast
  field_simp
  ring

section

variable {q : ℚ} {n rest whole den : ℕ}

/-- The neighbour below is the nearest point if the remainder is at most half of the divisor. -/
theorem Nearest.of_twice_le (hden : 0 < den) (hn : n < infinityBits)
    (hbelow : q - grid n = rest / den) (habove : grid (n + 1) - q = (whole - rest : ℕ) / den)
    (htwice : 2 * rest ≤ whole) (htie : 2 * rest = whole → n % 2 = 0) : Nearest q n := by
  have hpos : (0 : ℚ) < den := by exact_mod_cast hden
  have hle : (grid n : ℚ) ≤ q := by
    rw [← sub_nonneg, hbelow]
    exact div_nonneg (Nat.cast_nonneg _) hpos.le
  refine .of_below hn.le hle (fun _ => ?_) fun _ heq => htie ?_
  · rw [hbelow, habove]
    gcongr
    omega
  · rw [hbelow, habove, div_left_inj' hpos.ne', Nat.cast_inj] at heq
    omega

/-- The neighbour above is the nearest point if the remainder is at least half of the divisor. -/
theorem Nearest.of_le_twice (hden : 0 < den) (hn : n < infinityBits)
    (hbelow : q - grid n = rest / den) (habove : grid (n + 1) - q = (whole - rest : ℕ) / den)
    (hrest : rest ≤ whole) (htwice : whole ≤ 2 * rest) (htie : 2 * rest = whole → n % 2 = 1) :
    Nearest q (n + 1) := by
  have hpos : (0 : ℚ) < den := by exact_mod_cast hden
  have hge : q ≤ grid (n + 1) := by
    rw [← sub_nonneg, habove]
    exact div_nonneg (Nat.cast_nonneg _) hpos.le
  refine .of_above hn hge ?_ fun heq => ?_
  · rw [hbelow, habove]
    gcongr
    omega
  · rw [hbelow, habove, div_left_inj' hpos.ne', Nat.cast_inj] at heq
    have := htie (by omega)
    omega

end

/-- **Rounding half to even picks the nearer neighbour.** A quotient beyond the last finite double
goes to infinity. -/
theorem nearest_roundHalfEven {num den scale : ℕ} (hden : 0 < den)
    (hfits : Fits scale (num / (den * 2 ^ scale))) (hlt : num / (den * 2 ^ scale) < 2 ^ 53) :
    Nearest (num / den)
      (min (scale * 2 ^ 52 + roundHalfEven num (den * 2 ^ scale)) infinityBits) := by
  have hmod := Nat.mod_lt num (show 0 < den * 2 ^ scale by positivity)
  have hbelow := sub_grid_eq hden hfits hlt
  have habove := grid_succ_sub_eq hden hfits hlt
  unfold roundHalfEven
  -- From here on only the quotient, the remainder and the divisor matter.
  generalize num / (den * 2 ^ scale) = floor at *
  generalize num % (den * 2 ^ scale) = rest at *
  generalize den * 2 ^ scale = whole at *
  rcases Nat.lt_or_ge (scale * 2 ^ 52 + floor) infinityBits with hfinite | hinfinite
  · dsimp only
    split_ifs with hdown hup
    · rw [Nat.min_eq_left hfinite.le]
      exact .of_twice_le hden hfinite hbelow habove hdown.le (by omega)
    · rw [← Nat.add_assoc, Nat.min_eq_left hfinite]
      exact .of_le_twice hden hfinite hbelow habove hmod.le hup.le (by omega)
    · rcases Nat.mod_two_eq_zero_or_one floor with heven | hodd
      · rw [heven, Nat.add_zero, Nat.min_eq_left hfinite.le]
        exact .of_twice_le hden hfinite hbelow habove (by omega) (by omega)
      · rw [hodd, ← Nat.add_assoc, Nat.min_eq_left hfinite]
        exact .of_le_twice hden hfinite hbelow habove hmod.le (by omega) (by omega)
  · have hle : (grid (scale * 2 ^ 52 + floor) : ℚ) ≤ num / den := by
      rw [← sub_nonneg, hbelow]
      exact div_nonneg (Nat.cast_nonneg _) (Nat.cast_nonneg _)
    rw [Nat.min_eq_right (by dsimp only; split_ifs <;> omega)]
    exact .of_below le_rfl ((cast_grid_le hinfinite).trans hle) (fun h => absurd h (lt_irrefl _))
      fun h => absurd h (lt_irrefl _)

/-! ### Correctly rounded doubles -/

/-- The number that the bits below the sign stand for. Infinity counts as the power of two behind
the last finite double, and a not-a-number as zero. -/
def Magnitude.value : Magnitude → ℚ
  | .nan => 0
  | .infinite => 2 ^ 1024
  | .finite steps scale => steps * 2 ^ scale / 2 ^ 1074

/-- The sign bit is clear and the double is a number, possibly infinity. -/
def Unsigned (x : Binary64) : Prop :=
  x.negative = false ∧ x.magnitude ≠ .nan

/-- `x` is the **correctly rounded** form of `q ≥ 0`: no unsigned double is nearer to `q`, and
where another one is as near, `x` is the one with the even fraction. -/
structure IsRounded (q : ℚ) (x : Binary64) : Prop where
  unsigned : x.Unsigned
  nearest : ∀ y : Binary64, y.Unsigned → |q - x.magnitude.value| ≤ |q - y.magnitude.value|
  even : ∀ y : Binary64, y.Unsigned → y ≠ x →
    |q - x.magnitude.value| = |q - y.magnitude.value| → x.fractionField % 2 = 0

private theorem nat_pow_eq (m n : ℕ) : Nat.pow m n = m ^ n := rfl

private theorem magnitude_eq_nan_iff (x : Binary64) :
    x.magnitude = .nan ↔ x.exponentField = 2047 ∧ x.fractionField ≠ 0 := by
  rw [magnitude]
  split_ifs <;> simp_all

private theorem unsigned_iff (x : Binary64) : x.Unsigned ↔ x.bits.toNat ≤ infinityBits := by
  simp only [Unsigned, ne_eq, magnitude_eq_nan_iff, negative, exponentField, fractionField,
    infinityBits, nat_pow_eq, decide_eq_false_iff_not]
  omega

/-- The value of an unsigned double is its point of the grid. -/
theorem Unsigned.value_eq {x : Binary64} (hx : x.Unsigned) :
    x.magnitude.value = grid x.bits.toNat / 2 ^ 1074 := by
  rw [unsigned_iff, infinityBits] at hx
  have hexp : x.exponentField = x.bits.toNat / 2 ^ 52 := by
    rw [exponentField, nat_pow_eq, nat_pow_eq]
    omega
  have hfrac : x.fractionField = x.bits.toNat % 2 ^ 52 := rfl
  rcases Nat.lt_or_ge x.bits.toNat (2 ^ 52) with hsub | hnormal
  · have hzero : x.exponentField = 0 := by omega
    rw [magnitude, if_neg (by omega), if_pos hzero, Magnitude.value, grid, if_pos hsub, hfrac,
      Nat.mod_eq_of_lt hsub, pow_zero, mul_one]
  · rw [grid, if_neg (by omega), ← hfrac, ← hexp, magnitude]
    split_ifs with htop hzero hlow
    · rw [Magnitude.value, hzero, htop, eq_div_iff (by positivity), Nat.add_zero, ← pow_add,
        ← pow_add, Nat.cast_pow, Nat.cast_ofNat]
    · exact absurd hx (by omega)
    · exact absurd hlow (by omega)
    · rw [Magnitude.value, nat_pow_eq]
      push_cast
      rfl

/-- Distances of values are distances on the grid. -/
private theorem dist_value (q : ℚ) {x : Binary64} (hx : x.Unsigned) :
    |q - x.magnitude.value| = |q * 2 ^ 1074 - grid x.bits.toNat| / 2 ^ 1074 := by
  have hpos : (0 : ℚ) < 2 ^ 1074 := by positivity
  rw [hx.value_eq]
  generalize (2 : ℚ) ^ 1074 = unit at *
  calc |q - grid x.bits.toNat / unit|
      = |(q * unit - grid x.bits.toNat) / unit| := by rw [sub_div, mul_div_cancel_right₀ q hpos.ne']
    _ = |q * unit - grid x.bits.toNat| / unit := by rw [abs_div, abs_of_pos hpos]

private theorem toNat_toUInt64 {n : ℕ} (hn : n ≤ infinityBits) : n.toUInt64.toNat = n := by
  refine Nat.mod_eq_of_lt ?_
  unfold infinityBits at hn
  omega

/-- A double is correctly rounded if its bits number the nearest point of the grid. -/
theorem IsRounded.of_nearest {q : ℚ} {x : Binary64}
    (h : Nearest (q * 2 ^ 1074) x.bits.toNat) : IsRounded q x := by
  have hpos : (0 : ℚ) < 2 ^ 1074 := by positivity
  have hx : x.Unsigned := (unsigned_iff x).2 h.le
  refine ⟨hx, fun y hy => ?_, fun y hy hne heq => ?_⟩
  · rw [dist_value q hx, dist_value q hy]
    exact div_le_div_of_nonneg_right (h.nearest _ ((unsigned_iff y).1 hy)) hpos.le
  · rw [dist_value q hx, dist_value q hy, div_left_inj' hpos.ne'] at heq
    have hbits : y.bits.toNat ≠ x.bits.toNat := fun h =>
      hne (congrArg Binary64.mk (UInt64.toNat_inj.1 h))
    have heven := h.even _ ((unsigned_iff y).1 hy) hbits heq
    rw [fractionField, nat_pow_eq]
    omega

/-- The bits of the rounded value are the number of the nearest point. -/
private theorem IsRounded.nearest_bits {q : ℚ} {x : Binary64} (h : IsRounded q x) :
    Nearest (q * 2 ^ 1074) x.bits.toNat := by
  have hpos : (0 : ℚ) < 2 ^ 1074 := by positivity
  -- Every point of the grid is the double with its number as bits.
  have hy {m : ℕ} (hm : m ≤ infinityBits) : Unsigned ⟨m.toUInt64⟩ :=
    (unsigned_iff _).2 ((toNat_toUInt64 hm).trans_le hm)
  have hdist {m : ℕ} (hm : m ≤ infinityBits) :
      |q - (Binary64.mk m.toUInt64).magnitude.value| = |q * 2 ^ 1074 - grid m| / 2 ^ 1074 := by
    rw [dist_value q (hy hm), toNat_toUInt64 hm]
  refine ⟨(unsigned_iff x).1 h.unsigned, fun m hm => ?_, fun m hm hne heq => ?_⟩
  · have hle := h.nearest _ (hy hm)
    rwa [dist_value q h.unsigned, hdist hm, div_le_div_iff_of_pos_right hpos] at hle
  · have hbits : Binary64.mk m.toUInt64 ≠ x := fun hx => hne (by rw [← hx, toNat_toUInt64 hm])
    have heven := h.even _ (hy hm) hbits (by rw [dist_value q h.unsigned, hdist hm, heq])
    rw [fractionField, nat_pow_eq] at heven
    omega

/-- **A number has at most one correctly rounded form.** -/
theorem IsRounded.unique {q : ℚ} {x y : Binary64} (hx : IsRounded q x) (hy : IsRounded q y) :
    x = y :=
  congrArg Binary64.mk (UInt64.toNat_inj.1 (hx.nearest_bits.unique hy.nearest_bits))

/-- **`ofRatio` rounds correctly.** -/
theorem isRounded_ofRatio (num : ℕ) {den : ℕ} (hden : 0 < den) :
    IsRounded (num / den) (ofRatio num den) := by
  obtain ⟨hfits, hlt⟩ := fits_log2 (num * 2 ^ 1074) den
  have hnear := nearest_roundHalfEven hden hfits hlt
  have hunits : (num / den : ℚ) * 2 ^ 1074 = (num * 2 ^ 1074 : ℕ) / den := by
    rw [Nat.cast_mul, Nat.cast_pow, Nat.cast_ofNat, div_mul_eq_mul_div]
  refine .of_nearest ?_
  rw [hunits]
  simp only [ofRatio, nat_pow_eq]
  generalize num * 2 ^ 1074 = units at *
  rw [← infinityBits, toNat_toUInt64 hnear.le]
  exact hnear

end Binary64

end TinyImp
