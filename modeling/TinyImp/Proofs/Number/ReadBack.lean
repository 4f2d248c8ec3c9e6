import TinyImp.Number.Written
import TinyImp.Proofs.Scanning.Spacing
import TinyImp.Proofs.Text.Lines

/-!
# Written numbers can be read back

The text of a double is the shortest decimal in its rounding interval. **That decimal reads back as
the double**: no other double is nearer to it (`Binary64.nearest_shortest`). The value of a decimal
can be recovered from its text in either notation (`Decimal.written_text`), so two doubles with the
same text are the same, not-a-numbers apart (`Binary64.text_injective`).
-/

namespace TinyImp

/-! ### Rounding intervals -/

namespace Shortest.Interval

/-- The search ends at the finest grid, or at one that has a multiple in the interval. -/
theorem coarsest_spec (i : Interval) (places : ℕ) :
    i.coarsest places = 0 ∨ i.holdsMultiple (i.coarsest places) = true := by
  induction places with
  | zero => exact .inl rfl
  | succ places ih =>
    rw [coarsest]
    split_ifs with h
    · exact .inr h
    · exact ih

/-- Where a grid has a multiple in the interval, the nearest one is in it too. -/
theorem nearest_mem {i : Interval} {grid : ℕ} (hgrid : 0 < grid) (hleast : i.least ≤ i.value)
    (hgreatest : i.value ≤ i.greatest) (h : i.least ≤ i.greatest / grid * grid) :
    i.least ≤ i.nearest grid * grid ∧ i.nearest grid * grid ≤ i.greatest := by
  have hbelow : i.value / grid * grid ≤ i.value := Nat.div_mul_le_self _ _
  have habove : i.value < (i.value / grid + 1) * grid := by
    rw [Nat.succ_mul]
    exact Nat.lt_div_mul_add hgrid
  rw [nearest]
  split_ifs with hup
  · refine ⟨hleast.trans habove.le, ?_⟩
    rcases hup with hout | ⟨hin, -⟩
    · -- the multiple in the interval is above the value, so the next one is not beyond it
      have hlt : i.value / grid < i.greatest / grid :=
        Nat.lt_of_mul_lt_mul_right ((Nat.lt_of_not_le hout).trans_le h)
      exact (Nat.mul_le_mul_right grid hlt).trans (Nat.div_mul_le_self _ _)
    · exact hin
  · rw [not_or, not_not] at hup
    exact ⟨hup.1, hbelow.trans hgreatest⟩

end Shortest.Interval

/-! ### The shortest decimal reads back -/

/-- The number that a decimal stands for. -/
def Decimal.value (d : Decimal) : ℚ :=
  d.coefficient * 10 ^ d.exponent

namespace Binary64

open Shortest

/-- A quarter of the least positive double, in the units of the rounding intervals. -/
def quarterUnit : ℕ :=
  Nat.pow 5 1074 * 25

/-- A quarter of a step, in the same units. -/
def quarterStep (scale : ℕ) : ℕ :=
  2 ^ scale * quarterUnit

/-- The distance from a double to the lower end of its rounding interval. -/
def lowerReach (steps scale : ℕ) : ℕ :=
  if steps = 2 ^ 52 ∧ 0 < scale then quarterStep scale else 2 * quarterStep scale

private theorem quarterUnit_pos : 0 < quarterUnit := by
  simp only [quarterUnit, Nat.pow_eq]
  positivity

private theorem quarterStep_pos (scale : ℕ) : 0 < quarterStep scale :=
  Nat.mul_pos (Nat.two_pow_pos scale) quarterUnit_pos

private theorem lowerReach_bounds (steps scale : ℕ) :
    0 < lowerReach steps scale ∧ lowerReach steps scale ≤ 2 * quarterStep scale := by
  have hquarter := quarterStep_pos scale
  unfold lowerReach
  split_ifs <;> omega

/-- The ends of the rounding interval: both half-way points, which an odd double leaves to its
neighbours. -/
theorem ofSteps_eq (steps scale : ℕ) :
    Interval.ofSteps steps scale =
      ⟨4 * steps * quarterStep scale - lowerReach steps scale + steps % 2,
        4 * steps * quarterStep scale,
        4 * steps * quarterStep scale + 2 * quarterStep scale - steps % 2⟩ := by
  have hmargin : (if steps % 2 = 0 then 0 else 1) = steps % 2 := by split_ifs <;> omega
  have hquarter : Nat.pow 2 scale * Nat.pow 5 1074 * 25 = quarterStep scale := by
    rw [Nat.mul_assoc, ← quarterUnit, Nat.pow_eq, ← quarterStep]
  simp only [Interval.ofSteps, hquarter, hmargin, lowerReach]
  simp only [Nat.pow_eq]

/-- The double below is twice the reach away. -/
theorem grid_pred {steps scale : ℕ} (hsteps : 0 < steps) (hfits : Fits scale steps)
    (hle : steps ≤ 2 ^ 53) :
    grid (scale * 2 ^ 52 + steps - 1) * (4 * quarterUnit) + 2 * lowerReach steps scale =
      4 * steps * quarterStep scale := by
  unfold lowerReach quarterStep
  generalize quarterUnit = unit
  split_ifs with hpower
  · obtain ⟨rfl, hscale⟩ := hpower
    obtain ⟨scale, rfl⟩ := Nat.exists_eq_add_of_lt hscale
    have hbits : (0 + scale + 1) * 2 ^ 52 + 2 ^ 52 - 1 = scale * 2 ^ 52 + 9007199254740991 := by
      omega
    rw [hbits, grid_eq (.inl (by decide)) (by decide)]
    ring
  · obtain ⟨steps, rfl⟩ := Nat.exists_eq_add_of_lt hsteps
    have hbits : scale * 2 ^ 52 + (0 + steps + 1) - 1 = scale * 2 ^ 52 + steps := by omega
    have hfits' : Fits scale steps := by
      rw [not_and_or] at hpower
      rcases hfits with h | h
      · exact hpower.imp (by omega) (by omega)
      · exact .inr h
    rw [hbits, grid_eq hfits' (by omega)]
    ring

/-- The double above is a step away. -/
theorem grid_succ {steps scale : ℕ} (hfits : Fits scale steps) (hlt : steps < 2 ^ 53) :
    grid (scale * 2 ^ 52 + steps + 1) * (4 * quarterUnit) =
      4 * steps * quarterStep scale + 4 * quarterStep scale := by
  rw [Nat.add_assoc, grid_eq (hfits.imp_left (by omega)) (show steps + 1 ≤ 2 ^ 53 from hlt),
    quarterStep]
  ring

section

variable {n unit lower upper : ℕ}

/-- Twice a quotient, compared with the sum of two numbers. -/
theorem twice_quotient_le_iff (hunit : 0 < unit) :
    2 * (n / unit : ℚ) ≤ lower + upper ↔ 2 * n ≤ lower * unit + upper * unit := by
  have hpos : (0 : ℚ) < unit := by exact_mod_cast hunit
  rw [← mul_div_assoc, div_le_iff₀ hpos, add_mul]
  exact_mod_cast Iff.rfl

private theorem le_twice_quotient_iff (hunit : 0 < unit) :
    lower + upper ≤ 2 * (n / unit : ℚ) ↔ lower * unit + upper * unit ≤ 2 * n := by
  have hpos : (0 : ℚ) < unit := by exact_mod_cast hunit
  rw [← mul_div_assoc, le_div_iff₀ hpos, add_mul]
  exact_mod_cast Iff.rfl

end

/-- **What lies in the rounding interval of a double is nearest to it.** -/
theorem nearest_of_mem {steps scale n : ℕ} (hsteps : 0 < steps) (hfits : Fits scale steps)
    (hlt : steps < 2 ^ 53) (hfinite : scale * 2 ^ 52 + steps < infinityBits)
    (hleast : (Interval.ofSteps steps scale).least ≤ n)
    (hgreatest : n ≤ (Interval.ofSteps steps scale).greatest) :
    Nearest (n / (4 * quarterUnit : ℕ)) (scale * 2 ^ 52 + steps) := by
  have hunit : 0 < 4 * quarterUnit := Nat.mul_pos (by decide) quarterUnit_pos
  have hpos : (0 : ℚ) < (4 * quarterUnit : ℕ) := by exact_mod_cast hunit
  have hpred := grid_pred hsteps hfits hlt.le
  have hself : grid (scale * 2 ^ 52 + steps) * (4 * quarterUnit) =
      4 * steps * quarterStep scale := by
    rw [grid_eq hfits hlt.le, quarterStep]
    ring
  have hsucc := grid_succ hfits hlt
  have hquarter := quarterStep_pos scale
  have hparity : (scale * 2 ^ 52 + steps) % 2 = steps % 2 := by omega
  rw [ofSteps_eq] at hleast hgreatest
  dsimp only at hleast hgreatest
  obtain ⟨bits, hbits⟩ : ∃ bits, scale * 2 ^ 52 + steps = bits + 1 :=
    Nat.exists_eq_add_one.mpr (by omega)
  rw [hbits] at hfinite hpred hself hsucc hparity ⊢
  rw [Nat.add_sub_cancel] at hpred
  -- From here on only the three neighbours matter, and their distances in units.
  generalize 4 * quarterUnit = unit at *
  generalize 4 * steps * quarterStep scale = value at *
  rcases Nat.lt_or_ge n value with hbelow | habove
  · have hle : (n / unit : ℚ) ≤ grid (bits + 1) := by
      rw [div_le_iff₀ hpos]
      exact_mod_cast hself ▸ hbelow.le
    have hnear : (grid bits + grid (bits + 1) : ℚ) ≤ 2 * (n / unit) := by
      rw [le_twice_quotient_iff hunit]
      omega
    refine .of_above (by omega) hle (by linarith) fun htie => ?_
    have htwice : 2 * n ≤ grid bits * unit + grid (bits + 1) * unit :=
      (twice_quotient_le_iff hunit).mp (by linarith)
    omega
  · have hle : (grid (bits + 1) : ℚ) ≤ n / unit := by
      rw [le_div_iff₀ hpos]
      exact_mod_cast hself ▸ habove
    have hnear : 2 * (n / unit : ℚ) ≤ grid (bits + 1) + grid (bits + 1 + 1) := by
      rw [twice_quotient_le_iff hunit]
      omega
    refine .of_below hfinite.le hle (fun _ => by linarith) fun _ htie => ?_
    have htwice : grid (bits + 1) * unit + grid (bits + 1 + 1) * unit ≤ 2 * n :=
      (le_twice_quotient_iff hunit).mp (by linarith)
    omega

/-- The units of the rounding intervals, and those of the grid. -/
theorem ten_pow_unitPlaces : (10 : ℚ) ^ unitPlaces = 2 ^ 1074 * (4 * quarterUnit : ℕ) := by
  have hpow (k : ℕ) : (10 : ℚ) ^ (k + 2) = 2 ^ k * (4 * (5 ^ k * 25)) := by
    rw [show (10 : ℚ) = 2 * 5 by norm_num, mul_pow, pow_add, pow_add]
    ring
  have hunit : ((4 * quarterUnit : ℕ) : ℚ) = 4 * (5 ^ 1074 * 25) := by
    simp only [quarterUnit, Nat.pow_eq, Nat.cast_mul, Nat.cast_pow, Nat.cast_ofNat]
  rw [hunit]
  exact hpow 1074

/-- The shortest decimal lies in the rounding interval. -/
theorem shortest_mem {steps : ℕ} (hsteps : 0 < steps) (scale : ℕ) :
    ∃ places : ℕ, (Decimal.shortest steps scale).exponent = places - unitPlaces ∧
      (Interval.ofSteps steps scale).least ≤
        (Decimal.shortest steps scale).coefficient * 10 ^ places ∧
      (Decimal.shortest steps scale).coefficient * 10 ^ places ≤
        (Interval.ofSteps steps scale).greatest := by
  have hreach := lowerReach_bounds steps scale
  have hvalue : 4 * quarterStep scale ≤ 4 * steps * quarterStep scale :=
    Nat.mul_le_mul_right _ (by omega)
  obtain ⟨hleast, hgreatest⟩ : (Interval.ofSteps steps scale).least ≤
      (Interval.ofSteps steps scale).value ∧
      (Interval.ofSteps steps scale).value ≤ (Interval.ofSteps steps scale).greatest := by
    have hquarter := quarterStep_pos scale
    rw [ofSteps_eq]
    dsimp only
    generalize 4 * steps * quarterStep scale = value at *
    omega
  simp only [Decimal.shortest]
  generalize Interval.ofSteps steps scale = i at *
  refine ⟨_, rfl, Interval.nearest_mem (Nat.pow_pos (by decide)) hleast hgreatest ?_⟩
  rcases i.coarsest_spec (i.greatest.log2 / 3) with hzero | hmultiple
  · rw [hzero, Nat.pow_eq, pow_zero, Nat.div_one, Nat.mul_one]
    exact hleast.trans hgreatest
  · simpa only [Interval.holdsMultiple, decide_eq_true_eq, Nat.pow_eq] using hmultiple

/-- **The shortest decimal reads back.** -/
theorem nearest_shortest {steps scale : ℕ} (hsteps : 0 < steps) (hfits : Fits scale steps)
    (hlt : steps < 2 ^ 53) (hfinite : scale * 2 ^ 52 + steps < infinityBits) :
    Nearest ((Decimal.shortest steps scale).value * 2 ^ 1074) (scale * 2 ^ 52 + steps) := by
  obtain ⟨places, hexponent, hleast, hgreatest⟩ := shortest_mem hsteps scale
  have hnear := nearest_of_mem hsteps hfits hlt hfinite hleast hgreatest
  have hvalue : (Decimal.shortest steps scale).value * 2 ^ 1074 =
      ((Decimal.shortest steps scale).coefficient * 10 ^ places : ℕ) / (4 * quarterUnit : ℕ) := by
    have hunit : ((4 * quarterUnit : ℕ) : ℚ) ≠ 0 := by
      exact_mod_cast (Nat.mul_pos (by decide) quarterUnit_pos).ne'
    rw [Decimal.value, hexponent, zpow_sub₀ (by norm_num), zpow_natCast, zpow_natCast,
      ten_pow_unitPlaces, Nat.cast_mul _ (10 ^ places), Nat.cast_pow, Nat.cast_ofNat]
    field_simp
  rw [hvalue]
  exact hnear

end Binary64

/-! ### Decimal notation -/

namespace Decimal

open Lexical (numeral numeral_append decimalValue_eq mem_digits)

/-- The number in front of a power of ten: digits, possibly with a point among them. -/
def mantissaValue (t : List Char) : ℚ :=
  numeral ((cut '.' t).1 ++ (cut '.' t).2) / 10 ^ (cut '.' t).2.length

/-- The exponent of a power of ten: digits, possibly with a minus sign in front. -/
def exponentValue : List Char → ℤ
  | '-' :: ds => -numeral ds
  | ds => numeral ds

/-- The number that is written in decimal notation, with or without a power of ten. -/
def writtenValue (t : List Char) : ℚ :=
  mantissaValue (cut 'e' t).1 * 10 ^ exponentValue (cut 'e' t).2

/-- The text is a number in decimal notation, and shows by a point or a power of ten that it is not
an integer constant. -/
structure Written (t : List Char) (q : ℚ) : Prop where
  value : writtenValue t = q
  head : ∃ c rest, t = c :: rest ∧ c.isDigit
  chars : ∀ c ∈ t, c.isDigit ∨ c = '.' ∨ c = 'e' ∨ c = '-'
  mark : '.' ∈ t ∨ 'e' ∈ t

private theorem ne_of_isDigit {c d : Char} (hc : c.isDigit) (hd : d.isDigit = false) : c ≠ d := by
  rintro rfl
  rw [hd] at hc
  cases hc

private theorem notMem_digits {ds : List Char} (h : ∀ c ∈ ds, c.isDigit) {d : Char}
    (hd : d.isDigit = false) : d ∉ ds := fun hmem =>
  ne_of_isDigit (h d hmem) hd rfl

private theorem mantissaValue_digits {ds : List Char} (h : ∀ c ∈ ds, c.isDigit) :
    mantissaValue ds = numeral ds := by
  rw [mantissaValue, cut_of_notMem (notMem_digits h rfl)]
  simp

/-- A point divides by a power of ten. -/
private theorem mantissaValue_point {whole : List Char} (hwhole : ∀ c ∈ whole, c.isDigit)
    (fraction : List Char) :
    mantissaValue (whole ++ '.' :: fraction) =
      numeral (whole ++ fraction) / 10 ^ fraction.length := by
  rw [mantissaValue, cut_append (notMem_digits hwhole rfl)]

private theorem numeral_toDigits (n : ℕ) : numeral (Nat.toDigits 10 n) = n := by
  rw [← decimalValue_eq, Token.decimalValue_toDigits]

private theorem numeral_zeros (n : ℕ) : numeral (List.replicate n '0') = 0 := by
  induction n with
  | zero => rfl
  | succ n ih => rw [List.replicate_succ', numeral_append, ih]; rfl

private theorem value_of_exponent_eq_neg {d : Decimal} {n : ℕ} (h : d.exponent = -n) :
    d.value = d.coefficient / 10 ^ n := by
  rw [value, h, zpow_neg, zpow_natCast, div_eq_mul_inv]

private theorem leadingPlace_eq (d : Decimal) :
    d.leadingPlace = (Nat.toDigits 10 d.coefficient).length - 1 + d.exponent := by
  rw [leadingPlace, digits, String.length_ofList]

private theorem zeros_mem (n : ℕ) : ∀ c ∈ List.replicate n '0', c.isDigit := fun c hc => by
  rw [List.eq_of_mem_replicate hc]
  rfl

/-- Positional notation, cut at the point. -/
theorem positional_eq (d : Decimal) :
    ∃ whole fraction, d.positional.toList = whole ++ '.' :: fraction ∧ whole ∈ Lexical.digits ∧
      fraction ∈ Lexical.digits ∧
      (numeral (whole ++ fraction) : ℚ) / 10 ^ fraction.length = d.value := by
  obtain ⟨hne, hdigits⟩ := mem_digits.mp (Token.toDigits_mem_digits d.coefficient)
  have hlength := List.length_pos_of_ne_nil hne
  have hplace := d.leadingPlace_eq
  unfold positional
  by_cases hexponent : 0 ≤ d.exponent
  · refine ⟨Nat.toDigits 10 d.coefficient ++ List.replicate d.exponent.toNat '0', ['0'],
      by simp [hexponent], mem_digits.mpr ⟨by simp [hne], ?_⟩, mem_digits.mpr (by simp), ?_⟩
    · exact List.forall_mem_append.mpr ⟨hdigits, zeros_mem _⟩
    · have hvalue : d.value = d.coefficient * 10 ^ d.exponent.toNat := by
        rw [value, ← zpow_natCast, Int.toNat_of_nonneg hexponent]
      rw [numeral_append, numeral_append, numeral_zeros, numeral_toDigits, hvalue]
      simp [numeral]
  · by_cases hplace' : 0 ≤ d.leadingPlace
    · refine ⟨(Nat.toDigits 10 d.coefficient).take (d.leadingPlace.toNat + 1),
        (Nat.toDigits 10 d.coefficient).drop (d.leadingPlace.toNat + 1),
        by simp [hexponent, hplace'], mem_digits.mpr ⟨by simp [hne], fun c hc => ?_⟩,
        mem_digits.mpr ⟨?_, fun c hc => ?_⟩, ?_⟩
      · exact hdigits c (List.mem_of_mem_take hc)
      · rw [ne_eq, List.drop_eq_nil_iff]
        omega
      · exact hdigits c (List.mem_of_mem_drop hc)
      · rw [List.take_append_drop, numeral_toDigits, value_of_exponent_eq_neg]
        rw [List.length_drop]
        omega
    · refine ⟨['0'], List.replicate (-d.leadingPlace).toNat.pred '0' ++
        Nat.toDigits 10 d.coefficient, by simp [hexponent, hplace'],
        mem_digits.mpr (by simp), mem_digits.mpr ⟨by simp [hne], ?_⟩, ?_⟩
      · exact List.forall_mem_append.mpr ⟨zeros_mem _, hdigits⟩
      · have hlength : d.exponent = -((List.replicate (-d.leadingPlace).toNat.pred '0' ++
            Nat.toDigits 10 d.coefficient).length : ℕ) := by
          rw [List.length_append, List.length_replicate, Nat.pred_eq_sub_one]
          omega
        rw [value_of_exponent_eq_neg hlength, numeral_append, numeral_append, numeral_zeros,
          numeral_toDigits]
        simp [numeral]

/-- The mantissa in scientific notation: one digit, and the others behind a point if there are
any. -/
def mantissa (c : Char) (others : List Char) : List Char :=
  c :: if others.isEmpty then [] else '.' :: others

private theorem mantissaValue_mantissa {c : Char} {others : List Char}
    (h : ∀ d ∈ c :: others, d.isDigit) :
    mantissaValue (mantissa c others) = numeral (c :: others) / 10 ^ others.length := by
  cases others with
  | nil =>
    rw [List.length_nil, pow_zero, div_one]
    exact mantissaValue_digits h
  | cons d rest =>
    have hc := (List.forall_mem_cons.mp h).1
    have hpoint : mantissaValue ([c] ++ '.' :: d :: rest) = _ :=
      mantissaValue_point (List.forall_mem_singleton.mpr hc) (d :: rest)
    exact hpoint

private theorem mem_mantissa {c : Char} {others : List Char} (h : ∀ d ∈ c :: others, d.isDigit) :
    ∀ d ∈ mantissa c others, d.isDigit ∨ d = '.' := by
  obtain ⟨hc, hothers⟩ := List.forall_mem_cons.mp h
  refine List.forall_mem_cons.mpr ⟨.inl hc, fun d hd => ?_⟩
  split_ifs at hd
  · cases hd
  · exact (List.mem_cons.mp hd).elim .inr fun hd => .inl (hothers d hd)

/-- The digits of an integer, behind a minus sign if it is negative. -/
def signedDigits (n : ℤ) : List Char :=
  (if n < 0 then ['-'] else []) ++ Nat.toDigits 10 n.natAbs

private theorem exponentValue_digits {ds : List Char} (h : ∀ c ∈ ds, c.isDigit) :
    exponentValue ds = numeral ds := by
  unfold exponentValue
  split
  · exact absurd (h '-' List.mem_cons_self) (by decide)
  · rfl

/-- An exponent can be read back from its digits. -/
private theorem exponentValue_signedDigits (n : ℤ) : exponentValue (signedDigits n) = n := by
  have hdigits := (mem_digits.mp (Token.toDigits_mem_digits n.natAbs)).2
  unfold signedDigits
  split_ifs with hneg
  · rw [List.singleton_append, exponentValue, numeral_toDigits]
    omega
  · rw [List.nil_append, exponentValue_digits hdigits, numeral_toDigits]
    omega

private theorem mem_signedDigits (n : ℤ) : ∀ c ∈ signedDigits n, c.isDigit ∨ c = '-' := by
  refine List.forall_mem_append.mpr ⟨fun c hc => ?_, fun c hc => .inl ?_⟩
  · split_ifs at hc
    · exact .inr (List.mem_singleton.mp hc)
    · cases hc
  · exact (mem_digits.mp (Token.toDigits_mem_digits n.natAbs)).2 c hc

/-- Scientific notation, cut at the power of ten. -/
theorem scientific_eq (d : Decimal) :
    ∃ c others, Nat.toDigits 10 d.coefficient = c :: others ∧
      d.scientific.toList = mantissa c others ++ 'e' :: signedDigits d.leadingPlace := by
  obtain ⟨c, others, hcons⟩ : ∃ c others, Nat.toDigits 10 d.coefficient = c :: others :=
    List.exists_cons_of_ne_nil Nat.toDigits_ne_nil
  refine ⟨c, others, hcons, ?_⟩
  by_cases hneg : d.leadingPlace < 0 <;> cases others <;>
    simp [scientific, hcons, mantissa, signedDigits, hneg, digits]

/-- The value of a decimal is its mantissa, moved to the leading place. -/
private theorem value_eq_mantissa {d : Decimal} {c : Char} {others : List Char}
    (h : Nat.toDigits 10 d.coefficient = c :: others) :
    d.value = numeral (c :: others) / 10 ^ others.length * 10 ^ d.leadingPlace := by
  have hplace : d.leadingPlace = others.length + d.exponent := by
    rw [leadingPlace_eq, h, List.length_cons]
    omega
  rw [hplace, zpow_add₀ (by norm_num), zpow_natCast, ← h, numeral_toDigits, value]
  field_simp

/-- **The text of a decimal can be read**, in either notation. -/
theorem written_text (d : Decimal) : Written d.text.toList d.value := by
  rw [text]
  split_ifs
  · obtain ⟨whole, fraction, htext, hwhole, hfraction, hvalue⟩ := d.positional_eq
    rw [mem_digits] at hwhole hfraction
    have hchars : ∀ c ∈ whole ++ '.' :: fraction, c.isDigit ∨ c = '.' :=
      List.forall_mem_append.mpr ⟨fun c hc => .inl (hwhole.2 c hc),
        List.forall_mem_cons.mpr ⟨.inr rfl, fun c hc => .inl (hfraction.2 c hc)⟩⟩
    have hpower : 'e' ∉ whole ++ '.' :: fraction := fun h => by
      rcases hchars _ h with h | h <;> exact absurd h (by decide)
    rw [htext]
    refine ⟨?_, ?_, fun c hc => (hchars c hc).imp_right .inl, .inl (by simp)⟩
    · rw [writtenValue, cut_of_notMem hpower, mantissaValue_point hwhole.2, hvalue]
      simp [exponentValue, numeral]
    · obtain ⟨c, rest, rfl⟩ := List.exists_cons_of_ne_nil hwhole.1
      exact ⟨c, _, rfl, hwhole.2 c List.mem_cons_self⟩
  · obtain ⟨c, others, hdigits, htext⟩ := d.scientific_eq
    have hall : ∀ d ∈ c :: others, d.isDigit :=
      hdigits ▸ (mem_digits.mp (Token.toDigits_mem_digits d.coefficient)).2
    have hmantissa := mem_mantissa hall
    have hexponent := mem_signedDigits d.leadingPlace
    have hpower : 'e' ∉ mantissa c others := fun h => by
      rcases hmantissa _ h with h | h <;> exact absurd h (by decide)
    rw [htext]
    refine ⟨?_, ⟨c, _, rfl, hall c List.mem_cons_self⟩, ?_, .inr (by simp)⟩
    · rw [writtenValue, cut_append hpower, mantissaValue_mantissa hall, exponentValue_signedDigits,
        value_eq_mantissa hdigits]
    · refine List.forall_mem_append.mpr ⟨fun c hc => ?_,
        List.forall_mem_cons.mpr ⟨.inr (.inr (.inl rfl)), fun c hc => ?_⟩⟩
      · exact (hmantissa c hc).imp_right .inl
      · exact (hexponent c hc).imp_right fun h => .inr (.inr h)

end Decimal

/-! ### The text of a double -/

namespace Binary64

/-- The bits below the sign, as a number. -/
def magnitudeBits (x : Binary64) : ℕ :=
  x.exponentField * 2 ^ 52 + x.fractionField

private theorem eq_of_magnitudeBits {x y : Binary64} (hsign : x.negative = y.negative)
    (hbits : x.magnitudeBits = y.magnitudeBits) : x = y := by
  have hx := x.bits.toNat_lt
  have hy := y.bits.toNat_lt
  refine congrArg Binary64.mk (UInt64.toNat_inj.1 ?_)
  simp only [magnitudeBits, negative, exponentField, fractionField, Nat.pow_eq,
    decide_eq_decide] at hsign hbits
  omega

/-- The steps and the scale of a finite double stand side by side in its bits. -/
theorem magnitudeBits_of_finite {x : Binary64} {steps scale : ℕ}
    (h : x.magnitude = .finite steps scale) :
    x.magnitudeBits = scale * 2 ^ 52 + steps ∧ Fits scale steps ∧ steps < 2 ^ 53 ∧
      x.magnitudeBits < infinityBits := by
  have hfraction : x.fractionField < 2 ^ 52 := Nat.mod_lt _ (by decide)
  have hexponent : x.exponentField < 2 ^ 11 := Nat.mod_lt _ (by decide)
  unfold magnitude at h
  unfold magnitudeBits Fits infinityBits
  split_ifs at h
  · obtain ⟨rfl, rfl⟩ := Magnitude.finite.inj h
    omega
  · obtain ⟨rfl, rfl⟩ := Magnitude.finite.inj h
    rw [Nat.pow_eq]
    omega

private theorem magnitudeBits_of_infinite {x : Binary64} (h : x.magnitude = .infinite) :
    x.magnitudeBits = infinityBits := by
  unfold magnitude at h
  unfold magnitudeBits infinityBits
  split_ifs at h
  omega

private theorem nearest_zero : Nearest 0 0 := by
  have hzero : grid 0 = 0 := rfl
  refine .of_below (Nat.zero_le _) (by simp [hzero]) (fun _ => ?_) fun _ _ => rfl
  rw [hzero]
  simp

/-- The text of a double behind its sign: that of infinity, or that of a number to which no other
double is nearer. -/
theorem text_eq {x : Binary64} (hx : x.magnitude ≠ .nan) :
    ∃ body : List Char, x.text.toList = (if x.negative then ['-'] else []) ++ body ∧
      (body = ['i', 'n', 'f'] ∧ x.magnitudeBits = infinityBits ∨
        ∃ q, Decimal.Written body q ∧ Nearest (q * 2 ^ 1074) x.magnitudeBits) := by
  have hsign (t : String) : ((if x.negative then "-" else "") ++ t).toList =
      (if x.negative then ['-'] else []) ++ t.toList := by
    split_ifs <;> simp
  cases h : x.magnitude with
  | nan => exact absurd h hx
  | infinite =>
    refine ⟨"inf".toList, ?_, .inl ⟨rfl, magnitudeBits_of_infinite h⟩⟩
    rw [text, h, hsign]
  | finite steps scale =>
    obtain ⟨hbits, hfits, hlt, hfinite⟩ := magnitudeBits_of_finite h
    cases steps with
    | zero =>
      obtain rfl : scale = 0 := hfits.resolve_left (by decide)
      have hzero : Decimal.value ⟨0, 0⟩ * 2 ^ 1074 = 0 := by simp [Decimal.value]
      have htext : (⟨0, 0⟩ : Decimal).text = "0.0" := by decide
      refine ⟨(⟨0, 0⟩ : Decimal).text.toList, ?_, .inr ⟨_, Decimal.written_text _, ?_⟩⟩
      · rw [text, h, htext]
        exact hsign "0.0"
      · rw [hzero, hbits]
        exact nearest_zero
    | succ steps =>
      refine ⟨(Decimal.shortest (steps + 1) scale).text.toList, ?_,
        .inr ⟨_, Decimal.written_text _, ?_⟩⟩
      · rw [text, h]
        exact hsign _
      · rw [hbits] at hfinite ⊢
        exact nearest_shortest (Nat.succ_pos steps) hfits hlt hfinite

/-- The sign of a double is the minus sign in front of its text. -/
theorem head_text {x : Binary64} (hx : x.magnitude ≠ .nan) :
    x.text.toList.head? = some '-' ↔ x.negative = true := by
  obtain ⟨body, htext, hbody⟩ := text_eq hx
  rw [htext]
  cases hsign : x.negative with
  | true => simp
  | false =>
    rcases hbody with ⟨rfl, -⟩ | ⟨q, hwritten, -⟩
    · simp
    · obtain ⟨c, rest, rfl, hc⟩ := hwritten.head
      simpa using Decimal.ne_of_isDigit hc rfl

/-- **Doubles with the same text are the same**, not-a-numbers apart. -/
theorem text_injective {x y : Binary64} (hx : x.magnitude ≠ .nan) (hy : y.magnitude ≠ .nan)
    (h : x.text = y.text) : x = y := by
  have hsign : x.negative = y.negative := by
    rw [Bool.eq_iff_iff, ← head_text hx, ← head_text hy, h]
  obtain ⟨body, htext, hbody⟩ := text_eq hx
  obtain ⟨body', htext', hbody'⟩ := text_eq hy
  obtain rfl : body = body' := by
    have hlist := congrArg String.toList h
    rw [htext, htext', hsign] at hlist
    exact List.append_cancel_left hlist
  refine eq_of_magnitudeBits hsign ?_
  rcases hbody with ⟨rfl, hbits⟩ | ⟨q, hwritten, hnear⟩ <;>
    rcases hbody' with ⟨hinf, hbits'⟩ | ⟨q', hwritten', hnear'⟩
  · rw [hbits, hbits']
  · obtain ⟨c, rest, hcons, hc⟩ := hwritten'.head
    obtain rfl : 'i' = c := (List.cons.inj hcons).1
    exact absurd hc (by decide)
  · obtain ⟨c, rest, hcons, hc⟩ := hwritten.head
    obtain rfl : 'i' = c := (List.cons.inj (hinf.symm.trans hcons)).1
    exact absurd hc (by decide)
  · obtain rfl : q = q' := hwritten.value.symm.trans hwritten'.value
    exact hnear.unique hnear'

end Binary64

/-! ### Constants -/

namespace Const

open Decimal (signedDigits exponentValue_signedDigits mem_signedDigits ne_of_isDigit)

/-- The constant is not a not-a-number. -/
def IsNumber : Const → Prop
  | .int _ => True
  | .float x => x.magnitude ≠ .nan

instance : (value : Const) → Decidable value.IsNumber
  | .int _ => isTrue trivial
  | .float x => inferInstanceAs (Decidable (x.magnitude ≠ .nan))

/-- The characters with which numbers are written. -/
def isPart (c : Char) : Bool :=
  c.isDigit || ['.', '-', 'e', 'i', 'n', 'f'].contains c

private theorem toList_text_int (i : ℤ) : (Const.int i).text.toList = signedDigits i := by
  rw [text, integerText, signedDigits]
  split_ifs <;> simp [digits]

/-- A floating-point constant has a character that no integer has. -/
theorem exists_mark {x : Binary64} (hx : x.magnitude ≠ .nan) :
    ∃ c ∈ x.text.toList, ¬ (c.isDigit ∨ c = '-') := by
  obtain ⟨body, htext, ⟨rfl, -⟩ | ⟨q, hwritten, -⟩⟩ := Binary64.text_eq hx
  · exact ⟨'i', by simp [htext], by decide⟩
  · rcases hwritten.mark with h | h
    · exact ⟨'.', by simp [htext, h], by decide⟩
    · exact ⟨'e', by simp [htext, h], by decide⟩

/-- **Constants with the same text are the same**, not-a-numbers apart. -/
theorem text_injective {a b : Const} (ha : a.IsNumber) (hb : b.IsNumber) (h : a.text = b.text) :
    a = b := by
  -- an integer has only digits and a sign, and a double has more
  have hne (i : ℤ) {x : Binary64} (hx : x.magnitude ≠ .nan) :
      (Const.int i).text ≠ (Const.float x).text := fun h => by
    obtain ⟨c, hc, hmark⟩ := exists_mark hx
    rw [text, text] at h
    rw [← h] at hc
    exact hmark (mem_signedDigits i c (toList_text_int i ▸ hc))
  cases a with
  | int i =>
    cases b with
    | int j =>
      have hchars := congrArg String.toList h
      rw [toList_text_int, toList_text_int] at hchars
      rw [← exponentValue_signedDigits i, hchars, exponentValue_signedDigits]
    | float y => exact absurd h (hne i hb)
  | float x =>
    cases b with
    | int j => exact absurd h.symm (hne j ha)
    | float y => exact congrArg Const.float (Binary64.text_injective ha hb h)

/-- The text of a number has no characters but those of numbers. -/
theorem isPart_of_mem_text {a : Const} (ha : a.IsNumber) : ∀ c ∈ a.text.toList, isPart c := by
  have hdigit {c : Char} (hc : c.isDigit) : isPart c := by simp [isPart, hc]
  cases a with
  | int i =>
    intro c hc
    rw [toList_text_int] at hc
    rcases mem_signedDigits i c hc with hc | rfl
    · exact hdigit hc
    · rfl
  | float x =>
    obtain ⟨body, htext, hbody⟩ := Binary64.text_eq ha
    rw [text, htext]
    refine List.forall_mem_append.mpr ⟨fun c hc => ?_, fun c hc => ?_⟩
    · split_ifs at hc
      · rw [List.mem_singleton.mp hc]
        rfl
      · cases hc
    · rcases hbody with ⟨rfl, -⟩ | ⟨q, hwritten, -⟩
      · have hall : ['i', 'n', 'f'].all isPart = true := by decide
        exact List.all_eq_true.mp hall c hc
      · rcases hwritten.chars c hc with hc | rfl | rfl | rfl
        · exact hdigit hc
        all_goals rfl

/-- A number begins with a digit or a minus sign, infinity apart. -/
theorem head_text {a : Const} (ha : a.IsNumber) :
    a.text = "inf" ∨ ∃ c rest, a.text.toList = c :: rest ∧ (c.isDigit ∨ c = '-') := by
  cases a with
  | int i =>
    refine .inr ?_
    obtain ⟨c, rest, hcons⟩ : ∃ c rest, signedDigits i = c :: rest :=
      List.exists_cons_of_ne_nil (by simp [signedDigits, Nat.toDigits_ne_nil])
    rw [toList_text_int]
    exact ⟨c, rest, hcons, mem_signedDigits i c (hcons ▸ List.mem_cons_self)⟩
  | float x =>
    obtain ⟨body, htext, hbody⟩ := Binary64.text_eq ha
    cases hsign : x.negative with
    | true =>
      rw [hsign] at htext
      exact .inr ⟨'-', body, htext, .inr rfl⟩
    | false =>
      rw [hsign] at htext
      rcases hbody with ⟨rfl, -⟩ | ⟨q, hwritten, -⟩
      · exact .inl (String.toList_injective htext)
      · obtain ⟨c, rest, rfl, hc⟩ := hwritten.head
        exact .inr ⟨c, rest, htext, .inl hc⟩

end Const

end TinyImp
