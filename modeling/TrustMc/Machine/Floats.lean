import TrustMc.Machine.Integers
import Mathlib.Algebra.Order.Floor.Ring
import Mathlib.Algebra.Order.Field.Power
import Mathlib.Data.Rat.Floor
import Mathlib.Tactic.FieldSimp

/-!
# Binary floating-point patterns

The patterns of a binary interchange format, read as a sign, an exponent and a mantissa, and
the number they denote: a rational, an infinity, or no number.

* `magnitude`: the absolute value of a finite pattern; `two_pow_le_magnitude_iff` compares it to
  a power of two by the exponent alone, `two_pow_lt_magnitude_iff` needs the mantissa as well.
* `floor_magnitude`: the integer part is the significand, shifted.
* `FloatValue.saturate`: the conversion to a machine integer that clamps to the range;
  `FloatValue.Converts`: where no clamping is needed.
-/

namespace Machine

/-- A binary interchange format. -/
structure FloatFormat where
  /-- The bits of the exponent. -/
  expBits : ℕ
  /-- The bits of the mantissa, without the implicit one. -/
  mantBits : ℕ
  /-- There are exponents of either sign. -/
  two_le_expBits : 2 ≤ expBits

/-- Single precision has exponents of 8 bits. -/
theorem two_le_single_expBits : 2 ≤ 8 := by decide

/-- Double precision has exponents of 11 bits. -/
theorem two_le_double_expBits : 2 ≤ 11 := by decide

/-- What a pattern denotes. -/
inductive FloatValue
  | nan
  | infinite (negative : Bool)
  | finite (q : ℚ)

/-- Truncation toward zero. -/
def truncate (q : ℚ) : ℤ := if 0 ≤ q then ⌊q⌋ else ⌈q⌉

theorem truncate_of_nonneg {q : ℚ} (h : 0 ≤ q) : truncate q = ⌊q⌋ := if_pos h

theorem truncate_neg {q : ℚ} (h : 0 ≤ q) : truncate (-q) = -⌊q⌋ := by
  rcases h.eq_or_lt with rfl | hlt
  · simp [truncate]
  · rw [truncate, if_neg (by linarith), Int.ceil_neg]

/-! ### Integer targets -/

namespace IntTy

variable (t : IntTy)

/-- The smallest value of the type. -/
def minValue : ℤ := if t.signed then -2 ^ (t.width - 1) else 0

/-- The largest value of the type. -/
def maxValue : ℤ := (if t.signed then 2 ^ (t.width - 1) else 2 ^ t.width) - 1

/-- The value of the type closest to an integer. -/
def clamp (z : ℤ) : ℤ := max t.minValue (min t.maxValue z)

variable {t}

theorem inRange_iff {z : ℤ} : t.InRange z ↔ t.minValue ≤ z ∧ z ≤ t.maxValue := by
  unfold InRange minValue maxValue
  split_ifs <;> omega

theorem minValue_le_maxValue : t.minValue ≤ t.maxValue := by
  have hhalf : (0 : ℤ) < 2 ^ (t.width - 1) := by positivity
  have hfull : (0 : ℤ) < 2 ^ t.width := by positivity
  unfold minValue maxValue
  split_ifs <;> omega

theorem clamp_of_inRange {z : ℤ} (h : t.InRange z) : t.clamp z = z := by
  rw [inRange_iff] at h
  rw [clamp, min_eq_right h.2, max_eq_right h.1]

theorem clamp_of_maxValue_le {z : ℤ} (h : t.maxValue ≤ z) : t.clamp z = t.maxValue := by
  rw [clamp, min_eq_left h, max_eq_right minValue_le_maxValue]

theorem clamp_of_le_minValue {z : ℤ} (h : z ≤ t.minValue) : t.clamp z = t.minValue := by
  rw [clamp, min_eq_right (h.trans minValue_le_maxValue), max_eq_left h]

end IntTy

namespace FloatValue

/-- The conversion that clamps: no number becomes zero. -/
def saturate (t : IntTy) : FloatValue → ℤ
  | nan => 0
  | infinite negative => if negative then t.minValue else t.maxValue
  | finite q => t.clamp (truncate q)

/-- The value is finite and its truncation is the integer `z` of the type. -/
def Converts (t : IntTy) (v : FloatValue) (z : ℤ) : Prop :=
  ∃ q, v = finite q ∧ truncate q = z ∧ t.InRange z

/-- The value is strictly between the smallest value of a signed type and its predecessor. -/
def JustBelowMin (t : IntTy) (v : FloatValue) : Prop :=
  t.signed = true ∧ ∃ q : ℚ, v = finite q ∧ (t.minValue : ℚ) - 1 < q ∧ q < t.minValue

end FloatValue

/-! ### Patterns -/

namespace FloatFormat

variable (f : FloatFormat)

/-- The bits of a pattern: sign, exponent, mantissa. -/
def width : ℕ := f.expBits + f.mantBits + 1

/-- What is subtracted from an exponent. -/
def bias : ℕ := 2 ^ (f.expBits - 1) - 1

/-- The sign of a pattern. -/
def negative (x : ℕ) : Bool := x / 2 ^ (f.expBits + f.mantBits) % 2 = 1

/-- The exponent of a pattern. -/
def exponent (x : ℕ) : ℕ := x / 2 ^ f.mantBits % 2 ^ f.expBits

/-- The mantissa of a pattern. -/
def mantissa (x : ℕ) : ℕ := x % 2 ^ f.mantBits

/-- The exponent of infinities and of what is not a number. -/
def maxExponent : ℕ := 2 ^ f.expBits - 1

/-- The absolute value of a finite pattern with exponent `e` and mantissa `m`; exponent zero is
the exponent one without the implicit bit. -/
def magnitude (e m : ℕ) : ℚ :=
  if e = 0 then m * 2 ^ (1 - f.bias - f.mantBits : ℤ)
  else (2 ^ f.mantBits + m) * 2 ^ (e - f.bias - f.mantBits : ℤ)

/-- What a pattern denotes. -/
def read (x : ℕ) : FloatValue :=
  if f.exponent x = f.maxExponent then
    if f.mantissa x = 0 then .infinite (f.negative x) else .nan
  else
    .finite (if f.negative x then -f.magnitude (f.exponent x) (f.mantissa x)
      else f.magnitude (f.exponent x) (f.mantissa x))

/-- The significand with its implicit one, shifted to the integer part. -/
def integerPart (e m : ℕ) : ℕ :=
  let z : ℤ := e - f.bias
  if (f.mantBits : ℤ) ≤ z then (2 ^ f.mantBits + m) * 2 ^ (z - f.mantBits).toNat
  else if 0 ≤ z then (2 ^ f.mantBits + m) / 2 ^ (f.mantBits - z).toNat
  else 0

variable {f} {e m : ℕ}

theorem two_pow_expBits : 2 ^ f.expBits = 2 * (f.bias + 1) := by
  have hpos : 0 < 2 ^ (f.expBits - 1) := by positivity
  have hexp : f.expBits = f.expBits - 1 + 1 := by have := f.two_le_expBits; omega
  rw [bias, Nat.sub_add_cancel hpos, mul_comm, ← pow_succ, ← hexp]

theorem bias_pos : 0 < f.bias := by
  have h : 2 ^ 1 ≤ 2 ^ (f.expBits - 1) :=
    Nat.pow_le_pow_right (by omega) (by have := f.two_le_expBits; omega)
  rw [bias]
  omega

theorem exponent_lt (x : ℕ) : f.exponent x < 2 ^ f.expBits := Nat.mod_lt _ (by positivity)

theorem mantissa_lt (x : ℕ) : f.mantissa x < 2 ^ f.mantBits := Nat.mod_lt _ (by positivity)

theorem exponent_le_of_ne {x : ℕ} (h : f.exponent x ≠ f.maxExponent) :
    f.exponent x ≤ 2 * f.bias := by
  have hlt := f.exponent_lt x
  rw [maxExponent, two_pow_expBits] at h
  rw [two_pow_expBits] at hlt
  omega

/-! ### Magnitudes and powers of two -/

theorem magnitude_nonneg : 0 ≤ f.magnitude e m := by
  unfold magnitude
  split_ifs <;> positivity

/-- A pattern with exponent zero is below one. -/
theorem magnitude_zero_lt_one (hm : m < 2 ^ f.mantBits) : f.magnitude 0 m < 1 := by
  have hq : (m : ℚ) < 2 ^ f.mantBits := by exact_mod_cast hm
  have hpos : (0 : ℚ) < 2 ^ (1 - f.bias - f.mantBits : ℤ) := by positivity
  rw [magnitude, if_pos rfl]
  calc (m : ℚ) * 2 ^ (1 - f.bias - f.mantBits : ℤ)
      < 2 ^ f.mantBits * 2 ^ (1 - f.bias - f.mantBits : ℤ) := mul_lt_mul_of_pos_right hq hpos
    _ = 2 ^ (1 - f.bias : ℤ) := by
      rw [← zpow_natCast, ← zpow_add₀ (by norm_num)]
      congr 1
      ring
    _ ≤ 2 ^ (0 : ℤ) := zpow_le_zpow_right₀ (by norm_num) (by have := f.bias_pos; omega)
    _ = 1 := zpow_zero _

theorem magnitude_of_ne_zero (he : e ≠ 0) :
    f.magnitude e m = 2 ^ (e - f.bias : ℤ) * (1 + m / 2 ^ f.mantBits) := by
  rw [magnitude, if_neg he, zpow_sub₀ (by norm_num : (2 : ℚ) ≠ 0), zpow_natCast]
  field_simp

theorem magnitude_bounds (he : e ≠ 0) (hm : m < 2 ^ f.mantBits) :
    2 ^ (e - f.bias : ℤ) ≤ f.magnitude e m ∧ f.magnitude e m < 2 ^ (e - f.bias + 1 : ℤ) := by
  have hq : (m : ℚ) < 2 ^ f.mantBits := by exact_mod_cast hm
  have hfrac : (m : ℚ) / 2 ^ f.mantBits < 1 := (div_lt_one (by positivity)).2 hq
  have hnonneg : (0 : ℚ) ≤ m / 2 ^ f.mantBits := by positivity
  have hpos : (0 : ℚ) < 2 ^ (e - f.bias : ℤ) := by positivity
  rw [magnitude_of_ne_zero he, zpow_add₀ (by norm_num), zpow_one]
  constructor
  · exact le_mul_of_one_le_right hpos.le (by linarith)
  · exact mul_lt_mul_of_pos_left (by linarith) hpos

/-- The exponent decides which powers of two are at most the magnitude. -/
theorem two_pow_le_magnitude_iff (hm : m < 2 ^ f.mantBits) (k : ℕ) :
    2 ^ k ≤ f.magnitude e m ↔ (k : ℤ) ≤ e - f.bias := by
  have hone : (1 : ℚ) ≤ 2 ^ k := one_le_pow₀ (by norm_num)
  by_cases he : e = 0
  · subst he
    have hlt := magnitude_zero_lt_one hm
    have hb := f.bias_pos
    exact iff_of_false (by linarith) (by push_cast; omega)
  · obtain ⟨hlo, hhi⟩ := magnitude_bounds he hm
    rw [← zpow_natCast]
    constructor
    · intro h
      have hpow := (zpow_lt_zpow_iff_right₀ (by norm_num : (1 : ℚ) < 2)).1 (h.trans_lt hhi)
      omega
    · intro h
      exact (zpow_le_zpow_right₀ (by norm_num) h).trans hlo

/-- At the exponent of the power itself, a nonzero mantissa makes the magnitude larger. -/
theorem two_pow_lt_magnitude_iff (hm : m < 2 ^ f.mantBits) (k : ℕ) :
    2 ^ k < f.magnitude e m ↔ (k : ℤ) + 1 ≤ e - f.bias ∨ (k : ℤ) ≤ e - f.bias ∧ m ≠ 0 := by
  rw [lt_iff_le_and_ne, two_pow_le_magnitude_iff hm]
  have hne : (k : ℤ) ≤ e - f.bias →
      ((2 : ℚ) ^ k ≠ f.magnitude e m ↔ (k : ℤ) + 1 ≤ e - f.bias ∨ m ≠ 0) := by
    intro hk
    rcases hk.eq_or_lt with heq | hlt
    · have he : e ≠ 0 := by rintro rfl; have := f.bias_pos; push_cast at heq; omega
      have hpos : (2 : ℚ) ^ k ≠ 0 := by positivity
      rw [magnitude_of_ne_zero he, ← heq, zpow_natCast]
      have hzero : (2 : ℚ) ^ k = 2 ^ k * (1 + m / 2 ^ f.mantBits) ↔ m = 0 := by
        rw [left_eq_mul₀ hpos, add_eq_left, div_eq_zero_iff]
        simp
      rw [Ne, hzero]
      omega
    · have hsucc := (two_pow_le_magnitude_iff (e := e) hm (k + 1)).2 (by push_cast; omega)
      have hpos : (0 : ℚ) < 2 ^ k := by positivity
      rw [pow_succ] at hsucc
      exact iff_of_true (by linarith) (.inl (by omega))
  constructor
  · rintro ⟨hk, h⟩
    rcases (hne hk).1 h with h | h
    · exact .inl h
    · exact .inr ⟨hk, h⟩
  · rintro (h | ⟨hk, h⟩)
    · exact ⟨by omega, (hne (by omega)).2 (.inl h)⟩
    · exact ⟨hk, (hne hk).2 (.inr h)⟩

theorem floor_magnitude (hm : m < 2 ^ f.mantBits) :
    ⌊f.magnitude e m⌋ = (f.integerPart e m : ℤ) := by
  by_cases hneg : (e : ℤ) - f.bias < 0
  · -- below one, nothing is left
    have hlt : f.magnitude e m < 1 := by
      by_contra hle
      have := (two_pow_le_magnitude_iff (e := e) hm 0).1 (by rw [pow_zero]; linarith)
      push_cast at this
      omega
    rw [integerPart, if_neg (by omega), if_neg (by omega), Nat.cast_zero, Int.floor_eq_zero_iff]
    exact ⟨magnitude_nonneg, hlt⟩
  · have he : e ≠ 0 := by rintro rfl; have := f.bias_pos; omega
    have hmag : f.magnitude e m
        = ((2 ^ f.mantBits + m : ℕ) : ℚ) * 2 ^ (e - f.bias - f.mantBits : ℤ) := by
      rw [magnitude, if_neg he]
      push_cast
      rfl
    rw [hmag, integerPart]
    by_cases hge : (f.mantBits : ℤ) ≤ e - f.bias
    · obtain ⟨k, hk⟩ := Int.eq_ofNat_of_zero_le (sub_nonneg.2 hge)
      rw [if_pos hge, hk, Int.toNat_natCast, zpow_natCast]
      exact_mod_cast Int.floor_natCast (R := ℚ) ((2 ^ f.mantBits + m) * 2 ^ k)
    · obtain ⟨k, hk⟩ := Int.eq_ofNat_of_zero_le (sub_nonneg.2 (not_le.1 hge).le)
      have hk' : (e - f.bias - f.mantBits : ℤ) = -k := by omega
      rw [if_neg hge, if_pos (by omega), hk, Int.toNat_natCast, hk', zpow_neg, zpow_natCast,
        ← div_eq_mul_inv]
      have hdiv := Rat.floor_intCast_div_natCast ((2 ^ f.mantBits + m : ℕ) : ℤ) (2 ^ k)
      push_cast at hdiv ⊢
      exact hdiv

end FloatFormat

end Machine
