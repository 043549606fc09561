import TrustMc.Machine.Integers

/-!
# Operators on machine integers

The bit-vector functions on reduced integers are the integer functions, reduced. Where the
operands are in range, the comparisons are those of the integers, and the tests for overflow
on bit-vectors are `¬ InRange` of the exact result.

* `wrap_add`, `smtSDiv_wrap`, `srem_wrap`, …: the functions.
* `slt_wrap`, `ult_wrap`, …: the comparisons.
* `carry_iff`, `borrow_iff`, `add_signs_iff`, `sub_signs_iff`, `tdiv_iff`: the tests for
  overflow.
-/

namespace Machine

open IntTy

variable {t : IntTy} {x y z : ℤ}

/-! ### Functions -/

theorem wrap_add : t.wrap x + t.wrap y = t.wrap (x + y) := (BitVec.ofInt_add x y).symm

theorem wrap_mul : t.wrap x * t.wrap y = t.wrap (x * y) := (BitVec.ofInt_mul x y).symm

theorem neg_wrap : -t.wrap x = t.wrap (-x) := BitVec.ofInt_neg.symm

theorem wrap_sub : t.wrap x - t.wrap y = t.wrap (x - y) := by
  rw [BitVec.sub_eq_add_neg, neg_wrap, wrap_add, sub_eq_add_neg]

theorem wrap_inj (hx : t.InRange x) (hy : t.InRange y) : t.wrap x = t.wrap y ↔ x = y := by
  rw [← read_inj, read_wrap hx, read_wrap hy]

theorem wrap_ne_zero (hy : t.InRange y) (h : y ≠ 0) : t.wrap y ≠ 0#t.width := by
  have hdvd : ¬ (2 : ℤ) ^ t.width ∣ y := by
    intro hdvd
    have habs := Int.le_of_dvd (abs_pos.2 h) ((dvd_abs _ _).2 hdvd)
    have hpos : (0 : ℤ) < 2 ^ (t.width - 1) := by positivity
    have hlo := hy.ge
    have hhi := hy.lt
    have hpow := t.two_pow_width
    rcases abs_cases y with ⟨heq, -⟩ | ⟨heq, -⟩ <;> omega
  rwa [Ne, wrap_eq_zero_iff]

/-- Division of SMT-LIB is division where the divisor is not zero. -/
theorem smtSDiv_of_ne {w : ℕ} {a b : BitVec w} (h : b ≠ 0#w) : a.smtSDiv b = a.sdiv b := by
  have hneg : -b ≠ 0#w := by simpa using h
  rw [BitVec.smtSDiv_eq, BitVec.sdiv_eq]
  cases a.msb <;> cases b.msb <;> simp [BitVec.smtUDiv_eq, h, hneg]

theorem smtSDiv_wrap (hs : t.signed = true) (hx : t.InRange x) (hy : t.InRange y) (h : y ≠ 0) :
    (t.wrap x).smtSDiv (t.wrap y) = t.wrap (x.tdiv y) := by
  rw [smtSDiv_of_ne (wrap_ne_zero hy h)]
  refine BitVec.eq_of_toInt_eq ?_
  rw [BitVec.toInt_sdiv, toInt_wrap hs hx, toInt_wrap hs hy, wrap, BitVec.toInt_ofInt]

theorem smtUDiv_wrap (hs : t.signed = false) (hx : t.InRange x) (hy : t.InRange y) (h : y ≠ 0) :
    (t.wrap x).smtUDiv (t.wrap y) = t.wrap (x.tdiv y) := by
  have hdiv : (((t.wrap x).toNat / (t.wrap y).toNat : ℕ) : ℤ) = x.tdiv y := by
    rw [Int.natCast_ediv, toNat_wrap_of_unsigned hs hx, toNat_wrap_of_unsigned hs hy,
      Int.tdiv_eq_ediv_of_nonneg (hx.nonneg hs)]
  rw [BitVec.smtUDiv_eq, if_neg (wrap_ne_zero hy h), ← hdiv, ← BitVec.toNat_udiv, wrap_toNat]

theorem srem_wrap (hs : t.signed = true) (hx : t.InRange x) (hy : t.InRange y) :
    (t.wrap x).srem (t.wrap y) = t.wrap (x.tmod y) := by
  have hrem := BitVec.toInt_srem (t.wrap x) (t.wrap y)
  rw [toInt_wrap hs hx, toInt_wrap hs hy] at hrem
  rw [← hrem, wrap_toInt]

theorem umod_wrap (hs : t.signed = false) (hx : t.InRange x) (hy : t.InRange y) :
    t.wrap x % t.wrap y = t.wrap (x.tmod y) := by
  have hmod : (((t.wrap x).toNat % (t.wrap y).toNat : ℕ) : ℤ) = x.tmod y := by
    rw [Int.natCast_emod, toNat_wrap_of_unsigned hs hx, toNat_wrap_of_unsigned hs hy,
      Int.tmod_eq_emod_of_nonneg (hx.nonneg hs)]
  rw [← hmod, ← BitVec.toNat_umod, wrap_toNat]

/-- A remainder is between zero and the dividend. -/
theorem IntTy.InRange.tmod (hx : t.InRange x) (y : ℤ) : t.InRange (x.tmod y) := by
  have hpos : (0 : ℤ) < 2 ^ (t.width - 1) := by positivity
  have habs : (x.tmod y).natAbs ≤ x.natAbs := by
    rw [Int.natAbs_tmod]
    exact Nat.mod_le _ _
  have hsign : 0 ≤ x → 0 ≤ x.tmod y := Int.tmod_nonneg y
  have hsign' : x ≤ 0 → x.tmod y ≤ 0 := fun h => by
    have := Int.tmod_nonneg y (by omega : 0 ≤ -x)
    rw [Int.neg_tmod] at this
    omega
  rw [InRange] at *
  split at hx <;> rename_i hs <;> simp only [hs, if_true, Bool.false_eq_true, if_false] <;> omega

/-! ### Comparisons -/

theorem slt_wrap (hs : t.signed = true) (hx : t.InRange x) (hy : t.InRange y) :
    (t.wrap x).slt (t.wrap y) = decide (x < y) := by
  rw [BitVec.slt_eq_decide, toInt_wrap hs hx, toInt_wrap hs hy]

theorem sle_wrap (hs : t.signed = true) (hx : t.InRange x) (hy : t.InRange y) :
    (t.wrap x).sle (t.wrap y) = decide (x ≤ y) := by
  rw [BitVec.sle_eq_decide, toInt_wrap hs hx, toInt_wrap hs hy]

theorem ult_wrap (hs : t.signed = false) (hx : t.InRange x) (hy : t.InRange y) :
    (t.wrap x).ult (t.wrap y) = decide (x < y) := by
  rw [BitVec.ult_eq_decide, decide_eq_decide, ← Int.ofNat_lt, toNat_wrap_of_unsigned hs hx,
    toNat_wrap_of_unsigned hs hy]

theorem ule_wrap (hs : t.signed = false) (hx : t.InRange x) (hy : t.InRange y) :
    (t.wrap x).ule (t.wrap y) = decide (x ≤ y) := by
  rw [BitVec.ule_eq_decide, decide_eq_decide, ← Int.ofNat_le, toNat_wrap_of_unsigned hs hx,
    toNat_wrap_of_unsigned hs hy]

/-! ### Overflow -/

theorem wrap_add_two_pow (z : ℤ) : t.wrap (z + 2 ^ t.width) = t.wrap z := by
  rw [← BitVec.toNat_inj, ← Int.natCast_inj, toNat_wrap, toNat_wrap, Int.add_emod_right]

theorem wrap_sub_two_pow (z : ℤ) : t.wrap (z - 2 ^ t.width) = t.wrap z := by
  rw [← wrap_add_two_pow, sub_add_cancel]

/-- A carry makes an unsigned sum smaller than a summand. -/
theorem carry_iff (hs : t.signed = false) (hx : t.InRange x) (hy : t.InRange y) :
    (t.wrap (x + y)).ult (t.wrap x) = decide (¬ t.InRange (x + y)) := by
  have hx' := hx
  have hy' := hy
  rw [InRange, if_neg (by simp [hs])] at hx' hy'
  have hrange : t.InRange (x + y) ↔ x + y < 2 ^ t.width := by
    rw [InRange, if_neg (by simp [hs])]
    omega
  by_cases h : x + y < 2 ^ t.width
  · rw [ult_wrap hs (hrange.2 h) hx, decide_eq_decide, hrange]
    omega
  · have hsmall : t.InRange (x + y - 2 ^ t.width) := by
      rw [InRange, if_neg (by simp [hs])]
      omega
    rw [← wrap_sub_two_pow, ult_wrap hs hsmall hx, decide_eq_decide, hrange]
    omega

theorem borrow_iff (hs : t.signed = false) (hx : t.InRange x) (hy : t.InRange y) :
    (t.wrap x).ult (t.wrap y) = decide (¬ t.InRange (x - y)) := by
  have hx' := hx
  have hy' := hy
  rw [InRange, if_neg (by simp [hs])] at hx' hy'
  rw [ult_wrap hs hx hy, decide_eq_decide, InRange, if_neg (by simp [hs])]
  omega

/-- The sign of an integer that is at most one reduction away from its type. -/
theorem msb_wrap (hs : t.signed = true) (hlo : -2 ^ t.width ≤ z) (hhi : z < 2 ^ t.width) :
    (t.wrap z).msb = decide (if t.InRange z then z < 0 else 0 ≤ z) := by
  have hpow := t.two_pow_width
  have hpos : (0 : ℤ) < 2 ^ (t.width - 1) := by positivity
  have hrange : ∀ v, t.InRange v ↔ -2 ^ (t.width - 1) ≤ v ∧ v < 2 ^ (t.width - 1) := by
    intro v
    rw [InRange, if_pos hs]
  rw [BitVec.msb_eq_toInt, decide_eq_decide]
  split_ifs with h
  · rw [toInt_wrap hs h]
  · rw [hrange] at h
    rcases le_or_gt 0 z with hnonneg | hneg
    · rw [← wrap_sub_two_pow, toInt_wrap hs ((hrange _).2 (by omega))]
      omega
    · rw [← wrap_add_two_pow, toInt_wrap hs ((hrange _).2 (by omega))]
      omega

theorem msb_wrap_of_inRange (hs : t.signed = true) (h : t.InRange z) :
    (t.wrap z).msb = decide (z < 0) := by
  rw [BitVec.msb_eq_toInt, toInt_wrap hs h]

/-- A signed sum overflows where the summands have one sign and the sum has the other. -/
theorem add_signs_iff (hs : t.signed = true) (hx : t.InRange x) (hy : t.InRange y) :
    (decide ((t.wrap x).msb = (t.wrap y).msb) && !decide ((t.wrap (x + y)).msb = (t.wrap x).msb)) =
      decide (¬ t.InRange (x + y)) := by
  have hpow := t.two_pow_width
  have hx' := hx
  have hy' := hy
  rw [InRange, if_pos hs] at hx' hy'
  have hrange : t.InRange (x + y) ↔ -2 ^ (t.width - 1) ≤ x + y ∧ x + y < 2 ^ (t.width - 1) := by
    rw [InRange, if_pos hs]
  rw [msb_wrap_of_inRange hs hx, msb_wrap_of_inRange hs hy, msb_wrap hs (by omega) (by omega),
    Bool.eq_iff_iff]
  simp only [Bool.and_eq_true, Bool.not_eq_true', decide_eq_true_eq, decide_eq_false_iff_not,
    decide_eq_decide]
  split_ifs with h <;> simp only [h, not_true_eq_false, not_false_eq_true, iff_true, iff_false] <;>
    rw [hrange] at h <;> omega

/-- A signed difference overflows where the operands have different signs and the difference
does not have the first. -/
theorem sub_signs_iff (hs : t.signed = true) (hx : t.InRange x) (hy : t.InRange y) :
    (!decide ((t.wrap x).msb = (t.wrap y).msb) &&
        !decide ((t.wrap (x - y)).msb = (t.wrap x).msb)) = decide (¬ t.InRange (x - y)) := by
  have hpow := t.two_pow_width
  have hx' := hx
  have hy' := hy
  rw [InRange, if_pos hs] at hx' hy'
  have hrange : t.InRange (x - y) ↔ -2 ^ (t.width - 1) ≤ x - y ∧ x - y < 2 ^ (t.width - 1) := by
    rw [InRange, if_pos hs]
  rw [msb_wrap_of_inRange hs hx, msb_wrap_of_inRange hs hy, msb_wrap hs (by omega) (by omega),
    Bool.eq_iff_iff]
  simp only [Bool.and_eq_true, Bool.not_eq_true', decide_eq_true_eq, decide_eq_false_iff_not,
    decide_eq_decide]
  split_ifs with h <;> simp only [h, not_true_eq_false, not_false_eq_true, iff_true, iff_false] <;>
    rw [hrange] at h <;> omega

/-- An unsigned quotient is in range. -/
theorem IntTy.InRange.tdiv (hs : t.signed = false) (hx : t.InRange x) (hy : t.InRange y) :
    t.InRange (x.tdiv y) := by
  have hlo : 0 ≤ x.tdiv y := Int.tdiv_nonneg (hx.nonneg hs) (hy.nonneg hs)
  have hhi : x.tdiv y ≤ x := by
    rw [Int.tdiv_eq_ediv_of_nonneg (hx.nonneg hs)]
    exact Int.ediv_le_self y (hx.nonneg hs)
  have hlt := hx.lt
  rw [InRange, if_neg (by simp [hs])]
  omega

/-- A signed quotient overflows at the least value by minus one only. -/
theorem tdiv_iff (hs : t.signed = true) (hx : t.InRange x) (hy : t.InRange y) (h : y ≠ 0) :
    ¬ t.InRange (x.tdiv y) ↔ x = -2 ^ (t.width - 1) ∧ y = -1 := by
  have hpos : (0 : ℤ) < 2 ^ (t.width - 1) := by positivity
  have hrange : ∀ v, t.InRange v ↔ -2 ^ (t.width - 1) ≤ v ∧ v < 2 ^ (t.width - 1) := by
    intro v
    rw [InRange, if_pos hs]
  rw [hrange] at hx ⊢
  constructor
  · intro hout
    have habs : (x.tdiv y).natAbs = x.natAbs / y.natAbs := Int.natAbs_tdiv x y
    have hle : x.natAbs / y.natAbs ≤ x.natAbs := Nat.div_le_self _ _
    have hone : y = -1 := by
      by_contra hne
      rcases eq_or_ne y 1 with rfl | hne'
      · rw [Int.tdiv_one] at hout
        omega
      · -- a divisor of two or more halves the dividend
        have htwo : 2 ≤ y.natAbs := by omega
        have hhalf : x.natAbs / y.natAbs ≤ x.natAbs / 2 := Nat.div_le_div_left htwo (by omega)
        omega
    subst hone
    rw [Int.tdiv_neg, Int.tdiv_one] at hout
    omega
  · rintro ⟨rfl, rfl⟩
    rw [Int.tdiv_neg, Int.tdiv_one]
    omega

end Machine
