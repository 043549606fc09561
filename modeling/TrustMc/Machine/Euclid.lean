import TrustMc.Machine.Operators

/-!
# Euclidean division on machine integers

Euclidean quotient and remainder from the ones that truncate, as `div_euclid` and `rem_euclid`
adjust them, and from shifts and masks where the divisor is a power of two.

* `ediv_eq_adjusted`, `emod_eq_adjusted`: the adjustment where the remainder is negative.
* `wrap_two_pow`, `ushiftRight_wrap`, `sshiftRight_wrap`, `and_mask_wrap`: the functions on
  bit-vectors.
-/

namespace Machine

open IntTy

variable {t : IntTy} {x y z : ℤ}

/-! ### Adjusting -/

/-- A quotient that truncates is one off where the remainder is negative. -/
theorem ediv_eq_adjusted (h : y ≠ 0) :
    x / y = if x.tmod y < 0 then (if 0 < y then x.tdiv y - 1 else x.tdiv y + 1) else x.tdiv y := by
  simp only [Int.tdiv_eq_ediv, Int.tmod_eq_emod, Int.dvd_iff_emod_eq_zero]
  have hmod := Int.emod_nonneg x h
  have hlt := Int.emod_lt_abs x h
  rcases lt_or_gt_of_ne h with hneg | hpos
  · rw [abs_of_neg hneg] at hlt
    rw [Int.sign_eq_neg_one_of_neg hneg, if_neg (by omega : ¬ 0 < y)]
    split_ifs <;> omega
  · rw [abs_of_pos hpos] at hlt
    rw [Int.sign_eq_one_of_pos hpos, if_pos hpos]
    split_ifs <;> omega

theorem emod_eq_adjusted (h : y ≠ 0) :
    x % y = if x.tmod y < 0 then (if y < 0 then x.tmod y - y else x.tmod y + y)
      else x.tmod y := by
  simp only [Int.tmod_eq_emod, Int.dvd_iff_emod_eq_zero]
  have hmod := Int.emod_nonneg x h
  have hlt := Int.emod_lt_abs x h
  rcases lt_or_gt_of_ne h with hneg | hpos
  · rw [abs_of_neg hneg] at hlt
    rw [if_pos hneg]
    split_ifs <;> omega
  · rw [abs_of_pos hpos] at hlt
    rw [if_neg (by omega : ¬ y < 0)]
    split_ifs <;> omega

/-! ### Powers of two -/

theorem wrap_two_pow (n : ℕ) : 1#t.width <<< n = t.wrap (2 ^ n) := by
  rw [← BitVec.toNat_inj, ← Int.natCast_inj, toNat_wrap, BitVec.toNat_shiftLeft,
    Nat.shiftLeft_eq]
  have hone : (1#t.width).toNat = 1 := by
    rw [BitVec.toNat_ofNat, Nat.mod_eq_of_lt (Nat.one_lt_two_pow t.width_pos.ne')]
  rw [hone, one_mul]
  push_cast
  rfl

theorem ushiftRight_wrap (hs : t.signed = false) (hx : t.InRange x) (n : ℕ) :
    t.wrap x >>> n = t.wrap (x / 2 ^ n) := by
  have hnat : (((t.wrap x) >>> n).toNat : ℤ) = x / 2 ^ n := by
    rw [BitVec.toNat_ushiftRight, Nat.shiftRight_eq_div_pow]
    push_cast
    rw [toNat_wrap_of_unsigned hs hx]
  rw [← hnat, wrap_toNat]

theorem sshiftRight_wrap (hs : t.signed = true) (hx : t.InRange x) (n : ℕ) :
    (t.wrap x).sshiftRight n = t.wrap (x / 2 ^ n) := by
  have hint : ((t.wrap x).sshiftRight n).toInt = x / 2 ^ n := by
    rw [BitVec.toInt_sshiftRight, toInt_wrap hs hx, Int.shiftRight_eq_div_pow]
    push_cast
    rfl
  rw [← hint, wrap_toInt]

/-- The low bits of an integer are its remainder. -/
theorem and_mask_wrap {n : ℕ} (hn : n ≤ t.width) :
    t.wrap x &&& (1#t.width <<< n - 1#t.width) = t.wrap (x % 2 ^ n) := by
  have hmask : (1#t.width <<< n - 1#t.width).toNat = 2 ^ n - 1 := by
    have hone : 1 ≤ 2 ^ n := Nat.one_le_two_pow
    have hle : 2 ^ n ≤ 2 ^ t.width := Nat.pow_le_pow_right (by omega) hn
    have hw : 1 < 2 ^ t.width := Nat.one_lt_two_pow t.width_pos.ne'
    rw [BitVec.toNat_sub, BitVec.toNat_shiftLeft, Nat.shiftLeft_eq, BitVec.toNat_ofNat,
      Nat.mod_eq_of_lt hw, one_mul]
    rcases hle.lt_or_eq with hlt | heq
    · rw [Nat.mod_eq_of_lt hlt, show 2 ^ t.width - 1 + 2 ^ n = 2 ^ n - 1 + 2 ^ t.width by omega,
        Nat.add_mod_right, Nat.mod_eq_of_lt (by omega)]
    · rw [heq, Nat.mod_self, Nat.add_zero, Nat.mod_eq_of_lt (by omega)]
  rw [← BitVec.toNat_inj, ← Int.natCast_inj, BitVec.toNat_and, hmask, Nat.and_two_pow_sub_one_eq_mod,
    toNat_wrap]
  push_cast
  rw [toNat_wrap, Int.emod_emod_of_dvd x (pow_dvd_pow 2 hn)]
  have hpos : (0 : ℤ) < 2 ^ n := by positivity
  have hle : (2 : ℤ) ^ n ≤ 2 ^ t.width := pow_le_pow_right₀ (by omega) hn
  exact (Int.emod_eq_of_lt (Int.emod_nonneg x hpos.ne')
    ((Int.emod_lt_of_pos x hpos).trans_le hle)).symm

end Machine
