import TrustMc.Smt.Eval
import Mathlib.Tactic.Ring

/-!
# Bit-vector terms as numbers

A bit-vector term is read as a natural number (`HasNat`) or, in two's complement, as an integer
(`HasInt`). Width and number stand apart, so that a term whose width is computed is moved to
the width it is needed at by rewriting.

* **Fields**: extraction divides and reduces, concatenation multiplies and adds.
* **Shifts** are products and quotients by a power of two, whatever the distance.
* **Comparisons** are those of the numbers.
-/

namespace TrustMc

namespace Expr

open Carriers Carriers.Val

variable {T : Theory} {ρ : T.Env} {a b c : Expr} {w w' n m : ℕ}

/-- The term has width `w` and denotes the number `n`. -/
structure HasNat (ρ : T.Env) (e : Expr) (w n : ℕ) : Prop where
  /-- The width of the term. -/
  sort : e.sort = .bitvec w
  /-- The number. -/
  toNat : (bits w e ρ).toNat = n

/-- The term has width `w` and denotes the integer `z` in two's complement. -/
structure HasInt (ρ : T.Env) (e : Expr) (w : ℕ) (z : ℤ) : Prop where
  /-- The width of the term. -/
  sort : e.sort = .bitvec w
  /-- The integer. -/
  toInt : (bits w e ρ).toInt = z

/-! ### Terms and their numbers -/

theorem hasNat_of_eval {x : BitVec w} (h : a.eval ρ = ofBV x) : HasNat ρ a w x.toNat where
  sort := by rw [← eval_sort a ρ, h, fst_ofBV]
  toNat := by rw [bits, h, toBV_ofBV]

theorem HasNat.lt (h : HasNat ρ a w n) : n < 2 ^ w := h.toNat ▸ (bits w a ρ).isLt

theorem HasNat.bits_eq (h : HasNat ρ a w n) : bits w a ρ = BitVec.ofNat w n := by
  rw [← h.toNat, BitVec.ofNat_toNat, BitVec.setWidth_eq]

theorem HasNat.eval_eq (h : HasNat ρ a w n) : a.eval ρ = ofBV (BitVec.ofNat w n) := by
  rw [eval_eq_ofBV_bits h.sort, h.bits_eq]

theorem HasNat.cast (h : HasNat ρ a w n) (hw : w = w') (hn : n = m) : HasNat ρ a w' m :=
  hw ▸ hn ▸ h

theorem hasNat_const (h : n < 2 ^ w) : HasNat ρ (bitVecConst (BitVec.ofNat w n)) w n where
  sort := rfl
  toNat := by rw [bits_bitVecConst, BitVec.toNat_ofNat, Nat.mod_eq_of_lt h]

/-- A number below half the values of the width is the integer as well. -/
theorem HasNat.hasInt (h : HasNat ρ a w n) (hn : 2 * n < 2 ^ w) : HasInt ρ a w n where
  sort := h.sort
  toInt := by rw [BitVec.toInt_eq_toNat_of_lt (by rw [h.toNat]; exact hn), h.toNat]

theorem HasInt.hasNat {z : ℤ} (h : HasInt ρ a w z) (hz : 0 ≤ z) : HasNat ρ a w z.toNat where
  sort := h.sort
  toNat := by
    have hlt := (bits w a ρ).isLt
    have hcond := BitVec.toInt_eq_toNat_cond (bits w a ρ)
    rw [h.toInt] at hcond
    split_ifs at hcond <;> omega

/-! ### Fields -/

theorem HasNat.extract (h : HasNat ρ a w n) (high low : ℕ) :
    HasNat ρ (app (.bvExtract high low) [a]) (high - low + 1)
      (n / 2 ^ low % 2 ^ (high - low + 1)) := by
  have hv := hasNat_of_eval (@eval_bvExtract _ _ _ ρ high low h.sort)
  refine hv.cast rfl ?_
  rw [BitVec.extractLsb_toNat, h.toNat, Nat.shiftRight_eq_div_pow]

theorem HasNat.concat (ha : HasNat ρ a w n) (hb : HasNat ρ b w' m) :
    HasNat ρ (app .bvConcat [a, b]) (w + w') (n * 2 ^ w' + m) := by
  refine (hasNat_of_eval (eval_bvConcat ha.sort hb.sort)).cast rfl ?_
  rw [BitVec.toNat_append, ha.toNat, hb.toNat, ← Nat.shiftLeft_add_eq_or_of_lt hb.lt,
    Nat.shiftLeft_eq]

theorem HasNat.zeroExtend (h : HasNat ρ a w n) (k : ℕ) :
    HasNat ρ (app (.bvZeroExtend k) [a]) (w + k) n := by
  refine (hasNat_of_eval (eval_bvZeroExtend (n := k) h.sort)).cast rfl ?_
  rw [BitVec.toNat_setWidth, h.toNat,
    Nat.mod_eq_of_lt (h.lt.trans_le (Nat.pow_le_pow_right (by omega) (by omega)))]

theorem HasInt.signExtend {z : ℤ} (h : HasInt ρ a w z) (k : ℕ) :
    HasInt ρ (app (.bvSignExtend k) [a]) (w + k) z where
  sort := by simp [Op.resultSort, h.sort]
  toInt := by
    have hv := eval_bvSignExtend (n := k) (ρ := ρ) h.sort
    rw [bits, hv, toBV_ofBV, BitVec.toInt_signExtend_of_le (by omega), h.toInt]

/-! ### Functions -/

theorem hasNat_bv {f : BvBin} (ha : HasNat ρ a w n) (hb : HasNat ρ b w m) :
    HasNat ρ (bv f a b) w (f.denote (BitVec.ofNat w n) (BitVec.ofNat w m)).toNat := by
  refine (hasNat_of_eval (eval_bv (f := f) ha.sort)).cast rfl ?_
  rw [ha.bits_eq, hb.bits_eq]

theorem HasNat.sub (ha : HasNat ρ a w n) (hb : HasNat ρ b w m) (h : m ≤ n) :
    HasNat ρ (bv .sub a b) w (n - m) := by
  refine (hasNat_bv ha hb).cast rfl ?_
  have hle : BitVec.ofNat w m ≤ BitVec.ofNat w n := by
    rw [BitVec.le_def, BitVec.toNat_ofNat, BitVec.toNat_ofNat, Nat.mod_eq_of_lt ha.lt,
      Nat.mod_eq_of_lt hb.lt]
    exact h
  rw [BvBin.denote, BitVec.toNat_sub_of_le hle, BitVec.toNat_ofNat, BitVec.toNat_ofNat,
    Nat.mod_eq_of_lt ha.lt, Nat.mod_eq_of_lt hb.lt]

/-- A difference in two's complement, where it is in range. -/
theorem HasNat.subInt (ha : HasNat ρ a w n) (hb : HasNat ρ b w m) (hw : 0 < w)
    (hlo : -2 ^ (w - 1) ≤ (n : ℤ) - m) (hhi : (n : ℤ) - m < 2 ^ (w - 1)) :
    HasInt ρ (bv .sub a b) w (n - m) where
  sort := by simp [Op.resultSort, ha.sort]
  toInt := by
    have hsub : BitVec.ofNat w n - BitVec.ofNat w m = BitVec.ofInt w ((n : ℤ) - m) := by
      rw [BitVec.sub_eq_add_neg, ← BitVec.ofInt_natCast, ← BitVec.ofInt_natCast,
        ← BitVec.ofInt_neg, ← BitVec.ofInt_add, sub_eq_add_neg]
    rw [bits, eval_bv ha.sort, toBV_ofBV, ha.bits_eq, hb.bits_eq, BvBin.denote, hsub,
      BitVec.toInt_ofInt_eq_self hw hlo hhi]

theorem HasNat.shl (ha : HasNat ρ a w n) (hb : HasNat ρ b w m) :
    HasNat ρ (bv .shl a b) w (n * 2 ^ m % 2 ^ w) := by
  refine (hasNat_bv ha hb).cast rfl ?_
  rw [BvBin.denote, BitVec.shiftLeft_eq', BitVec.toNat_shiftLeft, BitVec.toNat_ofNat,
    BitVec.toNat_ofNat, Nat.mod_eq_of_lt ha.lt, Nat.mod_eq_of_lt hb.lt, Nat.shiftLeft_eq]

theorem HasNat.lshr (ha : HasNat ρ a w n) (hb : HasNat ρ b w m) :
    HasNat ρ (bv .lshr a b) w (n / 2 ^ m) := by
  refine (hasNat_bv ha hb).cast rfl ?_
  rw [BvBin.denote, BitVec.ushiftRight_eq', BitVec.toNat_ushiftRight, BitVec.toNat_ofNat,
    BitVec.toNat_ofNat, Nat.mod_eq_of_lt ha.lt, Nat.mod_eq_of_lt hb.lt,
    Nat.shiftRight_eq_div_pow]

theorem HasNat.neg (h : HasNat ρ a w n) :
    HasNat ρ (app (.bvUn .neg) [a]) w ((2 ^ w - n) % 2 ^ w) := by
  refine (hasNat_of_eval (eval_bvUn h.sort)).cast rfl ?_
  rw [BvUn.denote, BitVec.toNat_neg, h.toNat]

theorem HasNat.ite_pos (hc : Holds ρ c) (ha : HasNat ρ a w n) (hb : b.sort = .bitvec w) :
    HasNat ρ (Expr.ite c a b) w n where
  sort := by simp [Op.resultSort, ha.sort]
  toNat := by
    rw [bits, eval_ite (ha.sort.trans hb.symm), if_pos hc]
    exact ha.toNat

theorem HasNat.ite_neg (hc : ¬ Holds ρ c) (ha : a.sort = .bitvec w) (hb : HasNat ρ b w n) :
    HasNat ρ (Expr.ite c a b) w n where
  sort := by simp [Op.resultSort, ha]
  toNat := by
    rw [bits, eval_ite (ha.trans hb.sort.symm), if_neg hc]
    exact hb.toNat

/-! ### Comparisons -/

theorem HasNat.holds_eq (ha : HasNat ρ a w n) (hb : HasNat ρ b w m) :
    Holds ρ (Expr.eq a b) ↔ n = m := by
  rw [Expr.holds_eq, bits_inj ha.sort hb.sort, ← BitVec.toNat_inj, ha.toNat, hb.toNat]

theorem HasInt.holds_sge {x y : ℤ} (ha : HasInt ρ a w x) (hb : HasInt ρ b w y) :
    Holds ρ (bvCmp .sge a b) ↔ y ≤ x := by
  rw [holds_bvCmp ha.sort, BvCmp.denote, BitVec.sle_iff_toInt_le, ha.toInt, hb.toInt]

end Expr

end TrustMc
