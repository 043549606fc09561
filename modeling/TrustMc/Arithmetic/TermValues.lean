import TrustMc.Arithmetic.Values
import TrustMc.Machine.Operators

/-!
# Values of the arithmetic terms

What the terms of the encoding evaluate to, from the values of their operands: one lemma for
each kind of term, then one for each coercion.
-/

namespace TrustMc

namespace Arithmetic

open Machine Carriers Carriers.Val TrustMc.Expr

variable {T : Theory} {ρ : T.Env} {a b c : Expr} {w : ℕ}

/-! ### Sorts from values -/

theorem sort_of_ofBV {x : BitVec w} (h : a.eval ρ = ofBV x) : a.sort = .bitvec w := by
  rw [← eval_sort a ρ, h, fst_ofBV]

theorem sort_of_ofInt {z : ℤ} (h : a.eval ρ = ofInt z) : a.sort = .int := by
  rw [← eval_sort a ρ, h, fst_ofInt]

theorem sort_of_ofBool {v : Bool} (h : a.eval ρ = ofBool v) : a.sort = .bool := by
  rw [← eval_sort a ρ, h, fst_ofBool]

theorem bits_of_ofBV {x : BitVec w} (h : a.eval ρ = ofBV x) : bits w a ρ = x := by
  rw [bits, h, toBV_ofBV]

theorem ofBV_ne_ofInt {x : BitVec w} {z : ℤ} : (ofBV x : T.Val) ≠ ofInt z := by
  intro h
  have := congrArg Sigma.fst h
  simp at this

theorem ofInt_ne_ofBV {x : BitVec w} {z : ℤ} : (ofInt z : T.Val) ≠ ofBV x := ofBV_ne_ofInt.symm

/-! ### Terms -/

theorem eval_bitVecConst (x : BitVec w) : (Expr.bitVecConst x).eval ρ = ofBV x := by
  simp [Op.interp]

theorem eval_intConst (z : ℤ) : (Expr.intConst z).eval ρ = ofInt z := by
  simp [Op.interp]

theorem eval_boolConst (v : Bool) : (Expr.boolConst v).eval ρ = ofBool v := by
  simp [Op.interp]

theorem eval_bv_of {f : BvBin} {x y : BitVec w} (ha : a.eval ρ = ofBV x)
    (hb : b.eval ρ = ofBV y) : (bv f a b).eval ρ = ofBV (f.denote x y) := by
  rw [eval_bv (sort_of_ofBV ha), bits_of_ofBV ha, bits_of_ofBV hb]

theorem eval_bvCmp_of {f : BvCmp} {x y : BitVec w} (ha : a.eval ρ = ofBV x)
    (hb : b.eval ρ = ofBV y) : (bvCmp f a b).eval ρ = ofBool (f.denote x y) := by
  refine eval_eq_of_holds_iff rfl rfl ?_ |>.trans (eval_boolConst (ρ := ρ) _)
  rw [holds_bvCmp (sort_of_ofBV ha), bits_of_ofBV ha, bits_of_ofBV hb, holds_boolConst]

theorem eval_int_of {f : IntBin} {x y : ℤ} (ha : a.eval ρ = ofInt x) (hb : b.eval ρ = ofInt y)
    (hy : f.divides = true → y ≠ 0) : (int f a b).eval ρ = ofInt (f.denote x y) := by
  simp only [eval_app, List.map_cons, List.map_nil, ha, hb, Op.interp, toInt_ofInt]
  rw [if_neg fun h => hy h.1 h.2]

theorem eval_intCmp_of {f : ArithCmp} {x y : ℤ} (ha : a.eval ρ = ofInt x)
    (hb : b.eval ρ = ofInt y) : (intCmp f a b).eval ρ = ofBool (f.denote x y) := by
  simp only [eval_app, List.map_cons, List.map_nil, ha, hb, Op.interp, toInt_ofInt]

theorem eval_intNeg_of {x : ℤ} (ha : a.eval ρ = ofInt x) :
    (app .intNeg [a]).eval ρ = ofInt (-x) := by
  simp only [eval_app, List.map_cons, List.map_nil, ha, Op.interp, toInt_ofInt]

theorem eval_not_of {v : Bool} (ha : a.eval ρ = ofBool v) : (Expr.not a).eval ρ = ofBool !v := by
  simp only [eval_app, List.map_cons, List.map_nil, ha, Op.interp, toBool_ofBool]

open Classical in
theorem eval_eq_of {v : T.Val} (ha : a.eval ρ = v) {v' : T.Val} (hb : b.eval ρ = v') :
    (Expr.eq a b).eval ρ = ofBool (decide (v = v')) := by
  simp only [eval_app, List.map_cons, List.map_nil, ha, hb, Op.interp]

theorem eval_eq_ofBV {x y : BitVec w} (ha : a.eval ρ = ofBV x) (hb : b.eval ρ = ofBV y) :
    (Expr.eq a b).eval ρ = ofBool (decide (x = y)) := by
  rw [eval_eq_of ha hb]
  simp only [ofBV_inj]

theorem eval_eq_ofInt {x y : ℤ} (ha : a.eval ρ = ofInt x) (hb : b.eval ρ = ofInt y) :
    (Expr.eq a b).eval ρ = ofBool (decide (x = y)) := by
  rw [eval_eq_of ha hb]
  simp only [ofInt_inj]

theorem eval_ite_of {v : Bool} (hc : c.eval ρ = ofBool v) (hs : a.sort = b.sort) :
    (Expr.ite c a b).eval ρ = if v then a.eval ρ else b.eval ρ := by
  rw [eval_ite hs]
  simp [Holds, hc]

theorem eval_and_of {v v' : Bool} (ha : a.eval ρ = ofBool v) (hb : b.eval ρ = ofBool v') :
    (Expr.and [a, b]).eval ρ = ofBool (v && v') := by
  simp only [eval_app, List.map_cons, List.map_nil, ha, hb, Op.interp]
  simp

theorem eval_or_of {v v' : Bool} (ha : a.eval ρ = ofBool v) (hb : b.eval ρ = ofBool v') :
    (Expr.or [a, b]).eval ρ = ofBool (v || v') := by
  simp only [eval_app, List.map_cons, List.map_nil, ha, hb, Op.interp]
  simp

theorem eval_int2bv_of {z : ℤ} (ha : a.eval ρ = ofInt z) :
    (int2bv w a).eval ρ = ofBV (BitVec.ofInt w z) := by
  simp only [int2bv, eval_app, List.map_cons, List.map_nil, ha, Op.interp, toInt_ofInt]

theorem eval_bvUn_of {f : BvUn} {x : BitVec w} (ha : a.eval ρ = ofBV x) :
    (app (.bvUn f) [a]).eval ρ = ofBV (f.denote x) := by
  rw [eval_bvUn (sort_of_ofBV ha), bits_of_ofBV ha]

theorem eval_bvCheck_of {f : BvCheck} {x y : BitVec w} (ha : a.eval ρ = ofBV x)
    (hb : b.eval ρ = ofBV y) : (app (.bvCheck f) [a, b]).eval ρ = ofBool (f.denote x y) := by
  refine eval_eq_of_holds_iff rfl rfl ?_ |>.trans (eval_boolConst (ρ := ρ) _)
  rw [holds_bvCheck (sort_of_ofBV ha), bits_of_ofBV ha, bits_of_ofBV hb, holds_boolConst]

/-! ### Coercions -/

/-- A bit-vector value is its width and its number. -/
theorem ofBV_congr {n m : ℕ} {x : BitVec n} {y : BitVec m} (h : n = m) (hxy : x.toNat = y.toNat) :
    (ofBV x : T.Val) = ofBV y := by
  subst h
  rw [BitVec.eq_of_toNat_eq hxy]

theorem eval_extract_of {x : BitVec w} {high low : ℕ} (ha : a.eval ρ = ofBV x) :
    (app (.bvExtract high low) [a]).eval ρ = ofBV (x.extractLsb high low) := by
  rw [eval_bvExtract (sort_of_ofBV ha), bits_of_ofBV ha]

theorem eval_bv2int_of {x : BitVec w} (ha : a.eval ρ = ofBV x) :
    (bv2int a).eval ρ = ofInt x.toNat := by
  rw [bv2int, eval_bv2Int (sort_of_ofBV ha), bits_of_ofBV ha]

theorem eval_signBit_of {x : BitVec w} (hw : 0 < w) (ha : a.eval ρ = ofBV x) :
    (app (.bvExtract (w - 1) (w - 1)) [a]).eval ρ = ofBV (BitVec.ofBool x.msb) := by
  rw [eval_extract_of ha]
  refine ofBV_congr (by omega) ?_
  have hlt : x.toNat < 2 * 2 ^ (w - 1) := by
    rw [mul_comm, ← pow_succ, Nat.sub_add_cancel hw]
    exact x.isLt
  have hdiv : x.toNat / 2 ^ (w - 1) = if 2 ^ (w - 1) ≤ x.toNat then 1 else 0 := by
    split_ifs with h
    · exact Nat.div_eq_of_lt_le (by omega) (by omega)
    · exact Nat.div_eq_of_lt (by omega)
  rw [BitVec.extractLsb_toNat, Nat.sub_self, Nat.shiftRight_eq_div_pow, hdiv,
    BitVec.toNat_ofBool, BitVec.msb_eq_decide]
  split_ifs with h <;> simp [h]

/-- A bit-vector read as an integer. -/
theorem eval_bvToInt_of (signed : Bool) {x : BitVec w} (hw : 0 < w) (ha : a.eval ρ = ofBV x) :
    (bvToInt signed a).eval ρ = ofInt (readAs signed x) := by
  have hnat := eval_bv2int_of ha
  cases signed with
  | false => exact hnat
  | true =>
    have hmsb := eval_eq_ofBV (eval_signBit_of hw ha) (eval_bitVecConst (ρ := ρ) 1#1)
    have hsub := eval_int_of (f := .sub) hnat (eval_intConst (ρ := ρ) (2 ^ w))
      (fun h => by cases h)
    have hread : readAs true x = if x.msb then (x.toNat : ℤ) - 2 ^ w else x.toNat := by
      rw [readAs, if_pos rfl, BitVec.toInt_eq_msb_cond]
      push_cast
      rfl
    simp only [bvToInt, bv2intSigned, if_true, sort_of_ofBV ha, SmtSort.width_bitvec]
    rw [eval_ite_of hmsb (by simp [bv2int, Op.resultSort]), hsub, hnat, hread]
    cases x.msb <;> simp [IntBin.denote]

/-- A bit-vector brought to another width is what it is read as, modulo the number of values. -/
theorem eval_coerceBitvecWidthSafe_of {x : BitVec w} {n : ℕ} (ext : SignExtension) (hn : 0 < n)
    (ha : a.eval ρ = ofBV x) : ∃ d : BitVec n,
      (coerceBitvecWidthSafe a n ext).eval ρ = ofBV d ∧
        (d.toNat : ℤ) = readAs (ext == .signExtend) x % 2 ^ n := by
  simp only [coerceBitvecWidthSafe, sort_of_ofBV ha, SmtSort.bitvecWidth]
  split_ifs with heq hlt
  · subst heq
    exact ⟨x, ha, (readAs_emod _ x).symm⟩
  · obtain ⟨k, rfl⟩ := Nat.exists_eq_add_of_le hlt.le
    rw [Nat.add_sub_cancel_left]
    cases ext with
    | signExtend =>
      refine ⟨x.signExtend (w + k), ?_, ?_⟩
      · rw [SignExtension.extend, eval_bvSignExtend (sort_of_ofBV ha), bits_of_ofBV ha]
      · rw [beq_self_eq_true, ← readAs_signExtend hlt.le, readAs_emod]
    | zeroExtend =>
      refine ⟨x.setWidth (w + k), ?_, ?_⟩
      · rw [SignExtension.extend, eval_bvZeroExtend (sort_of_ofBV ha), bits_of_ofBV ha]
      · have hread := readAs_setWidth hlt.le x
        exact (readAs_emod false _).symm.trans (congrArg (· % 2 ^ (w + k)) hread)
  · obtain ⟨k, rfl⟩ := Nat.exists_eq_succ_of_ne_zero hn.ne'
    refine ⟨x.extractLsb k 0, ?_, toNat_extractLsb_readAs _ (by omega) x⟩
    rw [eval_extract_of ha]
    rfl

end Arithmetic

end TrustMc
