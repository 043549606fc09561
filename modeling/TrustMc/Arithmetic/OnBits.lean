import TrustMc.Arithmetic.TermValues

/-!
# Operators on bit-vectors

What the encoding yields for operands that are bit-vectors of one width: the value of MIR, for
every operator but the shifts (`binopTerm_bv`). A shift is encoded exactly on the distances of
`BinOp.Exact` (`shiftFunction_eq_iff`).
-/

namespace TrustMc

namespace Arithmetic

open Machine Carriers Carriers.Val TrustMc.Expr

variable {T : Theory} {ρ : T.Env} {t u : IntTy} {l r e : Expr} {x y : ℤ} {op : BinOp}
  {v : MirValue t}

/-! ### Terms for a value -/

theorem denoted_int_ofBV {b v : BitVec t.width} (he : e.eval ρ = ofBV b) :
    (MirValue.int v).Denoted ρ e ↔ b = v := by
  rw [MirValue.Denoted, he, ofBV_inj]
  exact or_iff_left ofBV_ne_ofInt

theorem denoted_int_ofInt {v : BitVec t.width} {z : ℤ} (he : e.eval ρ = ofInt z) :
    (MirValue.int v).Denoted ρ e ↔ z = t.read v := by
  rw [MirValue.Denoted, he, ofInt_inj]
  exact or_iff_right ofInt_ne_ofBV

theorem encoded_some : v.Encoded ρ (some e) ↔ v.Denoted ρ e := by
  simp [MirValue.Encoded]

theorem encoded_bool {b : Bool} {p : Prop} [Decidable p] (he : e.eval ρ = ofBool b)
    (hb : b = decide p) : (MirValue.bool (decide p) : MirValue t).Encoded ρ (some e) := by
  rw [encoded_some, MirValue.Denoted, he, hb]

theorem unchecked_eq_some {z : ℤ} :
    unchecked t z = some v ↔ t.InRange z ∧ .int (t.wrap z) = v := by
  simp [unchecked]

/-- The term of an `Ordering`, from the two comparisons it is made of. -/
theorem encoded_ordering {lt eq : Expr} (hlt : lt.eval ρ = ofBool (decide (x < y)))
    (heq : eq.eval ρ = ofBool (decide (x = y))) :
    (MirValue.ordering (compare x y) : MirValue t).Encoded ρ (some (orderingTerm lt eq)) := by
  have hinner := eval_ite_of (a := .bitVecConst 0#32) (b := .bitVecConst 1#32) heq rfl
  rw [encoded_some, MirValue.Denoted, orderingTerm, eval_ite_of hlt (by simp [Op.resultSort]),
    hinner]
  simp only [eval_bitVecConst, decide_eq_true_eq]
  rcases lt_trichotomy x y with h | h | h
  · rw [if_pos h, compare_lt_iff_lt.2 h]
    rfl
  · rw [if_neg h.not_lt, if_pos h, compare_eq_iff_eq.2 h]
    rfl
  · rw [if_neg h.not_gt, if_neg h.ne', compare_gt_iff_gt.2 h]
    rfl

/-! ### Equality -/

/-- A sort of scalars, whose equality is the equality of SMT. -/
def IsScalar : SmtSort → Prop
  | .int | .bitvec _ => True
  | _ => False

theorem fieldlessConstructorName_eq_none (he : e.WellSorted) (hs : IsScalar e.sort) :
    fieldlessConstructorName e = none := by
  unfold fieldlessConstructorName
  split
  · -- a well-sorted constructor application has a datatype's sort
    obtain ⟨n, cs, d, rfl, -⟩ := constructor_of_wellSorted he
    exact hs.elim
  · split
    · exact hs.elim
    · rfl
  · rfl

theorem unwrapSingleFieldDatatype_eq_none (hs : IsScalar e.sort) :
    unwrapSingleFieldDatatype e = none := by
  unfold unwrapSingleFieldDatatype
  split
  · rename_i heq
    rw [heq] at hs
    exact hs.elim
  · rfl

/-- Scalars of one sort are compared by the equality of SMT. -/
theorem equalityTerm_scalar (isEq isSigned : Bool) (hl : l.WellSorted) (hr : r.WellSorted)
    (hs : IsScalar l.sort) (heq : l.sort = r.sort) :
    equalityTerm isEq l r isSigned = some (signedGuard isEq (.eq l r)) := by
  have hsr : IsScalar r.sort := heq ▸ hs
  have hreal : ∀ e : Expr, IsScalar e.sort → e.sort ≠ .real := by
    intro e he h
    rw [h] at he
    exact he
  have hcoerce : coerceIntReal l r = (l, r) := by
    simp [coerceIntReal, hreal l hs, hreal r hsr]
  have hoperands : coerceEqOperands l r isSigned = (l, r) := by
    simp [coerceEqOperands, unwrapSingleFieldDatatype_eq_none hs,
      unwrapSingleFieldDatatype_eq_none hsr, heq]
  have hfieldless : tryFieldlessConstructorComparison l r isEq = none := by
    simp [tryFieldlessConstructorComparison, fieldlessConstructorName_eq_none hl hs,
      fieldlessConstructorName_eq_none hr hsr]
  have hscalar : r.sort.isArray = false ∧ isOptionLikeSort r.sort = false := by
    revert hsr
    cases r.sort <;> simp [IsScalar, SmtSort.isArray, SmtSort.arraySort, isOptionLikeSort,
      SmtSort.constructors]
  simp only [equalityTerm, hcoerce, hoperands, hfieldless, optionLikeDatatypeEq, heq, hscalar.1,
    hscalar.2]
  simp

theorem eval_signedGuard_of {b : Bool} (isEq : Bool) (he : e.eval ρ = ofBool b) :
    (signedGuard isEq e).eval ρ = ofBool (if isEq then b else !b) := by
  cases isEq
  · exact eval_not_of he
  · exact he

/-! ### The comparisons of a type -/

theorem denote_lt (hx : t.InRange x) (hy : t.InRange y) :
    (if t.signed then BvCmp.slt else .ult).denote (t.wrap x) (t.wrap y) = decide (x < y) := by
  cases hs : t.signed with
  | true => exact slt_wrap hs hx hy
  | false => exact ult_wrap hs hx hy

theorem denote_le (hx : t.InRange x) (hy : t.InRange y) :
    (if t.signed then BvCmp.sle else .ule).denote (t.wrap x) (t.wrap y) = decide (x ≤ y) := by
  cases hs : t.signed with
  | true => exact sle_wrap hs hx hy
  | false => exact ule_wrap hs hx hy

theorem denote_gt (hx : t.InRange x) (hy : t.InRange y) :
    (if t.signed then BvCmp.sgt else .ugt).denote (t.wrap x) (t.wrap y) = decide (y < x) := by
  cases hs : t.signed with
  | true => exact slt_wrap hs hy hx
  | false => exact ult_wrap hs hy hx

theorem denote_ge (hx : t.InRange x) (hy : t.InRange y) :
    (if t.signed then BvCmp.sge else .uge).denote (t.wrap x) (t.wrap y) = decide (y ≤ x) := by
  cases hs : t.signed with
  | true => exact sle_wrap hs hy hx
  | false => exact ule_wrap hs hy hx

/-! ### The overflow checks of a type -/

theorem denote_addNoOverflow (hx : t.InRange x) (hy : t.InRange y) :
    (if t.signed then BvCheck.addNoOverflowSigned else .addNoOverflowUnsigned).denote
      (t.wrap x) (t.wrap y) = decide (t.InRange (x + y)) := by
  cases hs : t.signed with
  | true =>
    simp only [if_true, BvCheck.denote, IntTy.toInt_wrap hs hx, IntTy.toInt_wrap hs hy, inSigned,
      IntTy.InRange, hs]
  | false =>
    have hxn := IntTy.toNat_wrap_of_unsigned hs hx
    have hyn := IntTy.toNat_wrap_of_unsigned hs hy
    have hnonneg : 0 ≤ x + y := Int.add_nonneg (hx.nonneg hs) (hy.nonneg hs)
    simp only [Bool.false_eq_true, if_false, BvCheck.denote, decide_eq_decide, IntTy.InRange, hs]
    rw [← Int.ofNat_lt]
    push_cast
    rw [hxn, hyn]
    exact (and_iff_right hnonneg).symm

theorem denote_subNoOverflow (hx : t.InRange x) (hy : t.InRange y) :
    (if t.signed then BvCheck.subNoOverflowSigned else .subNoUnderflowUnsigned).denote
      (t.wrap x) (t.wrap y) = decide (t.InRange (x - y)) := by
  cases hs : t.signed with
  | true =>
    simp only [if_true, BvCheck.denote, IntTy.toInt_wrap hs hx, IntTy.toInt_wrap hs hy, inSigned,
      IntTy.InRange, hs]
  | false =>
    have hxn := IntTy.toNat_wrap_of_unsigned hs hx
    have hyn := IntTy.toNat_wrap_of_unsigned hs hy
    have hlt := hx.lt
    have hpos := hy.nonneg hs
    simp only [Bool.false_eq_true, if_false, BvCheck.denote, decide_eq_decide, IntTy.InRange, hs]
    omega

theorem denote_mulNoOverflow (hx : t.InRange x) (hy : t.InRange y) :
    (if t.signed then BvCheck.mulNoOverflowSigned else .mulNoOverflowUnsigned).denote
      (t.wrap x) (t.wrap y) = decide (t.InRange (x * y)) := by
  cases hs : t.signed with
  | true =>
    simp only [if_true, BvCheck.denote, IntTy.toInt_wrap hs hx, IntTy.toInt_wrap hs hy, inSigned,
      IntTy.InRange, hs]
  | false =>
    have hxn := IntTy.toNat_wrap_of_unsigned hs hx
    have hyn := IntTy.toNat_wrap_of_unsigned hs hy
    have hnonneg : 0 ≤ x * y := Int.mul_nonneg (hx.nonneg hs) (hy.nonneg hs)
    simp only [Bool.false_eq_true, if_false, BvCheck.denote, decide_eq_decide, IntTy.InRange, hs]
    rw [← Int.ofNat_lt]
    push_cast
    rw [hxn, hyn]
    exact (and_iff_right hnonneg).symm

/-! ### Bit-vectors of one width -/

/-- Masked by a power of two less one, bits are the remainder. -/
theorem and_pred_of_pow2 {w : ℕ} {a b : BitVec w} (h : 2 ^ b.toNat.log2 = b.toNat) :
    a &&& BitVec.ofNat w (b.toNat - 1) = a % b := by
  have hlt : b.toNat - 1 < 2 ^ w := (Nat.sub_le _ _).trans_lt b.isLt
  rw [← BitVec.toNat_inj, BitVec.toNat_and, BitVec.toNat_ofNat, Nat.mod_eq_of_lt hlt,
    BitVec.toNat_umod, ← h, Nat.and_two_pow_sub_one_eq_mod]

section Bits

variable (hl : l.eval ρ = ofBV (t.wrap x)) (hr : r.eval ρ = ofBV (t.wrap y))
  (hx : t.InRange x) (hy : t.InRange y)

include hl

theorem isBitvec_of_bits : l.sort.isBitvec = true := by
  rw [sort_of_ofBV hl]
  rfl

include hr

theorem encoded_bv {f : BvBin} {b : BitVec t.width}
    (hf : f.denote (t.wrap x) (t.wrap y) = b) : (MirValue.int b).Encoded ρ (some (.bv f l r)) := by
  rw [encoded_some, denoted_int_ofBV (eval_bv_of hl hr), hf]

theorem encoded_arith {f : BvBin} {fi : IntBin} {fr : RealBin} {b : BitVec t.width}
    (hf : f.denote (t.wrap x) (t.wrap y) = b) :
    (MirValue.int b).Encoded ρ (arithTerm f fi fr l r) := by
  rw [arithTerm, if_pos (isBitvec_of_bits hl)]
  exact encoded_bv hl hr hf

theorem encoded_bitwise {f : BvBin} {boolTerm : Expr} {isSigned : Bool} {n : ℕ} :
    (MirValue.int (f.denote (t.wrap x) (t.wrap y))).Encoded ρ
      (bitwiseTerm f boolTerm l r isSigned n) := by
  have hcoerce : coerceBitwiseOperands l r isSigned = (l, r) := by
    simp [coerceBitwiseOperands, coerceToMaxWidth, sort_of_ofBV hl, sort_of_ofBV hr,
      SmtSort.bitvecWidth]
  rw [bitwiseTerm, if_pos (isBitvec_of_bits hl), hcoerce]
  exact encoded_bv hl hr rfl

theorem encoded_compare {f : BvCmp} {fa : ArithCmp} {p : Prop} [Decidable p]
    (hf : f.denote (t.wrap x) (t.wrap y) = decide p) :
    (MirValue.bool (decide p) : MirValue t).Encoded ρ (compareTerm f fa l r) := by
  rw [compareTerm, if_pos (isBitvec_of_bits hl)]
  exact encoded_bool (eval_bvCmp_of hl hr) hf

theorem encoded_mask (hs : t.signed = false) (hx : t.InRange x) (hy : t.InRange y)
    (h : unsignedRemPow2Mask l r = some e) :
    (MirValue.int (t.wrap (x.tmod y))).Encoded ρ (some e) := by
  unfold unsignedRemPow2Mask at h
  split at h
  · rename_i w b
    split_ifs at h with hpow
    obtain rfl : w = t.width := by simpa [Op.resultSort] using sort_of_ofBV hr
    obtain rfl : b = t.wrap y := ofBV_inj.1 ((eval_bitVecConst (ρ := ρ) b).symm.trans hr)
    injection h with h
    subst h
    rw [encoded_some, denoted_int_ofBV (eval_bv_of hl (eval_bitVecConst _)), BvBin.denote,
      and_pred_of_pow2 hpow.2.2, umod_wrap hs hx hy]
  · cases h

theorem encoded_rem (hx : t.InRange x) (hy : t.InRange y) :
    (MirValue.int (t.wrap (x.tmod y))).Encoded ρ (remTerm l r t.signed) := by
  have hint : l.sort ≠ .int := by simp [sort_of_ofBV hl]
  rw [remTerm, if_neg hint, if_pos (isBitvec_of_bits hl)]
  cases hs : t.signed with
  | true => exact encoded_bv hl hr (srem_wrap hs hx hy)
  | false =>
    cases hmask : unsignedRemPow2Mask l r with
    | none => exact encoded_bv hl hr (umod_wrap hs hx hy)
    | some e => exact encoded_mask hl hr hs hx hy hmask

theorem encoded_div (hx : t.InRange x) (hy : t.InRange y) (h : y ≠ 0) :
    (MirValue.int (t.wrap (x.tdiv y))).Encoded ρ
      (arithTerm (if t.signed then .sdiv else .udiv) .div .div l r) := by
  refine encoded_arith hl hr ?_
  cases hs : t.signed with
  | true => exact smtSDiv_wrap hs hx hy h
  | false => exact smtUDiv_wrap hs hx hy h

theorem encoded_cmp (hx : t.InRange x) (hy : t.InRange y) :
    (MirValue.ordering (compare x y) : MirValue t).Encoded ρ (cmpTerm l r t.signed) := by
  have heq := eval_eq_ofBV hl hr
  simp only [wrap_inj hx hy] at heq
  rw [cmpTerm, if_pos (isBitvec_of_bits hl)]
  refine encoded_ordering ?_ heq
  rw [eval_bvCmp_of hl hr, denote_lt hx hy]

theorem encoded_equality (hx : t.InRange x) (hy : t.InRange y) (hlw : l.WellSorted)
    (hrw : r.WellSorted) (isEq : Bool) :
    (MirValue.bool (if isEq then decide (x = y) else !decide (x = y)) : MirValue t).Encoded ρ
      (equalityTerm isEq l r t.signed) := by
  have hsort : l.sort = r.sort := by rw [sort_of_ofBV hl, sort_of_ofBV hr]
  have hscalar : IsScalar l.sort := by rw [sort_of_ofBV hl]; trivial
  have heq := eval_eq_ofBV hl hr
  simp only [wrap_inj hx hy] at heq
  rw [equalityTerm_scalar isEq t.signed hlw hrw hscalar hsort, encoded_some, MirValue.Denoted,
    eval_signedGuard_of isEq heq]

/-- On bit-vectors, every operator but the shifts yields the value of MIR. -/
theorem binopTerm_bits (hx : t.InRange x) (hy : t.InRange y) (hlw : l.WellSorted)
    (hrw : r.WellSorted) (hop : op.isShift = false) (hv : op.mir t x y = some v) :
    v.Encoded ρ (binopTerm op l r t.signed t.width) := by
  cases op <;> simp only [BinOp.mir, unchecked_eq_some, Option.ite_none_left_eq_some,
    Option.some.injEq, reduceCtorEq] at hv
  case add => exact hv ▸ encoded_arith hl hr wrap_add
  case sub => exact hv ▸ encoded_arith hl hr wrap_sub
  case mul => exact hv ▸ encoded_arith hl hr wrap_mul
  case addUnchecked => exact hv.2 ▸ encoded_arith hl hr wrap_add
  case subUnchecked => exact hv.2 ▸ encoded_arith hl hr wrap_sub
  case mulUnchecked => exact hv.2 ▸ encoded_arith hl hr wrap_mul
  case div => exact hv.2.2 ▸ encoded_div hl hr hx hy hv.1
  case rem => exact hv.2 ▸ encoded_rem hl hr hx hy
  case bitAnd => exact hv ▸ encoded_bitwise hl hr
  case bitOr => exact hv ▸ encoded_bitwise hl hr
  case bitXor => exact hv ▸ encoded_bitwise hl hr
  case eq => exact hv ▸ encoded_equality hl hr hx hy hlw hrw true
  case ne =>
    rw [decide_not] at hv
    exact hv ▸ encoded_equality hl hr hx hy hlw hrw false
  case lt => exact hv ▸ encoded_compare hl hr (denote_lt hx hy)
  case le => exact hv ▸ encoded_compare hl hr (denote_le hx hy)
  case gt => exact hv ▸ encoded_compare hl hr (denote_gt hx hy)
  case ge => exact hv ▸ encoded_compare hl hr (denote_ge hx hy)
  case cmp => exact hv ▸ encoded_cmp hl hr hx hy
  all_goals cases hop

end Bits

/-! ### Shifts -/

/-- The function of a shift. -/
def shiftFunction (op : BinOp) (isSigned : Bool) : BvBin :=
  match op with
  | .shl | .shlUnchecked => .shl
  | _ => if isSigned then .ashr else .lshr

theorem ShiftInRange.emod_lt (h : ShiftInRange t y) : y % 2 ^ t.width < t.width := by
  have hle := t.width_le_half t
  have hpow := t.two_pow_width
  have hpos : (0 : ℤ) < 2 ^ (t.width - 1) := by positivity
  have hlt := h.2
  rwa [Int.emod_eq_of_lt h.1 (by omega)]

theorem shl_eq_iff {d : BitVec t.width} (hd : Distance t y d) :
    BvBin.shl.denote (t.wrap x) d = mirShl t x y ↔
      y % 2 ^ t.width < t.width ∨ ShiftedOut t .shl x y := hd.shl_iff

theorem shr_eq_iff {d : BitVec t.width} (hd : Distance t y d) (hx : t.InRange x) :
    (if t.signed then BvBin.ashr else .lshr).denote (t.wrap x) d = mirShr t x y ↔
      y % 2 ^ t.width < t.width ∨ ShiftedOut t .shr x y := by
  cases hs : t.signed with
  | true =>
    simp only [mirShr, ShiftedOut, hs, if_true]
    exact hd.sshr_iff hs hx
  | false =>
    simp only [mirShr, ShiftedOut, hs, Bool.false_eq_true, if_false]
    exact hd.ushr_iff hs hx

theorem isShift_cases (h : op.isShift = true) :
    op = .shl ∨ op = .shr ∨ op = .shlUnchecked ∨ op = .shrUnchecked := by
  cases op <;> simp [BinOp.isShift] at h ⊢

/-- A shift by a reduced distance is the shift of MIR where it is encoded exactly. -/
theorem shiftFunction_eq_iff {lifted : Prop} {d b : BitVec t.width} (hd : Distance t y d)
    (hx : t.InRange x) (hop : op.isShift = true) (hb : op.mir t x y = some (.int b)) :
    (shiftFunction op t.signed).denote (t.wrap x) d = b ↔ op.Exact t lifted x y := by
  rcases isShift_cases hop with rfl | rfl | rfl | rfl
  · obtain rfl : mirShl t x y = b := by simpa [BinOp.mir] using hb
    exact shl_eq_iff hd
  · obtain rfl : mirShr t x y = b := by simpa [BinOp.mir] using hb
    exact shr_eq_iff hd hx
  · simp only [BinOp.mir, Option.ite_none_right_eq_some, Option.some.injEq,
      MirValue.int.injEq] at hb
    obtain ⟨hin, rfl⟩ := hb
    exact iff_of_true ((shl_eq_iff hd).2 (.inl hin.emod_lt)) trivial
  · simp only [BinOp.mir, Option.ite_none_right_eq_some, Option.some.injEq,
      MirValue.int.injEq] at hb
    obtain ⟨hin, rfl⟩ := hb
    exact iff_of_true ((shr_eq_iff hd hx).2 (.inl hin.emod_lt)) trivial

/-- What a shift yields is an integer of the type. -/
theorem exists_int_of_isShift (hop : op.isShift = true) (hv : op.mir t x y = some v) :
    ∃ b, v = .int b := by
  rcases isShift_cases hop with rfl | rfl | rfl | rfl <;>
    simp only [BinOp.mir, Option.ite_none_right_eq_some, Option.some.injEq] at hv
  · exact ⟨_, hv.symm⟩
  · exact ⟨_, hv.symm⟩
  · exact ⟨_, hv.2.symm⟩
  · exact ⟨_, hv.2.symm⟩

theorem binopTerm_shift (hop : op.isShift = true) (l r : Expr) (isSigned : Bool) (n : ℕ) :
    binopTerm op l r isSigned n = shiftTerm (shiftFunction op isSigned) l r isSigned n := by
  rcases isShift_cases hop with rfl | rfl | rfl | rfl <;> rfl

/-- A bit-vector is shifted by the zero-extended distance. -/
theorem shiftTerm_bits_iff {lifted : Prop} (hl : l.eval ρ = ofBV (t.wrap x))
    (hr : r.eval ρ = ofBV (u.wrap y)) (hx : t.InRange x) (hy : u.InRange y)
    (hop : op.isShift = true) (hv : op.mir t x y = some v) :
    v.Encoded ρ (binopTerm op l r t.signed t.width) ↔ op.Exact t lifted x y := by
  obtain ⟨b, rfl⟩ := exists_int_of_isShift hop hv
  obtain ⟨d, hd, hread⟩ := eval_coerceBitvecWidthSafe_of .zeroExtend t.width_pos hr
  rw [← coerceShiftAmount] at hd
  have hterm : binopTerm op l r t.signed t.width =
      some (.bv (shiftFunction op t.signed) l (coerceShiftAmount r t.width)) := by
    rw [binopTerm_shift hop, shiftTerm, if_pos (isBitvec_of_bits hl), sort_of_ofBV hl,
      SmtSort.width_bitvec]
  rw [hterm, encoded_some, denoted_int_ofBV (eval_bv_of hl hd)]
  exact shiftFunction_eq_iff (.of_reading hy hread) hx hop hv

end Arithmetic

end TrustMc
