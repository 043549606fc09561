import TrustMc.Arithmetic.OnBits

/-!
# Operators on lifted operands

What the encoding yields for operands that are SMT integers: the value of MIR where the exact
result is one of the type, and for divisions where Euclidean division truncates
(`binopTerm_ints_iff`, `shiftTerm_ints_iff`).
-/

namespace TrustMc

namespace Arithmetic

open Machine Carriers Carriers.Val TrustMc.Expr

variable {T : Theory} {ρ : T.Env} {t u : IntTy} {l r e : Expr} {x y y' : ℤ} {op : BinOp}
  {v : MirValue t}

theorem isBitvec_of_int {z : ℤ} (he : e.eval ρ = ofInt z) : ¬ e.sort.isBitvec = true := by
  rw [sort_of_ofInt he]
  exact Bool.false_ne_true

section Ints

variable (hl : l.eval ρ = ofInt x) (hr : r.eval ρ = ofInt y)

include hl hr

theorem coerceIntReal_ints : coerceIntReal l r = (l, r) := by
  simp [coerceIntReal, sort_of_ofInt hl, sort_of_ofInt hr]

/-- The exact result stands for the reduced one where it is in range. -/
theorem encoded_int_iff {f : IntBin} {z : ℤ} (hz : f.denote x y = z)
    (hy : f.divides = true → y ≠ 0) :
    (MirValue.int (t.wrap z)).Encoded ρ (some (.int f l r)) ↔ t.InRange z := by
  rw [encoded_some, denoted_int_ofInt (eval_int_of hl hr hy), hz, eq_comm, IntTy.read_wrap_eq_iff]

theorem arithTerm_ints (f : BvBin) (fi : IntBin) (fr : RealBin) :
    arithTerm f fi fr l r = some (.int fi l r) := by
  rw [arithTerm, if_neg (isBitvec_of_int hl), coerceIntReal_ints hl hr]
  simp [sort_of_ofInt hl]

theorem compareTerm_ints (f : BvCmp) (fa : ArithCmp) :
    compareTerm f fa l r = some (.intCmp fa l r) := by
  rw [compareTerm, if_neg (isBitvec_of_int hl), coerceIntReal_ints hl hr]
  simp [sort_of_ofInt hl]

theorem encoded_compare_ints {f : BvCmp} {fa : ArithCmp} {p : Prop} [Decidable p]
    (hp : fa.denote x y = decide p) :
    (MirValue.bool (decide p) : MirValue t).Encoded ρ (compareTerm f fa l r) := by
  rw [compareTerm_ints hl hr]
  exact encoded_bool (eval_intCmp_of hl hr) hp

/-- The bits of the type, read back as an integer of the type. -/
theorem encoded_readback {f : BvBin} {b : BitVec t.width}
    (hb : f.denote (t.wrap x) (t.wrap y) = b) :
    (MirValue.int b).Encoded ρ (some (bvToInt t.signed
      (.bv f (int2bv t.width l) (int2bv t.width r)))) := by
  have heval := eval_bv_of (f := f) (eval_int2bv_of (w := t.width) hl)
    (eval_int2bv_of (w := t.width) hr)
  rw [encoded_some, denoted_int_ofInt (eval_bvToInt_of t.signed t.width_pos heval), ← hb]
  rfl

theorem encoded_bitwise_ints {f : BvBin} {boolTerm : Expr} :
    (MirValue.int (f.denote (t.wrap x) (t.wrap y))).Encoded ρ
      (bitwiseTerm f boolTerm l r t.signed t.width) := by
  have hbool : ¬ l.sort.isBool = true := by simp [sort_of_ofInt hl]
  rw [bitwiseTerm, if_neg (isBitvec_of_int hl), if_neg hbool,
    if_pos ⟨sort_of_ofInt hl, sort_of_ofInt hr⟩]
  exact encoded_readback hl hr rfl

theorem encoded_cmp_ints :
    (MirValue.ordering (compare x y) : MirValue t).Encoded ρ (cmpTerm l r t.signed) := by
  rw [cmpTerm, if_neg (isBitvec_of_int hl), coerceIntReal_ints hl hr]
  simp only [sort_of_ofInt hl, if_true]
  exact encoded_ordering (eval_intCmp_of hl hr) (eval_eq_ofInt hl hr)

theorem encoded_equality_ints (hlw : l.WellSorted) (hrw : r.WellSorted) (isEq : Bool) :
    (MirValue.bool (if isEq then decide (x = y) else !decide (x = y)) : MirValue t).Encoded ρ
      (equalityTerm isEq l r t.signed) := by
  have hsort : l.sort = r.sort := by rw [sort_of_ofInt hl, sort_of_ofInt hr]
  have hscalar : IsScalar l.sort := by rw [sort_of_ofInt hl]; trivial
  rw [equalityTerm_scalar isEq t.signed hlw hrw hscalar hsort, encoded_some, MirValue.Denoted,
    eval_signedGuard_of isEq (eval_eq_ofInt hl hr)]

/-- The Euclidean quotient stands for the truncated one where they agree. -/
theorem encoded_div_ints_iff (h : y ≠ 0) (hz : t.InRange (x.tdiv y)) :
    (MirValue.int (t.wrap (x.tdiv y))).Encoded ρ
      (arithTerm (if t.signed then .sdiv else .udiv) .div .div l r) ↔ 0 ≤ x ∨ y ∣ x := by
  rw [arithTerm_ints hl hr, encoded_some, denoted_int_ofInt (eval_int_of hl hr fun _ => h),
    IntTy.read_wrap hz]
  exact ediv_eq_tdiv_iff h

theorem encoded_rem_ints_iff (h : y ≠ 0) (hx : t.InRange x) :
    (MirValue.int (t.wrap (x.tmod y))).Encoded ρ (remTerm l r t.signed) ↔ 0 ≤ x ∨ y ∣ x := by
  rw [remTerm, if_pos (sort_of_ofInt hl), encoded_some,
    denoted_int_ofInt (eval_int_of hl hr fun _ => h), IntTy.read_wrap (hx.tmod y)]
  exact emod_eq_tmod_iff h

/-- On lifted operands, every operator but the shifts yields the value of MIR exactly where it
is encoded exactly. -/
theorem binopTerm_ints_iff (hx : t.InRange x) (hlw : l.WellSorted) (hrw : r.WellSorted)
    (hop : op.isShift = false) (hv : op.mir t x y = some v) :
    v.Encoded ρ (binopTerm op l r t.signed t.width) ↔ op.Exact t True x y := by
  have harith : ∀ {z : ℤ} {f : BvBin} {fi : IntBin} {fr : RealBin}, fi.divides = false →
      fi.denote x y = z → ((MirValue.int (t.wrap z)).Encoded ρ (arithTerm f fi fr l r) ↔
        t.InRange z) := by
    intro z f fi fr hdiv hz
    rw [arithTerm_ints hl hr]
    exact encoded_int_iff hl hr hz (by simp [hdiv])
  cases op <;> simp only [BinOp.mir, unchecked_eq_some, Option.ite_none_left_eq_some,
    Option.some.injEq, reduceCtorEq, not_or, not_not] at hv <;>
    simp only [BinOp.Exact, true_imp_iff]
  case add => exact hv ▸ harith rfl rfl
  case sub => exact hv ▸ harith rfl rfl
  case mul => exact hv ▸ harith rfl rfl
  case addUnchecked => exact iff_of_true (hv.2 ▸ (harith rfl rfl).2 hv.1) trivial
  case subUnchecked => exact iff_of_true (hv.2 ▸ (harith rfl rfl).2 hv.1) trivial
  case mulUnchecked => exact iff_of_true (hv.2 ▸ (harith rfl rfl).2 hv.1) trivial
  case div => exact hv.2.2 ▸ encoded_div_ints_iff hl hr hv.1 hv.2.1
  case rem => exact hv.2 ▸ encoded_rem_ints_iff hl hr hv.1.1 hx
  case bitAnd => exact iff_of_true (hv ▸ encoded_bitwise_ints hl hr) trivial
  case bitOr => exact iff_of_true (hv ▸ encoded_bitwise_ints hl hr) trivial
  case bitXor => exact iff_of_true (hv ▸ encoded_bitwise_ints hl hr) trivial
  case eq => exact iff_of_true (hv ▸ encoded_equality_ints hl hr hlw hrw true) trivial
  case ne =>
    rw [decide_not] at hv
    exact iff_of_true (hv ▸ encoded_equality_ints hl hr hlw hrw false) trivial
  case lt => exact iff_of_true (hv ▸ encoded_compare_ints hl hr rfl) trivial
  case le => exact iff_of_true (hv ▸ encoded_compare_ints hl hr rfl) trivial
  case gt => exact iff_of_true (hv ▸ encoded_compare_ints hl hr rfl) trivial
  case ge => exact iff_of_true (hv ▸ encoded_compare_ints hl hr rfl) trivial
  case cmp => exact iff_of_true (hv ▸ encoded_cmp_ints hl hr) trivial
  all_goals cases hop

end Ints

/-- A distance that is an integer, reduced to the width of the value. -/
theorem Distance.of_ints (hy : u.InRange y) (h : y' = y ∨ y' = readAs t.signed (u.wrap y)) :
    Distance t y (t.wrap y') := by
  rcases h with rfl | rfl
  · -- an integer is read with the sign of its own type
    have hread : readAs u.signed (u.wrap y') = y' := IntTy.read_wrap hy
    have hd : ((t.wrap y').toNat : ℤ) = readAs u.signed (u.wrap y') % 2 ^ t.width := by
      rw [IntTy.toNat_wrap, hread]
    exact .of_reading hy hd
  · exact .of_reading hy (IntTy.toNat_wrap _)

/-- A lifted operand is shifted through the bit-vectors of the width. -/
theorem shiftTerm_ints_iff {lifted : Prop} (hl : l.eval ρ = ofInt x) (hr : r.eval ρ = ofInt y')
    (hx : t.InRange x) (hy : u.InRange y) (h : y' = y ∨ y' = readAs t.signed (u.wrap y))
    (hop : op.isShift = true) (hv : op.mir t x y = some v) :
    v.Encoded ρ (binopTerm op l r t.signed t.width) ↔ op.Exact t lifted x y := by
  obtain ⟨b, rfl⟩ := exists_int_of_isShift hop hv
  have hsame : coerceShiftAmount (int2bv t.width r) t.width = int2bv t.width r := by
    simp [coerceShiftAmount, coerceBitvecWidthSafe, int2bv, Op.resultSort, SmtSort.bitvecWidth]
  have hterm : binopTerm op l r t.signed t.width = some (bvToInt t.signed
      (.bv (shiftFunction op t.signed) (int2bv t.width l) (int2bv t.width r))) := by
    rw [binopTerm_shift hop, shiftTerm, if_neg (isBitvec_of_int hl), if_pos (sort_of_ofInt hl)]
    simp only [sort_of_ofInt hr, if_true, hsame]
  have heval := eval_bv_of (f := shiftFunction op t.signed) (eval_int2bv_of (w := t.width) hl)
    (eval_int2bv_of (w := t.width) hr)
  have hread : readAs t.signed ((shiftFunction op t.signed).denote (t.wrap x) (t.wrap y')) =
      t.read b ↔ (shiftFunction op t.signed).denote (t.wrap x) (t.wrap y') = b := IntTy.read_inj
  rw [hterm, encoded_some, denoted_int_ofInt (eval_bvToInt_of t.signed t.width_pos heval)]
  exact hread.trans (shiftFunction_eq_iff (Distance.of_ints hy h) hx hop hv)

end Arithmetic

end TrustMc
