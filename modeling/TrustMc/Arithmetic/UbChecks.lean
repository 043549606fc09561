import TrustMc.Arithmetic.Checked

/-!
# The checks against undefined behaviour

Every assignment of an operator that is not defined on all operands is accompanied by
conditions, and an error is reported where one of them is false.

* `uncheckedOverflowCondition`, `uncheckedShiftDistanceCondition`, `divisionByZeroCondition`,
  `signedDivOverflowCondition`, `signedNegOverflowCondition`: the conditions.
* `binopSafetyChecks`, `negSafetyChecks`: the conditions of an assignment.
* `ub_checks_exact`: they hold exactly on the operands that MIR defines the operation on, or, for
  a negation, on those on which it does not overflow.
-/

namespace TrustMc

namespace Arithmetic

open Machine Carriers Carriers.Val TrustMc.Expr

/-! ### The conditions -/

/-- `unsigned_max_value`. -/
def unsignedMaxValue (width : ℕ) : Expr :=
  .bitVecConst (BitVec.ofNat width (if 128 ≤ width then 2 ^ 128 - 1 else 2 ^ width - 1))

/-- `unsigned_mul_no_overflow_condition`: the quotient of the largest value bounds the factor. -/
def unsignedMulNoOverflowCondition (lhs rhs : Expr) (width : ℕ) : Expr :=
  .or [.eq rhs (.bitVecConst (BitVec.ofNat width 0)),
    .bvCmp .ule lhs (.bv .udiv (unsignedMaxValue width) rhs)]

/-- `unchecked_overflow_condition`. -/
def uncheckedOverflowCondition (op : BinOp) (lhs rhs : Expr) (isSigned : Bool) : Option Expr :=
  let (lhs, rhs) := coerceArithmeticOperands lhs rhs isSigned
  match op, isSigned with
  | .addUnchecked, true => some (.app (.bvCheck .addNoOverflowSigned) [lhs, rhs])
  | .addUnchecked, false => some (.app (.bvCheck .addNoOverflowUnsigned) [lhs, rhs])
  | .subUnchecked, true => some (.app (.bvCheck .subNoOverflowSigned) [lhs, rhs])
  | .subUnchecked, false => some (.app (.bvCheck .subNoUnderflowUnsigned) [lhs, rhs])
  | .mulUnchecked, true => some (.app (.bvCheck .mulNoOverflowSigned) [lhs, rhs])
  | .mulUnchecked, false => do
    let width ← lhs.sort.bitvecWidth
    some (unsignedMulNoOverflowCondition lhs rhs width)
  | _, _ => none

/-- `unchecked_shift_distance_condition`. -/
def uncheckedShiftDistanceCondition (value distance : Expr) (distanceSigned : Bool) :
    Option Expr := do
  let valueWidth ← value.sort.bitvecWidth
  let distanceWidth ← distance.sort.bitvecWidth
  let compareWidth := max valueWidth distanceWidth
  let distanceCoerced :=
    if distanceWidth < compareWidth then
      .app (.bvZeroExtend (compareWidth - distanceWidth)) [distance]
    else distance
  let widthConst := .bitVecConst (BitVec.ofNat compareWidth valueWidth)
  let validDistance := .bvCmp .ult distanceCoerced widthConst
  if distanceSigned then
    let zero := .bitVecConst (BitVec.ofNat compareWidth 0)
    some (.and [validDistance, .bvCmp .sge distanceCoerced zero])
  else
    some validDistance

/-- `division_by_zero_condition`. -/
def divisionByZeroCondition (divisor : Expr) : Option Expr := do
  let width ← divisor.sort.bitvecWidth
  some (.not (.eq divisor (.bitVecConst (BitVec.ofNat width 0))))

/-- `signed_div_overflow_condition`. -/
def signedDivOverflowCondition (lhs rhs : Expr) : Option Expr := do
  let width ← lhs.sort.bitvecWidth
  let intMin := .bitVecConst (BitVec.ofNat width (2 ^ (width - 1)))
  let negOne := .bitVecConst (BitVec.ofNat width (2 ^ 128 - 1))
  some (.or [.not (.eq lhs intMin), .not (.eq rhs negOne)])

/-- `signed_neg_overflow_condition`. -/
def signedNegOverflowCondition (operand : Expr) : Option Expr := do
  let _ ← operand.sort.bitvecWidth
  some (.app .bvNegNoOverflow [operand])

/-- The checks of a binary operator on integers in `emit_assignment_safety_checks`. `signed` is
the signedness of the operands and `distanceSigned` that of a distance. -/
def binopSafetyChecks (overflowChecks : Bool) (op : BinOp) (le re : Expr)
    (signed distanceSigned : Bool) : List Expr :=
  if le.sort.isBitvec && re.sort.isBitvec then
    match op with
    | .addUnchecked | .subUnchecked | .mulUnchecked =>
      if overflowChecks then (uncheckedOverflowCondition op le re signed).toList else []
    | .shlUnchecked | .shrUnchecked =>
      if overflowChecks then (uncheckedShiftDistanceCondition le re distanceSigned).toList else []
    | .div | .rem =>
      (divisionByZeroCondition re).toList ++
        if overflowChecks && signed then (signedDivOverflowCondition le re).toList else []
    | _ => []
  else []

/-- The check of a negation in `emit_assignment_safety_checks`. -/
def negSafetyChecks (overflowChecks : Bool) (operandSignedness : Option Bool) (e : Expr) :
    List Expr :=
  if overflowChecks && operandSignedness == some true then
    (signedNegOverflowCondition e).toList
  else []

/-! ### Operands of two widths -/

section Wider

variable {t u : IntTy} {x y : ℤ}

/-- The wider of two types. -/
def wider (t u : IntTy) : IntTy := if t.width < u.width then u else t

theorem width_wider (t u : IntTy) : (wider t u).width = max t.width u.width := by
  unfold wider
  split_ifs with h <;> omega

theorem signed_wider (h : t.signed = u.signed) : (wider t u).signed = t.signed := by
  unfold wider
  split_ifs
  · exact h.symm
  · rfl

theorem wider_self (t : IntTy) : wider t t = t := if_neg (lt_irrefl _)

/-- A type has the integers of a narrower one of the same signedness. -/
theorem inRange_of_width_le (h : t.InRange x) (hs : t.signed = u.signed)
    (hle : t.width ≤ u.width) : u.InRange x := by
  have hhalf : (2 : ℤ) ^ (t.width - 1) ≤ 2 ^ (u.width - 1) :=
    pow_le_pow_right₀ (by omega) (by omega)
  have hall : (2 : ℤ) ^ t.width ≤ 2 ^ u.width := pow_le_pow_right₀ (by omega) hle
  rw [IntTy.InRange, ← hs]
  rw [IntTy.InRange] at h
  split_ifs at h ⊢ <;> omega

variable {T : Theory} {ρ : T.Env} {l r : Expr}

/-- An operand brought to a type of the same signedness is the same integer. -/
theorem eval_coerce_of {v : IntTy} (hl : l.eval ρ = ofBV (t.wrap x)) (hx : t.InRange x) :
    (coerceBitvecWidthSafe l v.width (.forSignedness t.signed)).eval ρ = ofBV (v.wrap x) := by
  obtain ⟨d, hd, hnat⟩ := eval_coerceBitvecWidthSafe_of (.forSignedness t.signed) v.width_pos hl
  have hext : (SignExtension.forSignedness t.signed == .signExtend) = t.signed := by
    cases t.signed <;> rfl
  have hread : readAs t.signed (t.wrap x) = x := IntTy.read_wrap hx
  rw [hext, hread, ← IntTy.toNat_wrap] at hnat
  rw [hd, BitVec.eq_of_toNat_eq (Int.natCast_inj.1 hnat)]

/-- **Both operands are brought to the wider type.** -/
theorem exists_coerceArithmeticOperands (hl : l.eval ρ = ofBV (t.wrap x))
    (hr : r.eval ρ = ofBV (u.wrap y)) (hx : t.InRange x) (hy : u.InRange y)
    (hs : t.signed = u.signed) : ∃ l' r', coerceArithmeticOperands l r t.signed = (l', r') ∧
      l'.eval ρ = ofBV ((wider t u).wrap x) ∧ r'.eval ρ = ofBV ((wider t u).wrap y) := by
  rw [coerceArithmeticOperands, coerceToMaxWidth, sort_of_ofBV hl, sort_of_ofBV hr]
  simp only [SmtSort.bitvecWidth]
  split_ifs with heq
  · obtain rfl : t = u := by
      cases t
      cases u
      simp_all
    rw [wider_self]
    exact ⟨l, r, rfl, hl, hr⟩
  · rw [← width_wider]
    exact ⟨_, _, rfl, eval_coerce_of hl hx, hs ▸ eval_coerce_of hr hy⟩

end Wider

/-! ### What the conditions say -/

section Conditions

variable {T : Theory} {ρ : T.Env} {t u : IntTy} {l r : Expr} {x y : ℤ}

theorem holds_of_eval {e : Expr} {b : Bool} (h : e.eval ρ = ofBool b) : Holds ρ e ↔ b = true := by
  rw [Holds, h, toBool_ofBool]

/-- The largest value of an unsigned type, and its quotients. -/
theorem unsignedMaxValue_eq (t : IntTy) :
    unsignedMaxValue t.width = .bitVecConst (BitVec.ofNat t.width (2 ^ t.width - 1)) := by
  have hle := t.width_le
  unfold unsignedMaxValue
  split_ifs with h
  · rw [show (2 : ℕ) ^ 128 - 1 = 2 ^ t.width - 1 by rw [le_antisymm hle h]]
  · rfl

/-- The quotient of the largest value judges the product. -/
theorem holds_unsignedMulNoOverflow (hl : l.eval ρ = ofBV (t.wrap x))
    (hr : r.eval ρ = ofBV (t.wrap y)) (hx : t.InRange x) (hy : t.InRange y)
    (hs : t.signed = false) :
    Holds ρ (unsignedMulNoOverflowCondition l r t.width) ↔ t.InRange (x * y) := by
  have hmul := denote_mulNoOverflow hx hy
  simp only [hs, Bool.false_eq_true, if_false, BvCheck.denote] at hmul
  have hzero := eval_eq_const hr hy wrap_zero inRange_zero
  have hquot := eval_bvCmp_of (f := .ule) hl
    (eval_bv_of (f := .udiv) (eval_bitVecConst (BitVec.ofNat t.width (2 ^ t.width - 1))) hr)
  have hmax : 2 ^ t.width - 1 < 2 ^ t.width := Nat.sub_lt (by positivity) one_pos
  rw [unsignedMulNoOverflowCondition, unsignedMaxValue_eq, holds_of_eval (eval_or_of hzero hquot),
    ← decide_eq_true_iff (p := t.InRange (x * y)), ← hmul, Bool.or_eq_true, decide_eq_true_eq,
    decide_eq_true_eq]
  by_cases hy0 : y = 0
  · subst hy0
    simp [IntTy.wrap]
  · have hne := wrap_ne_zero hy hy0
    have hpos : 0 < (t.wrap y).toNat := Nat.pos_of_ne_zero fun h =>
      hne (BitVec.eq_of_toNat_eq (by simpa using h))
    have hdiv : ((BitVec.ofNat t.width (2 ^ t.width - 1)).smtUDiv (t.wrap y)).toNat =
        (2 ^ t.width - 1) / (t.wrap y).toNat := by
      rw [BitVec.smtUDiv_eq, if_neg (by simpa using hne), BitVec.toNat_udiv, BitVec.toNat_ofNat,
        Nat.mod_eq_of_lt hmax]
    rw [or_iff_right hy0, BvCmp.denote, BvBin.denote, BitVec.ule, decide_eq_true_eq, hdiv,
      Nat.le_div_iff_mul_le hpos]
    omega

theorem isSome_unchecked {z : ℤ} : (unchecked t z).isSome ↔ t.InRange z := by
  unfold unchecked
  split_ifs with h <;> simp [h]

/-- **The overflow conditions** of unchecked arithmetic. -/
theorem holds_uncheckedOverflow (hl : l.eval ρ = ofBV (t.wrap x)) (hr : r.eval ρ = ofBV (u.wrap y))
    (hx : t.InRange x) (hy : u.InRange y) (hs : t.signed = u.signed) {op : BinOp}
    (hop : op ∈ [BinOp.addUnchecked, .subUnchecked, .mulUnchecked]) :
    ∃ c, uncheckedOverflowCondition op l r t.signed = some c ∧
      (Holds ρ c ↔ (op.mir (wider t u) x y).isSome) := by
  obtain ⟨l', r', hcoerce, hl', hr'⟩ := exists_coerceArithmeticOperands hl hr hx hy hs
  have hsigned := signed_wider hs
  have hx' : (wider t u).InRange x :=
    inRange_of_width_le hx hsigned.symm (by rw [width_wider]; omega)
  have hy' : (wider t u).InRange y :=
    inRange_of_width_le hy (hs.symm.trans hsigned.symm) (by rw [width_wider]; omega)
  have hcheck : ∀ {f g : BvCheck} {z : ℤ}, (if (wider t u).signed then f else g).denote
      ((wider t u).wrap x) ((wider t u).wrap y) = decide ((wider t u).InRange z) →
      (Holds ρ (.app (.bvCheck (if (wider t u).signed then f else g)) [l', r']) ↔
        (unchecked (wider t u) z).isSome) := by
    intro f g z h
    rw [holds_of_eval (eval_bvCheck_of hl' hr'), h, isSome_unchecked, decide_eq_true_eq]
  simp only [uncheckedOverflowCondition]
  rw [hcoerce, ← hsigned]
  simp only [List.mem_cons, List.not_mem_nil, or_false] at hop
  rcases hop with rfl | rfl | rfl
  · exact ⟨_, by cases (wider t u).signed <;> rfl, hcheck (denote_addNoOverflow hx' hy')⟩
  · exact ⟨_, by cases (wider t u).signed <;> rfl, hcheck (denote_subNoOverflow hx' hy')⟩
  · cases hsg : (wider t u).signed with
    | true =>
      have hmul := hcheck (denote_mulNoOverflow hx' hy')
      rw [hsg, if_pos rfl] at hmul
      exact ⟨_, rfl, hmul⟩
    | false =>
      refine ⟨unsignedMulNoOverflowCondition l' r' (wider t u).width, ?_, ?_⟩
      · simp [sort_of_ofBV hl', SmtSort.bitvecWidth]
      · exact (holds_unsignedMulNoOverflow hl' hr' hx' hy' hsg).trans isSome_unchecked.symm

/-- **The distance condition** of an unchecked shift: a distance that is below the width as a
number is not negative either. -/
theorem holds_uncheckedShiftDistance (hl : l.eval ρ = ofBV (t.wrap x))
    (hr : r.eval ρ = ofBV (u.wrap y)) (hy : u.InRange y) :
    ∃ c, uncheckedShiftDistanceCondition l r u.signed = some c ∧
      (Holds ρ c ↔ ShiftInRange t y) := by
  have hmax := width_wider t u
  have hsmall : t.width ≤ 2 ^ ((wider t u).width - 1) := by
    exact_mod_cast t.width_le_half (wider t u)
  have hpow : 2 ^ (wider t u).width = 2 * 2 ^ ((wider t u).width - 1) := by
    exact_mod_cast (wider t u).two_pow_width
  -- the distance at the larger width is the number it was
  have hnat : ((u.wrap y).setWidth (wider t u).width).toNat = (u.wrap y).toNat := by
    have hle : 2 ^ u.width ≤ 2 ^ (wider t u).width := Nat.pow_le_pow_right (by omega) (by omega)
    rw [BitVec.toNat_setWidth, Nat.mod_eq_of_lt ((u.wrap y).isLt.trans_le hle)]
  obtain ⟨e, hcoerced, he⟩ : ∃ e, (if u.width < (wider t u).width then
      Expr.app (.bvZeroExtend ((wider t u).width - u.width)) [r] else r) = e ∧
        e.eval ρ = ofBV ((u.wrap y).setWidth (wider t u).width) := by
    split_ifs with hlt
    · refine ⟨_, rfl, ?_⟩
      rw [eval_bvZeroExtend (sort_of_ofBV hr), bits_of_ofBV hr, Nat.add_sub_cancel' hlt.le]
    · exact ⟨r, rfl, hr.trans (ofBV_congr (by omega) hnat.symm)⟩
  have hiff : (u.wrap y).toNat < t.width ↔ ShiftInRange t y := by
    rw [ShiftInRange, ← emod_lt_width_iff hy.ge hy.lt, ← IntTy.toNat_wrap]
    exact_mod_cast Iff.rfl
  have hvalid : Holds ρ (.bvCmp .ult e (.bitVecConst (BitVec.ofNat (wider t u).width t.width))) ↔
      (u.wrap y).toNat < t.width := by
    rw [holds_of_eval (eval_bvCmp_of he (eval_bitVecConst _)), BvCmp.denote, BitVec.ult,
      decide_eq_true_eq, hnat, BitVec.toNat_ofNat, Nat.mod_eq_of_lt (by omega)]
  simp only [uncheckedShiftDistanceCondition, sort_of_ofBV hl, sort_of_ofBV hr,
    SmtSort.bitvecWidth, Option.bind_eq_bind, Option.bind_some]
  rw [← hmax, hcoerced]
  split_ifs
  · refine ⟨_, rfl, ?_⟩
    simp only [holds_and, List.mem_cons, List.not_mem_nil, or_false, forall_eq_or_imp, forall_eq,
      hvalid, ← hiff]
    refine and_iff_left_of_imp fun hlt => ?_
    rw [holds_of_eval (eval_bvCmp_of he (eval_bitVecConst _)), BvCmp.denote, BitVec.sle,
      decide_eq_true_eq, BitVec.toInt_eq_toNat_of_lt (x := (u.wrap y).setWidth _) (by omega),
      BitVec.toInt_zero]
    exact Int.natCast_nonneg _
  · exact ⟨_, rfl, hvalid.trans hiff⟩

/-- **The divisor is not zero.** -/
theorem holds_divisionByZero (hr : r.eval ρ = ofBV (t.wrap y)) (hy : t.InRange y) :
    ∃ c, divisionByZeroCondition r = some c ∧ (Holds ρ c ↔ y ≠ 0) := by
  refine ⟨_, by rw [divisionByZeroCondition, sort_of_ofBV hr]; rfl, ?_⟩
  rw [holds_not, holds_of_eval (eval_eq_const hr hy wrap_zero inRange_zero), decide_eq_true_eq]

/-- The constant of the code for minus one is cut off to the width. -/
theorem wrap_neg_one_of_u128 : BitVec.ofNat t.width (2 ^ 128 - 1) = t.wrap (-1) := by
  have hdvd : (2 : ℤ) ^ t.width ∣ 2 ^ 128 := pow_dvd_pow 2 t.width_le
  have hsub : ((2 ^ 128 - 1 : ℕ) : ℤ) - -1 = 2 ^ 128 := by norm_num
  rw [← BitVec.toNat_inj, ← Int.natCast_inj, IntTy.toNat_wrap, BitVec.toNat_ofNat]
  push_cast
  exact Int.emod_eq_emod_iff_emod_sub_eq_zero.2 (Int.emod_eq_zero_of_dvd (hsub ▸ hdvd))

/-- **The quotient is in range**: it is unless the least value is divided by minus one. -/
theorem holds_signedDivOverflow (hl : l.eval ρ = ofBV (t.wrap x)) (hr : r.eval ρ = ofBV (t.wrap y))
    (hx : t.InRange x) (hy : t.InRange y) :
    ∃ c, signedDivOverflowCondition l r = some c ∧
      (t.signed = true → y ≠ 0 → (Holds ρ c ↔ t.InRange (x.tdiv y))) := by
  refine ⟨_, by rw [signedDivOverflowCondition, sort_of_ofBV hl]; rfl, fun hs h => ?_⟩
  simp only [holds_or, List.mem_cons, List.not_mem_nil, or_false, exists_eq_or_imp, exists_eq_left,
    holds_not]
  rw [holds_of_eval (eval_eq_const hl hx wrap_neg_half (inRange_neg_half hs)),
    holds_of_eval (eval_eq_const hr hy wrap_neg_one_of_u128 (inRange_neg_one hs)),
    decide_eq_true_eq, decide_eq_true_eq, ← not_and_or, ← tdiv_iff hs hx hy h, not_not]

/-- **The conditions of a division** hold where it is defined. -/
theorem holds_division (hl : l.eval ρ = ofBV (t.wrap x)) (hr : r.eval ρ = ofBV (t.wrap y))
    (hx : t.InRange x) (hy : t.InRange y) :
    ∃ c d, divisionByZeroCondition r = some c ∧ signedDivOverflowCondition l r = some d ∧
      (Holds ρ c ↔ y ≠ 0) ∧ ∀ op ∈ [BinOp.div, .rem],
        (Holds ρ c ∧ (t.signed = true → Holds ρ d) ↔ (op.mir t x y).isSome) := by
  obtain ⟨c, hc, hzero⟩ := holds_divisionByZero hr hy
  obtain ⟨d, hd, hrange⟩ := holds_signedDivOverflow hl hr hx hy
  refine ⟨c, d, hc, hd, hzero, fun op hop => ?_⟩
  have hdef : (op.mir t x y).isSome ↔ y ≠ 0 ∧ t.InRange (x.tdiv y) := by
    simp only [List.mem_cons, List.not_mem_nil, or_false] at hop
    rcases hop with rfl | rfl <;> by_cases h0 : y = 0 <;> by_cases hq : t.InRange (x.tdiv y) <;>
      simp [BinOp.mir, unchecked, h0, hq]
  rw [hdef, hzero]
  refine and_congr_right fun h0 => ?_
  cases hs : t.signed with
  | true => simpa using hrange hs h0
  | false => simpa using hx.tdiv hs hy

/-- **The negation is in range.** -/
theorem holds_signedNegOverflow (hl : l.eval ρ = ofBV (t.wrap x)) (hx : t.InRange x)
    (hs : t.signed = true) :
    ∃ c, signedNegOverflowCondition l = some c ∧ (Holds ρ c ↔ t.InRange (-x)) := by
  have hneg : (Expr.app .bvNegNoOverflow [l]).eval ρ = ofBool (decide (t.InRange (-x))) := by
    simp only [eval_app, List.map_cons, List.map_nil, hl, Op.interp, fst_ofBV,
      SmtSort.width_bitvec, toBV_ofBV, IntTy.toInt_wrap hs hx, inSigned, IntTy.InRange, hs, if_true]
  refine ⟨.app .bvNegNoOverflow [l], by rw [signedNegOverflowCondition, sort_of_ofBV hl]; rfl, ?_⟩
  rw [holds_of_eval hneg, decide_eq_true_eq]

end Conditions

/-- **The checks are exact**: each condition holds on exactly the operands on which the operation
is defined, and so do the checks that accompany an assignment. -/
theorem ub_checks_exact {T : Theory} {ρ : T.Env} {t u : IntTy} {l r : Expr} {x y : ℤ}
    (hl : l.eval ρ = ofBV (t.wrap x)) (hr : r.eval ρ = ofBV (u.wrap y)) (hx : t.InRange x)
    (hy : u.InRange y) :
    (t.signed = u.signed → ∀ op ∈ [BinOp.addUnchecked, .subUnchecked, .mulUnchecked],
      ∃ c, uncheckedOverflowCondition op l r t.signed = some c ∧
        (Holds ρ c ↔ (op.mir (wider t u) x y).isSome)) ∧
      (∃ c, uncheckedShiftDistanceCondition l r u.signed = some c ∧
        ∀ op ∈ [BinOp.shlUnchecked, .shrUnchecked], Holds ρ c ↔ (op.mir t x y).isSome) ∧
      (u = t → ∃ c d, divisionByZeroCondition r = some c ∧ signedDivOverflowCondition l r = some d ∧
        (Holds ρ c ↔ y ≠ 0) ∧ ∀ op ∈ [BinOp.div, .rem],
          Holds ρ c ∧ (t.signed = true → Holds ρ d) ↔ (op.mir t x y).isSome) ∧
      (t.signed = true → ∃ c, signedNegOverflowCondition l = some c ∧
        (Holds ρ c ↔ t.InRange (-x))) ∧
      (∀ op : BinOp, op.isShift = true ∨ u = t → op ≠ .offset →
        ((∀ c ∈ binopSafetyChecks true op l r t.signed u.signed, Holds ρ c) ↔
          (op.mir t x y).isSome)) ∧
      (t.signed = true →
        ((∀ c ∈ negSafetyChecks true (some t.signed) l, Holds ρ c) ↔ t.InRange (-x))) := by
  have hdistance := holds_uncheckedShiftDistance (x := x) hl hr hy
  have hshift : ∀ op ∈ [BinOp.shlUnchecked, .shrUnchecked],
      ((op.mir t x y).isSome ↔ ShiftInRange t y) := by
    intro op hop
    simp only [List.mem_cons, List.not_mem_nil, or_false] at hop
    rcases hop with rfl | rfl <;> by_cases h : ShiftInRange t y <;> simp [BinOp.mir, h]
  refine ⟨fun hs op hop => holds_uncheckedOverflow hl hr hx hy hs hop, ?_, ?_, ?_, ?_, ?_⟩
  · obtain ⟨c, hc, hholds⟩ := hdistance
    exact ⟨c, hc, fun op hop => hholds.trans (hshift op hop).symm⟩
  · rintro rfl
    exact holds_division hl hr hx hy
  · exact fun hs => holds_signedNegOverflow hl hx hs
  · intro op htypes hop
    have hoverflow : u = t → ∀ op ∈ [BinOp.addUnchecked, .subUnchecked, .mulUnchecked],
        ((∀ c ∈ (uncheckedOverflowCondition op l r t.signed).toList, Holds ρ c) ↔
          (op.mir t x y).isSome) := by
      rintro rfl op hop
      obtain ⟨c, hc, hholds⟩ := holds_uncheckedOverflow hl hr hx hy rfl hop
      rw [wider_self] at hholds
      simpa [hc] using hholds
    have hbits : (l.sort.isBitvec && r.sort.isBitvec) = true := by
      simp [isBitvec_of_bits hl, isBitvec_of_bits hr]
    unfold binopSafetyChecks
    rw [if_pos hbits]
    cases op
    case offset => exact absurd rfl hop
    case addUnchecked | subUnchecked | mulUnchecked =>
      exact hoverflow (htypes.resolve_left (by decide)) _ (by decide)
    case shlUnchecked | shrUnchecked =>
      obtain ⟨c, hc, hholds⟩ := hdistance
      rw [hshift _ (by decide), ← hholds]
      simp [hc]
    case div | rem =>
      obtain rfl : u = t := htypes.resolve_left (by decide)
      obtain ⟨c, d, hc, hd, -, hholds⟩ := holds_division hl hr hx hy
      rw [← hholds _ (by decide)]
      cases u.signed <;> simp [hc, hd]
    all_goals simp [BinOp.mir]
  · intro hs
    obtain ⟨c, hc, hholds⟩ := holds_signedNegOverflow hl hx hs
    simpa [negSafetyChecks, hs, hc] using hholds

/-- `-128 / -1` is not defined at eight bits, and one of its checks fails. -/
theorem ub_checks_exact_leastByMinusOne :
    ¬∀ c ∈ binopSafetyChecks true .div (.bitVecConst (BitVec.ofInt 8 (-128)))
        (.bitVecConst (BitVec.ofInt 8 (-1))) true true,
      Holds (fun _ _ => Inhabited.default : (default : Theory).Env) c := by
  let i8 : IntTy := ⟨true, 8, by decide⟩
  let ρ : (default : Theory).Env := fun _ _ => Inhabited.default
  have hl : (Expr.bitVecConst (i8.wrap (-128))).eval ρ = ofBV (i8.wrap (-128)) := eval_bitVecConst _
  have hr : (Expr.bitVecConst (i8.wrap (-1))).eval ρ = ofBV (i8.wrap (-1)) := eval_bitVecConst _
  obtain ⟨-, -, -, -, hchecks, -⟩ := ub_checks_exact hl hr (by decide) (by decide)
  refine fun hholds => absurd ((hchecks .div (Or.inr rfl) (by decide)).1 hholds) ?_
  decide

end Arithmetic

end TrustMc
