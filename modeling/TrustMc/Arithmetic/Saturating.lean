import TrustMc.Arithmetic.UbChecks

/-!
# Saturating and overflowing arithmetic

The model of `step_saturating.rs`: the terms that calls of `saturating_add`, `saturating_sub`,
`overflowing_add`, `overflowing_sub`, `overflowing_mul` and `overflowing_add_signed` assign. They
rest on the checked operator (`checkedBinopResultOverflow`).

* `saturating_iff`: the saturating term is the exact result brought into the range, except where
  the sign of a bit-vector operand is asked for as if it were an integer.
* `overflowing_iff`: result and flag are Rust's, except that the result of lifted operands is not
  reduced.
* `overflowing_add_signed_iff`: the same for an unsigned and a signed operand, except that lifted
  operands narrower than a pointer are added at the width of a pointer.
-/

namespace TrustMc

namespace Arithmetic

open Machine Carriers Carriers.Val TrustMc.Expr

/-! ### The handlers -/

/-- `saturating_bound_expr`. -/
def saturatingBoundExpr (lhs result : Expr) (arithOp : BinOp) (isSigned : Bool)
    (intBvWidth : ℕ) : Option Expr :=
  if result.sort.isBitvec then
    let w := result.sort.width
    if isSigned then
      -- a signed operation leaves the range on the side of its first operand
      let lhsPositive : Expr :=
        if lhs.sort.isBitvec then .eq (signBit lhs w) (.bitVecConst 0#1)
        else .intCmp .ge lhs (.intConst 0)
      some (.ite lhsPositive (.bitVecConst (BitVec.ofInt w (2 ^ (w - 1) - 1)))
        (.bitVecConst (BitVec.ofInt w (-2 ^ (w - 1)))))
    else
      match arithOp with
      | .add => some (.bitVecConst (BitVec.ofInt w (-1)))
      | .sub => some (.bitVecConst (BitVec.ofInt w 0))
      | _ => none
  else if result.sort = .int then
    if isSigned then
      let lhsPositive : Expr := .intCmp .ge lhs (.intConst 0)
      some (.ite lhsPositive (.intConst (2 ^ (intBvWidth - 1) - 1))
        (.intConst (-2 ^ (intBvWidth - 1))))
    else
      match arithOp with
      | .add => some (.intConst (2 ^ intBvWidth - 1))
      | .sub => some (.intConst 0)
      | _ => none
  else none

/-- The value of `codegen_saturating_arithmetic`. -/
def codegenSaturatingArithmetic (intLift : Bool) (arithOp : BinOp) (lhs rhs : Expr)
    (isSigned : Bool) (intBvWidth : ℕ) : Option Expr := do
  let (result, overflow) ← checkedBinopResultOverflow arithOp lhs rhs isSigned intBvWidth intLift
  let satValue ← saturatingBoundExpr lhs result arithOp isSigned intBvWidth
  return .ite overflow satValue result

/-- `reshape_flattened_result_field`: `outSort` is the sort of the slot, if it has one. -/
def reshapeFlattenedResultField (outSort : Option SmtSort) (value : Expr) (isSigned : Bool) :
    Expr :=
  match outSort with
  | none => value
  | some outSort =>
    if value.sort = outSort then value
    else if outSort = .int ∧ value.sort.isBitvec then bvToInt isSigned value
    else if value.sort.isBitvec ∧ outSort.isBitvec then
      coerceBitvecWidthSafe value outSort.width (.forSignedness isSigned)
    else value

/-- `reshape_flattened_bool_field_for_call`. -/
def reshapeFlattenedBoolFieldForCall (outSort : Option SmtSort) (value : Expr) : Expr :=
  match outSort with
  | some (.bitvec width) =>
    .ite value (.bitVecConst (BitVec.ofNat width 1)) (.bitVecConst (BitVec.ofNat width 0))
  | some .int => .ite value (.intConst 1) (.intConst 0)
  | _ => value

/-- The two fields of `codegen_overflowing_arithmetic`. -/
def codegenOverflowingArithmetic (resultSlot flagSlot : Option SmtSort) (intLift : Bool)
    (arithOp : BinOp) (lhs rhs : Expr) (isSigned : Bool) (intBvWidth : ℕ) :
    Option (Expr × Expr) := do
  let (result, overflow) ← checkedBinopResultOverflow arithOp lhs rhs isSigned intBvWidth intLift
  return (reshapeFlattenedResultField resultSlot result isSigned,
    reshapeFlattenedBoolFieldForCall flagSlot overflow)

/-- The operands of `codegen_overflowing_add_signed` as bit-vectors: `destWidth` is the width of
the destination's type, which a pair does not have. -/
def addSignedOperands (destWidth : Option ℕ) (lhs rhs : Expr) : Expr × Expr :=
  if lhs.sort = .int ∨ rhs.sort = .int then
    -- `unwrap_or(POINTER_WIDTH)`
    let w := destWidth.getD 64
    (if lhs.sort = .int then int2bv w lhs else lhs, if rhs.sort = .int then int2bv w rhs else rhs)
  else (lhs, rhs)

/-- The two fields of `codegen_overflowing_add_signed`. -/
def codegenOverflowingAddSigned (destWidth : Option ℕ) (resultSlot flagSlot : Option SmtSort)
    (lhs rhs : Expr) : Option (Expr × Expr) :=
  let (lhs, rhs) := addSignedOperands destWidth lhs rhs
  if ¬ lhs.sort.isBitvec ∨ ¬ rhs.sort.isBitvec then none
  else
    let targetWidth := max lhs.sort.width rhs.sort.width
    let lhs := coerceBitvecWidthSafe lhs targetWidth .zeroExtend
    let rhs := coerceBitvecWidthSafe rhs targetWidth .signExtend
    let result : Expr := .bv .add lhs rhs
    let unsignedCarry : Expr := .bvCmp .ult result lhs
    let rhsNegative : Expr := .bvCmp .slt rhs (.bitVecConst (BitVec.ofNat targetWidth 0))
    let overflow : Expr := .not (.eq unsignedCarry rhsNegative)
    some (reshapeFlattenedResultField resultSlot result false,
      reshapeFlattenedBoolFieldForCall flagSlot overflow)

/-! ### What Rust computes -/

/-- The exact result of the three operators. -/
def exactResult (op : BinOp) (x y : ℤ) : ℤ :=
  match op with
  | .sub => x - y
  | .mul => x * y
  | _ => x + y

/-- The least integer of a type. -/
def minValue (t : IntTy) : ℤ := if t.signed then -2 ^ (t.width - 1) else 0

/-- The largest integer of a type. -/
def maxValue (t : IntTy) : ℤ := if t.signed then 2 ^ (t.width - 1) - 1 else 2 ^ t.width - 1

/-- The integer of the type that is closest. -/
def clamp (t : IntTy) (z : ℤ) : ℤ := max (minValue t) (min z (maxValue t))

section Clamp

variable {t : IntTy} {z : ℤ}

theorem inRange_iff_bounds : t.InRange z ↔ minValue t ≤ z ∧ z ≤ maxValue t := by
  rw [IntTy.InRange, minValue, maxValue]
  split_ifs <;> omega

theorem minValue_le_maxValue (t : IntTy) : minValue t ≤ maxValue t := by
  have h := inRange_iff_bounds.1 (inRange_zero (t := t))
  exact h.1.trans h.2

theorem clamp_of_inRange (h : t.InRange z) : clamp t z = z := by
  rw [inRange_iff_bounds] at h
  rw [clamp, min_eq_left h.2, max_eq_right h.1]

theorem clamp_of_lt (h : z < minValue t) : clamp t z = minValue t :=
  max_eq_left ((min_le_left _ _).trans h.le)

theorem clamp_of_gt (h : maxValue t < z) : clamp t z = maxValue t := by
  rw [clamp, min_eq_right h.le, max_eq_right (minValue_le_maxValue t)]

theorem inRange_clamp : t.InRange (clamp t z) :=
  inRange_iff_bounds.2 ⟨le_max_left _ _,
    max_le (minValue_le_maxValue t) (min_le_right _ _)⟩

end Clamp

variable {T : Theory} {ρ : T.Env} {t : IntTy} {l r : Expr} {x y : ℤ} {op : BinOp}

/-- The term is well-sorted and stands for the value. -/
def Yields (ρ : T.Env) {t : IntTy} (v : BitVec t.width) (e : Expr) : Prop :=
  e.WellSorted ∧ (MirValue.int v).Denoted ρ e

/-- Beyond the range, the sign of the left operand says on which side. -/
theorem clamp_exactResult (hop : op = .add ∨ op = .sub) (hx : t.InRange x) (hy : t.InRange y)
    (h : ¬ t.InRange (exactResult op x y)) :
    clamp t (exactResult op x y) =
      if t.signed then (if 0 ≤ x then maxValue t else minValue t)
      else if op = .add then maxValue t else minValue t := by
  have hpos : (0 : ℤ) < 2 ^ (t.width - 1) := by positivity
  have hmin : minValue t = if t.signed then -2 ^ (t.width - 1) else 0 := rfl
  have hmax : maxValue t = if t.signed then 2 ^ (t.width - 1) - 1 else 2 ^ t.width - 1 := rfl
  rw [inRange_iff_bounds] at h hx hy
  rcases hop with rfl | rfl
  · rw [show exactResult .add x y = x + y from rfl] at h ⊢
    rw [if_pos (rfl : BinOp.add = .add)]
    split_ifs at * with hs hx0
    · exact clamp_of_gt (by omega)
    · exact clamp_of_lt (by omega)
    · exact clamp_of_gt (by omega)
  · rw [show exactResult .sub x y = x - y from rfl] at h ⊢
    rw [if_neg (by decide : ¬ BinOp.sub = .add)]
    split_ifs at * with hs hx0
    · exact clamp_of_gt (by omega)
    · exact clamp_of_lt (by omega)
    · exact clamp_of_lt (by omega)

/-! ### The checked operator -/

/-- The terms are well-sorted and stand for a result and a flag. -/
structure YieldsPair (ρ : T.Env) (o : Expr × Expr) (v : T.Val) (flag : Bool) : Prop where
  result_wellSorted : o.1.WellSorted
  flag_wellSorted : o.2.WellSorted
  result : o.1.eval ρ = v
  flag : o.2.eval ρ = ofBool flag

theorem mirChecked_exactResult (hop : op ∈ [.add, .sub, .mul]) :
    op.mirChecked t x y =
      some (some (t.wrap (exactResult op x y)), decide (¬ t.InRange (exactResult op x y))) := by
  simp only [List.mem_cons, List.not_mem_nil, or_false] at hop
  rcases hop with rfl | rfl | rfl <;> rfl

theorem wellSorted_signBit {e : Expr} {w : ℕ} (he : e.WellSorted) (hs : e.sort = .bitvec w)
    (hw : 0 < w) : (signBit e w).WellSorted := by
  simp only [signBit, wellSorted_app, List.map_cons, List.map_nil, Op.accepts, hs,
    SmtSort.width_bitvec, List.mem_cons, List.not_mem_nil, or_false, forall_eq]
  exact ⟨by simp [SmtSort.isBitvec, SmtSort.bitvecWidth]; omega, he⟩

theorem wellSorted_checkedTerm (hop : op ∈ [.add, .sub, .mul]) {isSigned : Bool} {w : ℕ}
    (hl : l.WellSorted) (hr : r.WellSorted) (hls : l.sort = .bitvec w) (hrs : r.sort = .bitvec w)
    (hw : 0 < w) {o : Expr × Expr}
    (h : checkedBinopResultOverflow.checkedTerm op l r isSigned w = some o) :
    o.1.WellSorted ∧ o.2.WellSorted := by
  have hlb := wellSorted_signBit hl hls hw
  have hrb := wellSorted_signBit hr hrs hw
  have hbin : ∀ f : BvBin, (Expr.bv f l r).WellSorted ∧ (Expr.bv f l r).sort = .bitvec w :=
    fun f => by simp [Op.accepts, Op.resultSort, hls, hrs, hl, hr]
  have hsort : ∀ e : Expr, (signBit e w).sort = .bitvec (w - 1 - (w - 1) + 1) := fun e => rfl
  have hbit : ∀ f : BvBin, (signBit (.bv f l r) w).WellSorted :=
    fun f => wellSorted_signBit (hbin f).1 (hbin f).2 hw
  simp only [List.mem_cons, List.not_mem_nil, or_false] at hop
  rcases hop with rfl | rfl | rfl <;> cases isSigned <;>
    (obtain rfl := Option.some.inj h
     refine ⟨(hbin _).1, ?_⟩
     simp [Op.accepts, Op.resultSort, hls, hrs, hl, hr, hsort, hlb, hrb, hbit, SmtSort.isBool])

/-- On bit-vectors the checked operator yields the reduced result and the flag. -/
theorem exists_checked (hl : Operand ρ t l x) (hr : Operand ρ t r y)
    (hop : op ∈ [.add, .sub, .mul]) {intLift : Bool}
    (hlift : ¬ (intLift = true ∧ (l.sort = .int ∨ r.sort = .int))) :
    ∃ o, checkedBinopResultOverflow op l r t.signed t.width intLift = some o ∧
      YieldsPair ρ o (ofBV (t.wrap (exactResult op x y)))
        (decide (¬ t.InRange (exactResult op x y))) := by
  have hshift : op.isShift = false := by
    simp only [List.mem_cons, List.not_mem_nil, or_false] at hop
    rcases hop with rfl | rfl | rfl <;> rfl
  have hlv := hl.eval_toBits
  have hrv := hr.eval_toBits
  have hls := sort_of_ofBV hlv
  have hrs := sort_of_ofBV hrv
  obtain ⟨o, ho, hresult, hflag⟩ := checkedBinopResultOverflow_bits hl hr hshift
    (mirChecked_exactResult hop) hlift
  have hwellSorted : o.1.WellSorted ∧ o.2.WellSorted ∧ o.1.sort = .bitvec t.width := by
    obtain hterm | ⟨a, b, -, -, -, -, hterm⟩ := checkedBinopResultOverflow_cases op hlift
      (isBitvec_of_bits hlv) (isBitvec_of_bits hrv)
      (coerceArithmeticOperands_bits hlv hrv t.signed) (by rw [hls, SmtSort.width_bitvec])
    · rw [hterm] at ho
      obtain ⟨h₁, h₂⟩ := wellSorted_checkedTerm hop hl.wellSorted_toBits hr.wellSorted_toBits hls
        hrs t.width_pos ho
      refine ⟨h₁, h₂, ?_⟩
      simp only [checkedBinopResultOverflow.checkedTerm, Option.bind_eq_bind,
        Option.bind_eq_some_iff] at ho
      obtain ⟨f, -, flag, -, ho⟩ := ho
      obtain rfl := Option.some.inj ho
      simp [Op.resultSort, hls]
    · rw [hterm] at ho
      obtain rfl := Option.some.inj ho
      simp [Op.accepts, Op.resultSort]
  refine ⟨o, ho, hwellSorted.1, hwellSorted.2.1, ?_, hflag⟩
  refine (hresult _ rfl).resolve_right fun h => ?_
  rw [sort_of_ofInt h] at hwellSorted
  cases hwellSorted.2.2

theorem wellSorted_rangeFlag {e : Expr} (he : e.WellSorted) (hs : e.sort = .int) :
    (rangeFlag t e).WellSorted := by
  rw [rangeFlag]
  split_ifs <;> simp [Op.accepts, Op.resultSort, hs, he, SmtSort.isBool]

theorem Operand.wellSorted_lifted {e : Expr} (he : Operand ρ t e x) :
    (if e.sort.isBitvec then bvToInt t.signed e else e).WellSorted := by
  split_ifs with h
  · obtain ⟨w, hw⟩ := SmtSort.isBitvec_iff.1 h
    have hwidth : w = t.width := by
      rcases he.value with hbits | hint
      · exact SmtSort.bitvec.inj (hw.symm.trans (sort_of_ofBV hbits))
      · exact absurd h (isBitvec_of_int hint)
    exact wellSorted_bvToInt t.signed (hwidth ▸ t.width_pos) he.wellSorted hw
  · exact he.wellSorted

/-- On lifted operands it yields the exact result and the flag. -/
theorem exists_lifted (hl : Operand ρ t l x) (hr : Operand ρ t r y)
    (hop : op ∈ [.add, .sub, .mul]) :
    ∃ o, liftedResultOverflow op l r t.signed t.width = some o ∧
      YieldsPair ρ o (ofInt (exactResult op x y))
        (decide (¬ t.InRange (exactResult op x y))) := by
  set l' := if l.sort.isBitvec then bvToInt t.signed l else l with hl'
  set r' := if r.sort.isBitvec then bvToInt t.signed r else r with hr'
  have hlv : l'.eval ρ = ofInt x := hl.eval_lifted
  have hrv : r'.eval ρ = ofInt y := hr.eval_lifted
  have hlw : l'.WellSorted := hl.wellSorted_lifted
  have hrw : r'.WellSorted := hr.wellSorted_lifted
  have hpair : ∀ {f : IntBin}, f.divides = false → f.denote x y = exactResult op x y →
      YieldsPair ρ (.int f l' r', rangeFlag t (.int f l' r')) (ofInt (exactResult op x y))
        (decide (¬ t.InRange (exactResult op x y))) := by
    intro f hdiv hz
    have hw : (Expr.int f l' r').WellSorted := by
      simp [Op.accepts, sort_of_ofInt hlv, sort_of_ofInt hrv, hlw, hrw]
    have hres := eval_int_of (f := f) hlv hrv (by simp [hdiv])
    rw [hz] at hres
    exact ⟨hw, wellSorted_rangeFlag hw (sort_of_ofInt hres), hres, eval_rangeFlag hres⟩
  simp only [List.mem_cons, List.not_mem_nil, or_false] at hop
  rcases hop with rfl | rfl | rfl
  · exact ⟨_, rfl, hpair (f := .add) rfl rfl⟩
  · exact ⟨_, rfl, hpair (f := .sub) rfl rfl⟩
  · exact ⟨_, rfl, hpair (f := .mul) rfl rfl⟩

/-! ### Saturating arithmetic -/

/-- The sign of an operand that is a bit-vector. -/
theorem eval_signBit_eq (hs : t.signed = true) (hx : t.InRange x)
    (hbits : l.eval ρ = ofBV (t.wrap x)) :
    (Expr.eq (signBit l t.width) (.bitVecConst 0#1)).eval ρ = ofBool (decide (0 ≤ x)) := by
  have hbit : (signBit l t.width).eval ρ = ofBV (BitVec.ofBool (t.wrap x).msb) :=
    eval_signBit_of t.width_pos hbits
  rw [eval_eq_ofBV hbit (eval_bitVecConst _), BitVec.msb_eq_toInt, IntTy.toInt_wrap hs hx]
  congr 1
  by_cases h : 0 ≤ x
  · simp [h, not_lt.2 h]
  · simp [h, not_le.1 h]

/-- The sign of an operand that is an integer. -/
theorem eval_ge_zero (hint : l.eval ρ = ofInt x) :
    (Expr.intCmp .ge l (.intConst 0)).eval ρ = ofBool (decide (0 ≤ x)) :=
  eval_intCmp_of hint (eval_intConst 0)

/-- The bound is the result brought into the range, where it is out of it, for a bit-vector
result. -/
theorem exists_bound_bits (hl : Operand ρ t l x) (hy : t.InRange y) (hop : op = .add ∨ op = .sub)
    {result : Expr} (hs : result.sort = .bitvec t.width) :
    ∃ bound, saturatingBoundExpr l result op t.signed t.width = some bound ∧ bound.WellSorted ∧
      bound.sort = .bitvec t.width ∧ (¬ t.InRange (exactResult op x y) →
        bound.eval ρ = ofBV (t.wrap (clamp t (exactResult op x y)))) := by
  have hclamp := clamp_exactResult hop hl.inRange hy
  rw [saturatingBoundExpr.eq_def, hs, if_pos (by simp [SmtSort.isBitvec, SmtSort.bitvecWidth])]
  simp only [SmtSort.width_bitvec]
  cases hsigned : t.signed with
  | true =>
    simp only [hsigned, if_true] at hclamp ⊢
    set c : Expr := if l.sort.isBitvec then .eq (signBit l t.width) (.bitVecConst 0#1)
      else .intCmp .ge l (.intConst 0) with hc
    obtain ⟨hcw, hcv⟩ : c.WellSorted ∧ c.eval ρ = ofBool (decide (0 ≤ x)) := by
      rcases hl.value with hbits | hint
      · rw [hc, if_pos (isBitvec_of_bits hbits)]
        have hbit := wellSorted_signBit hl.wellSorted (sort_of_ofBV hbits) t.width_pos
        refine ⟨?_, eval_signBit_eq hsigned hl.inRange hbits⟩
        have hsort : (signBit l t.width).sort = .bitvec 1 := by simp [signBit, Op.resultSort]
        simp [Op.accepts, Op.resultSort, hsort, hbit]
      · rw [hc, if_neg (isBitvec_of_int hint)]
        exact ⟨by simp [Op.accepts, Op.resultSort, sort_of_ofInt hint, hl.wellSorted],
          eval_ge_zero hint⟩
    refine ⟨_, rfl, ?_, by simp [Op.resultSort], fun h => ?_⟩
    · simp [Op.accepts, Op.resultSort, hcw, sort_of_ofBool hcv, SmtSort.isBool]
    · rw [eval_ite_of hcv (by simp [Op.resultSort]), eval_bitVecConst, eval_bitVecConst, hclamp h,
        maxValue, minValue, hsigned, if_pos rfl, if_pos rfl]
      simp only [decide_eq_true_eq]
      split_ifs <;> rfl
  | false =>
    simp only [hsigned, Bool.false_eq_true, if_false] at hclamp ⊢
    rcases hop with rfl | rfl
    · refine ⟨_, rfl, by simp [Op.accepts], by simp [Op.resultSort], fun h => ?_⟩
      rw [hclamp h, if_pos rfl, eval_bitVecConst, maxValue, hsigned, if_neg (by decide)]
      have hones : t.wrap (-1) = t.wrap (2 ^ t.width - 1) := by
        rw [← BitVec.toNat_inj, ← Int.natCast_inj, IntTy.toNat_wrap, IntTy.toNat_wrap,
          ← Int.add_emod_right, show (-1 : ℤ) + 2 ^ t.width = 2 ^ t.width - 1 by ring]
      exact congrArg ofBV hones
    · refine ⟨_, rfl, by simp [Op.accepts], by simp [Op.resultSort], fun h => ?_⟩
      rw [hclamp h, if_neg (by decide), eval_bitVecConst, minValue, hsigned, if_neg (by decide)]
      rfl

/-- The same for an integer result, where the left operand is an integer or no sign is asked
for. -/
theorem exists_bound_int (hl : Operand ρ t l x) (hy : t.InRange y) (hop : op = .add ∨ op = .sub)
    {result : Expr} (hs : result.sort = .int) (hsign : t.signed = true → l.sort = .int) :
    ∃ bound, saturatingBoundExpr l result op t.signed t.width = some bound ∧ bound.WellSorted ∧
      bound.sort = .int ∧ (¬ t.InRange (exactResult op x y) →
        bound.eval ρ = ofInt (clamp t (exactResult op x y))) := by
  have hclamp := clamp_exactResult hop hl.inRange hy
  rw [saturatingBoundExpr.eq_def, hs, if_neg (by simp [SmtSort.isBitvec, SmtSort.bitvecWidth]),
    if_pos rfl]
  cases hsigned : t.signed with
  | true =>
    simp only [hsigned, if_true] at hclamp ⊢
    have hint : l.eval ρ = ofInt x := hl.value.resolve_left fun hbits => by
      have hsort := (sort_of_ofBV hbits).symm.trans (hsign hsigned)
      cases hsort
    refine ⟨_, rfl, ?_, by simp [Op.resultSort], fun h => ?_⟩
    · simp [Op.accepts, Op.resultSort, sort_of_ofInt hint, hl.wellSorted, SmtSort.isBool]
    · rw [eval_ite_of (eval_ge_zero hint) (by simp [Op.resultSort]), eval_intConst, eval_intConst,
        hclamp h, maxValue, minValue, hsigned, if_pos rfl, if_pos rfl]
      simp only [decide_eq_true_eq]
      split_ifs <;> rfl
  | false =>
    simp only [hsigned, Bool.false_eq_true, if_false] at hclamp ⊢
    rcases hop with rfl | rfl
    · refine ⟨_, rfl, by simp [Op.accepts], by simp [Op.resultSort], fun h => ?_⟩
      rw [hclamp h, if_pos rfl, eval_intConst, maxValue, hsigned, if_neg (by decide)]
    · refine ⟨_, rfl, by simp [Op.accepts], by simp [Op.resultSort], fun h => ?_⟩
      rw [hclamp h, if_neg (by decide), eval_intConst, minValue, hsigned, if_neg (by decide)]

/-- The saturating term is exact where the sign of the left operand, if it is asked for on
integers, is that of an integer. -/
theorem saturating_iff (hl : Operand ρ t l x) (hr : Operand ρ t r y)
    (hop : op = .add ∨ op = .sub) (intLift : Bool) :
    (∃ e, codegenSaturatingArithmetic intLift op l r t.signed t.width = some e ∧
      Yields ρ (t.wrap (clamp t (exactResult op x y))) e) ↔
      ¬ (t.signed = true ∧ intLift = true ∧ l.sort.isBitvec = true ∧ r.sort = .int) := by
  have hmem : op ∈ [.add, .sub, .mul] := by rcases hop with rfl | rfl <;> simp
  by_cases hlift : intLift = true ∧ (l.sort = .int ∨ r.sort = .int)
  · obtain ⟨o, ho, hpair⟩ := exists_lifted hl hr hmem
    have hchecked : checkedBinopResultOverflow op l r t.signed t.width intLift = some o := by
      rw [checkedBinopResultOverflow, if_pos hlift, ho]
    rw [codegenSaturatingArithmetic, hchecked]
    simp only [Option.bind_eq_bind, Option.bind_some]
    have hrs : o.1.sort = .int := sort_of_ofInt hpair.result
    by_cases hbad : t.signed = true ∧ l.sort.isBitvec = true
    · -- the sign of a bit-vector is asked for as an integer's
      refine iff_of_false ?_ ?_
      · rintro ⟨e, he, hw, -⟩
        obtain ⟨w, hw'⟩ := SmtSort.isBitvec_iff.1 hbad.2
        have hbound : saturatingBoundExpr l o.1 op t.signed t.width =
            some (.ite (.intCmp .ge l (.intConst 0)) (.intConst (2 ^ (t.width - 1) - 1))
              (.intConst (-2 ^ (t.width - 1)))) := by
          rw [saturatingBoundExpr.eq_def, hrs, hbad.1, if_neg (by decide), if_pos rfl, if_pos rfl]
        rw [hbound] at he
        obtain rfl := Option.some.inj he
        simp [Op.accepts, Op.resultSort, hw'] at hw
      · refine not_not_intro ⟨hbad.1, hlift.1, hbad.2, hlift.2.resolve_left fun h => ?_⟩
        rw [h] at hbad
        cases hbad.2
    · refine iff_of_true ?_ fun h => hbad ⟨h.1, h.2.2.1⟩
      have hsign : t.signed = true → l.sort = .int := fun hs => by
        refine hl.value.elim (fun hbits => ?_) sort_of_ofInt
        exact absurd ⟨hs, isBitvec_of_bits hbits⟩ hbad
      obtain ⟨bound, hbound, hbw, hbs, hbv⟩ := exists_bound_int hl hr.inRange hop hrs hsign
      rw [hbound]
      refine ⟨_, rfl, ?_, .inr ?_⟩
      · simp [Op.accepts, hpair.flag_wellSorted, hpair.result_wellSorted, hbw, hbs, hrs,
          sort_of_ofBool hpair.flag, SmtSort.isBool]
      · rw [eval_ite_of hpair.flag (hbs.trans hrs.symm), hpair.result,
          IntTy.read_wrap inRange_clamp]
        simp only [decide_eq_true_eq]
        split_ifs with h
        · rw [clamp_of_inRange h]
        · exact hbv h
  · refine iff_of_true ?_ fun h => hlift ⟨h.2.1, .inr h.2.2.2⟩
    obtain ⟨o, ho, hpair⟩ := exists_checked hl hr hmem hlift
    obtain ⟨bound, hbound, hbw, hbs, hbv⟩ := exists_bound_bits hl hr.inRange hop
      (sort_of_ofBV hpair.result)
    rw [codegenSaturatingArithmetic, ho]
    simp only [Option.bind_eq_bind, Option.bind_some, hbound]
    refine ⟨_, rfl, ?_, .inl ?_⟩
    · simp [Op.accepts, hpair.flag_wellSorted, hpair.result_wellSorted, hbw, hbs,
        sort_of_ofBV hpair.result, sort_of_ofBool hpair.flag, SmtSort.isBool]
    · rw [eval_ite_of hpair.flag (hbs.trans (sort_of_ofBV hpair.result).symm), hpair.result]
      simp only [decide_eq_true_eq]
      split_ifs with h
      · rw [clamp_of_inRange h]
      · exact hbv h

/-! ### Overflowing arithmetic -/

/-- The slot of a result: the state variable has the bit-vector sort of the type, or is lifted. -/
def ResultSlot (t : IntTy) (slot : Option SmtSort) : Prop :=
  slot = some (.bitvec t.width) ∨ slot = some .int

/-- The term stands for the flag, in the sort of its slot. -/
def YieldsFlag (ρ : T.Env) (slot : Option SmtSort) (flag : Bool) (e : Expr) : Prop :=
  e.WellSorted ∧ e.eval ρ =
    match slot with
    | some (.bitvec width) => ofBV (BitVec.ofNat width flag.toNat)
    | some .int => ofInt flag.toNat
    | _ => ofBool flag

theorem yieldsFlag_reshape {e : Expr} {flag : Bool} (slot : Option SmtSort) (hw : e.WellSorted)
    (he : e.eval ρ = ofBool flag) :
    YieldsFlag ρ slot flag (reshapeFlattenedBoolFieldForCall slot e) := by
  have hs := sort_of_ofBool he
  unfold reshapeFlattenedBoolFieldForCall YieldsFlag
  split
  · refine ⟨by simp [Op.accepts, Op.resultSort, hw, hs, SmtSort.isBool], ?_⟩
    rw [eval_ite_of he (by simp [Op.resultSort]), eval_bitVecConst, eval_bitVecConst]
    cases flag <;> rfl
  · refine ⟨by simp [Op.accepts, Op.resultSort, hw, hs, SmtSort.isBool], ?_⟩
    rw [eval_ite_of he (by simp [Op.resultSort]), eval_intConst, eval_intConst]
    cases flag <;> rfl
  · exact ⟨hw, he⟩

/-- A slot that is not an empty bit-vector tells the two flags apart. -/
theorem yieldsFlag_unique {slot : Option SmtSort} (hslot : slot ≠ some (.bitvec 0)) {e : Expr}
    {a b : Bool} (ha : YieldsFlag ρ slot a e) (hb : YieldsFlag ρ slot b e) : a = b := by
  have heq := ha.2.symm.trans hb.2
  have hinj : ∀ {c d : Bool}, c.toNat = d.toNat → c = d := by decide
  split at heq
  case h_1 w =>
    have hw : 0 < w := Nat.pos_of_ne_zero fun h => hslot (h ▸ rfl)
    have hlt : ∀ c : Bool, c.toNat < 2 ^ w := fun c =>
      (Bool.toNat_lt c).trans_le (by simpa using Nat.pow_le_pow_right (n := 2) (by decide) hw)
    have htoNat := congrArg BitVec.toNat (ofBV_inj.1 heq)
    rw [BitVec.toNat_ofNat, BitVec.toNat_ofNat, Nat.mod_eq_of_lt (hlt a),
      Nat.mod_eq_of_lt (hlt b)] at htoNat
    exact hinj htoNat
  case h_2 => exact hinj (Int.natCast_inj.1 (ofInt_inj.1 heq))
  case h_3 => exact ofBool_inj.1 heq

/-- A bit-vector result keeps its value in the slot. -/
theorem yields_reshape {slot : Option SmtSort} (hslot : ResultSlot t slot) {e : Expr}
    {v : BitVec t.width} (hw : e.WellSorted) (he : e.eval ρ = ofBV v) :
    Yields ρ v (reshapeFlattenedResultField slot e t.signed) := by
  have hs := sort_of_ofBV he
  rcases hslot with rfl | rfl
  · rw [reshapeFlattenedResultField, if_pos hs]
    exact ⟨hw, .inl he⟩
  · rw [reshapeFlattenedResultField, if_neg (by simp [hs]),
      if_pos ⟨rfl, SmtSort.isBitvec_iff.2 ⟨_, hs⟩⟩]
    exact ⟨wellSorted_bvToInt t.signed t.width_pos hw hs,
      .inr (eval_bvToInt_of t.signed t.width_pos he)⟩

/-- An integer result is left as it is. -/
theorem reshape_of_int {slot : Option SmtSort} (hslot : ResultSlot t slot) {e : Expr} {z : ℤ}
    (he : e.eval ρ = ofInt z) (isSigned : Bool) :
    reshapeFlattenedResultField slot e isSigned = e := by
  have hs := sort_of_ofInt he
  rcases hslot with rfl | rfl
  · rw [reshapeFlattenedResultField, if_neg (by simp [hs]), if_neg (by simp),
      if_neg fun h => isBitvec_of_int he h.1]
  · rw [reshapeFlattenedResultField, if_pos hs]

/-- Result and flag are exact where the operands are bit-vectors or the exact result is in
range. -/
theorem overflowing_iff (hl : Operand ρ t l x) (hr : Operand ρ t r y)
    (hop : op ∈ [.add, .sub, .mul]) {resultSlot : Option SmtSort} (hslot : ResultSlot t resultSlot)
    (flagSlot : Option SmtSort) (intLift : Bool) :
    (∃ e, codegenOverflowingArithmetic resultSlot flagSlot intLift op l r t.signed t.width =
        some e ∧ Yields ρ (t.wrap (exactResult op x y)) e.1 ∧
      YieldsFlag ρ flagSlot (decide (¬ t.InRange (exactResult op x y))) e.2) ↔
      (intLift = true ∧ (l.sort = .int ∨ r.sort = .int) → t.InRange (exactResult op x y)) := by
  by_cases hlift : intLift = true ∧ (l.sort = .int ∨ r.sort = .int)
  · obtain ⟨o, ho, hpair⟩ := exists_lifted hl hr hop
    have hterms : codegenOverflowingArithmetic resultSlot flagSlot intLift op l r t.signed t.width =
        some (o.1, reshapeFlattenedBoolFieldForCall flagSlot o.2) := by
      rw [codegenOverflowingArithmetic, checkedBinopResultOverflow, if_pos hlift, ho]
      simp only [Option.bind_eq_bind, Option.bind_some, reshape_of_int hslot hpair.result]
      rfl
    rw [hterms]
    simp only [Option.some.injEq, exists_eq_left', hlift, and_self, true_imp_iff]
    rw [and_iff_left (yieldsFlag_reshape flagSlot hpair.flag_wellSorted hpair.flag), Yields,
      and_iff_right hpair.result_wellSorted, denoted_int_ofInt hpair.result, eq_comm,
      IntTy.read_wrap_eq_iff]
  · refine iff_of_true ?_ fun h => absurd h hlift
    obtain ⟨o, ho, hpair⟩ := exists_checked hl hr hop hlift
    rw [codegenOverflowingArithmetic, ho]
    exact ⟨_, rfl, yields_reshape hslot hpair.result_wellSorted hpair.result,
      yieldsFlag_reshape flagSlot hpair.flag_wellSorted hpair.flag⟩

/-! ### An unsigned and a signed operand -/

/-- The carry of an addition, corrected by the sign, says whether the sum leaves the range. -/
theorem carry_ne_sign {V : ℕ} (a b : BitVec V) :
    (!decide (BvCmp.ult.denote (a + b) a = BvCmp.slt.denote b (BitVec.ofNat V 0))) =
      decide (¬ (0 ≤ (a.toNat : ℤ) + b.toInt ∧ (a.toNat : ℤ) + b.toInt < 2 ^ V)) := by
  have ha := a.isLt
  have hb := b.isLt
  have hpow : ((2 ^ V : ℕ) : ℤ) = 2 ^ V := by push_cast; rfl
  have hint := BitVec.toInt_eq_toNat_cond b
  have hult : BvCmp.ult.denote (a + b) a = decide ((a.toNat + b.toNat) % 2 ^ V < a.toNat) := by
    rw [BvCmp.denote, BitVec.ult, BitVec.toNat_add]
  have hslt : BvCmp.slt.denote b (BitVec.ofNat V 0) = decide (b.toInt < 0) := by
    rw [BvCmp.denote, BitVec.slt]
    simp
  -- the sum wraps at most once
  have hmod : (a.toNat + b.toNat) % 2 ^ V =
      if a.toNat + b.toNat < 2 ^ V then a.toNat + b.toNat else a.toNat + b.toNat - 2 ^ V := by
    split_ifs with h
    · exact Nat.mod_eq_of_lt h
    · rw [Nat.mod_eq_sub_mod (not_lt.1 h), Nat.mod_eq_of_lt (by omega)]
  rw [hult, hslt, hmod, ← hpow, Bool.eq_iff_iff]
  simp only [Bool.not_eq_true', decide_eq_false_iff_not, decide_eq_true_eq, decide_eq_decide]
  split_ifs at hint ⊢ <;> omega

theorem wellSorted_coerceBitvecWidthSafe {e : Expr} {w V : ℕ} (hw : e.WellSorted)
    (hs : e.sort = .bitvec w) (hV : 0 < V) (ext : SignExtension) :
    (coerceBitvecWidthSafe e V ext).WellSorted := by
  simp only [coerceBitvecWidthSafe, hs, SmtSort.bitvecWidth]
  split_ifs with heq hlt
  · exact hw
  · cases ext <;> simp [SignExtension.extend, Op.accepts, hs, hw, SmtSort.isBitvec,
      SmtSort.bitvecWidth]
  · simp [Op.accepts, hs, hw, SmtSort.isBitvec, SmtSort.bitvecWidth]
    omega

section Widened

variable {e : Expr} {w V : ℕ} {a : BitVec w}

/-- Zeros keep the number. -/
theorem exists_zeroExtended (he : e.eval ρ = ofBV a) (hV : 0 < V) (hle : w ≤ V) :
    ∃ d : BitVec V, (coerceBitvecWidthSafe e V .zeroExtend).eval ρ = ofBV d ∧
      d.toNat = a.toNat := by
  obtain ⟨d, hd, hnat⟩ := eval_coerceBitvecWidthSafe_of .zeroExtend hV he
  have hlt : (a.toNat : ℤ) < 2 ^ V := by
    exact_mod_cast a.isLt.trans_le (Nat.pow_le_pow_right (by decide) hle)
  have hread : readAs (SignExtension.zeroExtend == .signExtend) a = a.toNat := rfl
  rw [hread, Int.emod_eq_of_lt (by omega) hlt] at hnat
  exact ⟨d, hd, by exact_mod_cast hnat⟩

/-- Copies of the sign keep the integer. -/
theorem exists_signExtended (he : e.eval ρ = ofBV a) (hV : 0 < V) (hle : w ≤ V) :
    ∃ d : BitVec V, (coerceBitvecWidthSafe e V .signExtend).eval ρ = ofBV d ∧
      d.toInt = a.toInt := by
  obtain ⟨d, hd, hnat⟩ := eval_coerceBitvecWidthSafe_of .signExtend hV he
  have hread : readAs (SignExtension.signExtend == .signExtend) a = a.toInt := rfl
  refine ⟨d, hd, ?_⟩
  rw [hread] at hnat
  have hext := BitVec.toInt_signExtend_of_le (v := V) (x := a) hle
  have hpow : (2 : ℤ) ^ V = ((2 ^ V : ℕ) : ℤ) := by push_cast; rfl
  rw [BitVec.toInt_eq_toNat_bmod, hnat, ← hext, hpow, Int.emod_bmod, BitVec.toInt_bmod_cancel]

end Widened

/-- The width an operand has as a bit-vector, where a lifted one is read at 64 bits. -/
def operandWidth (t : IntTy) (e : Expr) : ℕ := if e.sort = .int then 64 else t.width

/-- An unsigned operand as a bit-vector. -/
theorem exists_unsigned_bits (he : Operand ρ t l x) (hs : t.signed = false)
    (hle : l.sort = .int → t.width ≤ 64) :
    ∃ a : BitVec (operandWidth t l), (if l.sort = .int then int2bv 64 l else l).WellSorted ∧
      (if l.sort = .int then int2bv 64 l else l).eval ρ = ofBV a ∧ (a.toNat : ℤ) = x := by
  rcases he.value with hbits | hint
  · have hsort : ¬ l.sort = .int := by simp [sort_of_ofBV hbits]
    rw [operandWidth, if_neg hsort, if_neg hsort]
    exact ⟨_, he.wellSorted, hbits, IntTy.toNat_wrap_of_unsigned hs he.inRange⟩
  · have hsort := sort_of_ofInt hint
    have hpow : (2 : ℤ) ^ t.width ≤ 2 ^ 64 := pow_le_pow_right₀ (by omega) (hle hsort)
    rw [operandWidth, if_pos hsort, if_pos hsort]
    refine ⟨_, by simp [int2bv, Op.accepts, hsort, he.wellSorted], eval_int2bv_of hint, ?_⟩
    let u64 : IntTy := ⟨false, 64, by decide⟩
    exact IntTy.toNat_wrap_of_unsigned (t := u64) rfl
      (inRange_of_width_le (u := u64) he.inRange hs (hle hsort))

/-- A signed operand as a bit-vector. -/
theorem exists_signed_bits (he : Operand ρ t l x) (hs : t.signed = true)
    (hle : l.sort = .int → t.width ≤ 64) :
    ∃ a : BitVec (operandWidth t l), (if l.sort = .int then int2bv 64 l else l).WellSorted ∧
      (if l.sort = .int then int2bv 64 l else l).eval ρ = ofBV a ∧ a.toInt = x := by
  rcases he.value with hbits | hint
  · have hsort : ¬ l.sort = .int := by simp [sort_of_ofBV hbits]
    rw [operandWidth, if_neg hsort, if_neg hsort]
    exact ⟨_, he.wellSorted, hbits, IntTy.toInt_wrap hs he.inRange⟩
  · have hsort := sort_of_ofInt hint
    rw [operandWidth, if_pos hsort, if_pos hsort]
    refine ⟨_, by simp [int2bv, Op.accepts, hsort, he.wellSorted], eval_int2bv_of hint, ?_⟩
    let i64 : IntTy := ⟨true, 64, by decide⟩
    exact IntTy.toInt_wrap (t := i64) rfl
      (inRange_of_width_le (u := i64) he.inRange hs (hle hsort))

variable {u : IntTy}

/-- The sum is computed at the larger width of the two bit-vectors. -/
theorem exists_addSigned (hl : Operand ρ t l x) (hr : Operand ρ u r y) (ht : t.signed = false)
    (hu : u.signed = true) (hwidth : u.width = t.width)
    (hlift : l.sort = .int ∨ r.sort = .int → t.width < 128) :
    ∃ (V : ℕ) (s : BitVec V) (o : Expr × Expr),
      V = (if l.sort = .int ∨ r.sort = .int then 64 else t.width) ∧ t.width ≤ V ∧
      (∀ resultSlot flagSlot, codegenOverflowingAddSigned none resultSlot flagSlot l r =
        some (reshapeFlattenedResultField resultSlot o.1 false,
          reshapeFlattenedBoolFieldForCall flagSlot o.2)) ∧
      (s.toNat : ℤ) = (x + y) % 2 ^ V ∧
      YieldsPair ρ o (ofBV s) (decide (¬ (0 ≤ x + y ∧ x + y < 2 ^ V))) := by
  have hnarrow : l.sort = .int ∨ r.sort = .int → t.width ≤ 64 := fun h => by
    have hlt := hlift h
    rcases t.width_cases with hw | hw | hw | hw | hw <;> omega
  obtain ⟨a, haw, ha, hax⟩ := exists_unsigned_bits hl ht fun h => hnarrow (.inl h)
  obtain ⟨b, hbw, hb, hby⟩ := exists_signed_bits hr hu fun h => hwidth ▸ hnarrow (.inr h)
  set l' := if l.sort = .int then int2bv 64 l else l with hl'
  set r' := if r.sort = .int then int2bv 64 r else r with hr'
  set V := max (operandWidth t l) (operandWidth u r) with hV
  have hVeq : V = if l.sort = .int ∨ r.sort = .int then 64 else t.width := by
    rw [hV, operandWidth, operandWidth, hwidth]
    by_cases hli : l.sort = .int
    · have hle := hnarrow (.inl hli)
      rw [if_pos hli, if_pos (Or.inl hli)]
      split_ifs
      · exact max_self _
      · exact max_eq_left hle
    · rw [if_neg hli]
      by_cases hri : r.sort = .int
      · have hle := hnarrow (.inr hri)
        rw [if_pos hri, if_pos (Or.inr hri), max_eq_right hle]
      · rw [if_neg hri, if_neg (not_or.2 ⟨hli, hri⟩), max_self]
  have hVpos : 0 < V := by
    have hpos := t.width_pos
    rw [hVeq]
    split_ifs <;> omega
  obtain ⟨d, hd, hda⟩ := exists_zeroExtended ha hVpos (le_max_left _ _)
  obtain ⟨f, hf, hfb⟩ := exists_signExtended hb hVpos (le_max_right _ _)
  have hls := sort_of_ofBV ha
  have hrs := sort_of_ofBV hb
  have hdw := wellSorted_coerceBitvecWidthSafe haw hls hVpos .zeroExtend
  have hfw := wellSorted_coerceBitvecWidthSafe hbw hrs hVpos .signExtend
  set le := coerceBitvecWidthSafe l' V .zeroExtend
  set re := coerceBitvecWidthSafe r' V .signExtend
  have hpair : addSignedOperands none l r = (l', r') := by
    rw [addSignedOperands]
    by_cases h : l.sort = .int ∨ r.sort = .int
    · rw [if_pos h]
      rfl
    · rw [if_neg h, hl', hr', if_neg fun h' => h (.inl h'), if_neg fun h' => h (.inr h')]
  have hsum := eval_bv_of (f := .add) hd hf
  have hcarry := eval_bvCmp_of (f := .ult) hsum hd
  have hsign := eval_bvCmp_of (f := .slt) hf (eval_bitVecConst (ρ := ρ) (BitVec.ofNat V 0))
  have hflag := eval_not_of (eval_eq_of hcarry hsign)
  refine ⟨V, d + f, (.bv .add le re, .not (.eq (.bvCmp .ult (.bv .add le re) le)
    (.bvCmp .slt re (.bitVecConst (BitVec.ofNat V 0))))), ?_, ?_, fun resultSlot flagSlot => ?_,
    ?_, ?_, ?_, hsum, ?_⟩
  · exact hVeq
  · rw [hVeq]
    split_ifs with h
    · exact hnarrow h
    · exact le_rfl
  · rw [codegenOverflowingAddSigned, hpair]
    dsimp only
    rw [if_neg (by simp [hls, hrs, SmtSort.isBitvec, SmtSort.bitvecWidth]), hls, hrs]
    rfl
  · rw [BitVec.toNat_add, ← hax, ← hda, ← hby, ← hfb, BitVec.toInt_eq_toNat_cond]
    push_cast
    split_ifs
    · rfl
    · rw [← add_sub_assoc, Int.sub_emod_right]
  · simp [Op.accepts, sort_of_ofBV hd, sort_of_ofBV hf, hdw, hfw, SmtSort.isBitvec,
      SmtSort.bitvecWidth]
  · simp [Op.accepts, Op.resultSort, sort_of_ofBV hd, sort_of_ofBV hf, hdw, hfw,
      SmtSort.isBitvec, SmtSort.bitvecWidth]
  · have hcmp := carry_ne_sign d f
    rw [hda, hax, hfb, hby] at hcmp
    rw [hflag, ← hcmp]
    simp only [ofBool_inj]
    rfl

/-- In a bit-vector slot the sum is cut to the width of the type, in a lifted one it is kept as
it is. -/
theorem yields_reshape_sum_iff (ht : t.signed = false) {slot : Option SmtSort}
    (hslot : ResultSlot t slot) {V : ℕ} (hle : t.width ≤ V) {e : Expr} {s : BitVec V} {z : ℤ}
    (hw : e.WellSorted) (he : e.eval ρ = ofBV s) (hs : (s.toNat : ℤ) = z % 2 ^ V) :
    Yields ρ (t.wrap z) (reshapeFlattenedResultField slot e false) ↔
      (slot = some .int → z % 2 ^ V = z % 2 ^ t.width) := by
  have hsort := sort_of_ofBV he
  rcases hslot with rfl | rfl
  · refine iff_of_true ?_ (by simp)
    have hval : ∀ d : BitVec t.width, (d.toNat : ℤ) = z % 2 ^ t.width → d = t.wrap z := by
      intro d hd
      rw [← BitVec.toNat_inj, ← Int.natCast_inj, hd, IntTy.toNat_wrap]
    by_cases heq : V = t.width
    · subst heq
      rw [reshapeFlattenedResultField, if_pos hsort]
      exact ⟨hw, .inl (he.trans (congrArg ofBV (hval s hs)))⟩
    · rw [reshapeFlattenedResultField, if_neg (by simpa [hsort] using heq), if_neg (by simp),
        if_pos (by simp [hsort, SmtSort.isBitvec, SmtSort.bitvecWidth])]
      refine ⟨wellSorted_coerceBitvecWidthSafe hw hsort t.width_pos _, .inl ?_⟩
      obtain ⟨d, hd, hnat⟩ := eval_coerceBitvecWidthSafe_of .zeroExtend t.width_pos he
      have hread : readAs (SignExtension.zeroExtend == .signExtend) s = s.toNat := rfl
      rw [hread, hs, Int.emod_emod_of_dvd _ (pow_dvd_pow 2 hle)] at hnat
      exact hd.trans (congrArg ofBV (hval d hnat))
  · have hV : 0 < V := t.width_pos.trans_le hle
    have hbv : e.sort.isBitvec = true := SmtSort.isBitvec_iff.2 ⟨V, hsort⟩
    have hread : readAs false s = s.toNat := rfl
    rw [reshapeFlattenedResultField, if_neg (by simp [hsort]), if_pos ⟨rfl, hbv⟩, Yields,
      and_iff_right (wellSorted_bvToInt false hV hw hsort),
      denoted_int_ofInt (eval_bvToInt_of false hV he), hread, hs, IntTy.read, ht,
      if_neg (by decide), IntTy.toNat_wrap]
    exact ⟨fun h _ => h, fun h => h rfl⟩

/-- A sum added at a width beyond its own. -/
theorem widened_sum_iff {w V : ℕ} (hlt : w < V) {z : ℤ} (hlo : -2 ^ w ≤ z) (hhi : z < 2 ^ V)
    {p q : Prop} (hpq : p ↔ ¬ q) :
    ((p → z % 2 ^ V = z % 2 ^ w) ∧ ((0 ≤ z ∧ z < 2 ^ V) ↔ (0 ≤ z ∧ z < 2 ^ w))) ↔
      (0 ≤ z ∧ z < 2 ^ w) ∨ (z < 0 ∧ q) := by
  have hpow : (2 : ℤ) ^ w < 2 ^ V := pow_lt_pow_right₀ (by omega) hlt
  rcases lt_or_ge z 0 with hneg | hnonneg
  · -- a negative sum wraps at the width it is added at
    have hV : z % 2 ^ V = z + 2 ^ V := by
      rw [← Int.add_emod_right, Int.emod_eq_of_lt (by omega) (by omega)]
    have hw : z % 2 ^ w = z + 2 ^ w := by
      rw [← Int.add_emod_right, Int.emod_eq_of_lt (by omega) (by omega)]
    have hne : ¬ z % 2 ^ V = z % 2 ^ w := by omega
    simp only [hne, imp_false, hpq, not_not, not_le.2 hneg, false_and, iff_self, and_true,
      false_or, hneg, true_and]
  · have hin : z < 2 ^ w → z % 2 ^ V = z % 2 ^ w := fun h => by
      rw [Int.emod_eq_of_lt hnonneg hhi, Int.emod_eq_of_lt hnonneg h]
    simp only [hnonneg, hhi, true_and, true_iff, not_lt.2 hnonneg, false_and, or_false]
    exact ⟨fun h => h.2, fun h => ⟨fun _ => hin h, h⟩⟩

/-- Sum and flag are exact except where lifted operands are narrower than a pointer: the carry
out of the type is then no carry, and a negative sum is kept at the width of a pointer. -/
theorem overflowing_add_signed_iff (hl : Operand ρ t l x) (hr : Operand ρ u r y)
    (ht : t.signed = false) (hu : u.signed = true) (hwidth : u.width = t.width)
    (hlift : l.sort = .int ∨ r.sort = .int → t.width < 128) {resultSlot : Option SmtSort}
    (hslot : ResultSlot t resultSlot) {flagSlot : Option SmtSort}
    (hflag : flagSlot ≠ some (.bitvec 0)) :
    (∃ e, codegenOverflowingAddSigned none resultSlot flagSlot l r = some e ∧
      Yields ρ (t.wrap (x + y)) e.1 ∧ YieldsFlag ρ flagSlot (decide (¬ t.InRange (x + y))) e.2) ↔
      (l.sort = .int ∨ r.sort = .int → t.width = 64 ∨ t.InRange (x + y) ∨
        (x + y < 0 ∧ resultSlot = some (.bitvec t.width))) := by
  obtain ⟨V, s, o, hV, hle, hterms, hs, hpair⟩ := exists_addSigned hl hr ht hu hwidth hlift
  have hflagIff : YieldsFlag ρ flagSlot (decide (¬ t.InRange (x + y)))
      (reshapeFlattenedBoolFieldForCall flagSlot o.2) ↔
      ((0 ≤ x + y ∧ x + y < 2 ^ V) ↔ t.InRange (x + y)) := by
    have hyields := yieldsFlag_reshape flagSlot hpair.flag_wellSorted hpair.flag
    refine ⟨fun h => ?_, fun h => ?_⟩
    · exact not_iff_not.1 (decide_eq_decide.1 (yieldsFlag_unique hflag hyields h))
    · simpa only [h] using hyields
  simp only [hterms, Option.some.injEq, exists_eq_left']
  rw [yields_reshape_sum_iff ht hslot hle hpair.result_wellSorted hpair.result hs, hflagIff]
  have hx := hl.inRange
  have hy := hr.inRange
  rw [IntTy.InRange, ht, if_neg (by decide)] at hx ⊢
  rw [IntTy.InRange, hu, if_pos rfl, hwidth] at hy
  by_cases h : l.sort = .int ∨ r.sort = .int
  · rw [if_pos h] at hV
    subst hV
    rw [forall_prop_of_true h]
    have hslots : resultSlot = some .int ↔ ¬ resultSlot = some (.bitvec t.width) := by
      rcases hslot with rfl | rfl <;> simp
    by_cases hw : t.width = 64
    · simp [hw]
    · have hlt : t.width < 64 := lt_of_le_of_ne hle hw
      have hhalf : (2 : ℤ) ^ t.width = 2 * 2 ^ (t.width - 1) := by
        rw [← pow_succ', Nat.sub_add_cancel t.width_pos]
      have hdouble : (2 : ℤ) * 2 ^ t.width ≤ 2 ^ 64 := by
        rw [← pow_succ']
        exact pow_le_pow_right₀ (by omega) hlt
      rw [widened_sum_iff hlt (by omega) (by omega) hslots]
      simp [hw]
  · rw [if_neg h] at hV
    subst hV
    simp [h]

/-! ### All calls -/

/-- When the terms of the calls stand for what Rust computes, for every type, every values and
every mix of operands: a sign has to be asked of an operand of the result's sort, a result to be
in range unless it is reduced, and a carry to be one of the type. -/
theorem overflow_calls_exact_iff (hl : Operand ρ t l x) (intLift : Bool)
    {resultSlot : Option SmtSort} (hslot : ResultSlot t resultSlot) {flagSlot : Option SmtSort}
    (hflag : flagSlot ≠ some (.bitvec 0)) :
    (Operand ρ t r y → ∀ op : BinOp, op = .add ∨ op = .sub →
      ((∃ e, codegenSaturatingArithmetic intLift op l r t.signed t.width = some e ∧
          Yields ρ (t.wrap (clamp t (exactResult op x y))) e) ↔
        ¬ (t.signed = true ∧ intLift = true ∧ l.sort.isBitvec = true ∧ r.sort = .int))) ∧
      (Operand ρ t r y → ∀ op ∈ [BinOp.add, .sub, .mul],
        ((∃ e, codegenOverflowingArithmetic resultSlot flagSlot intLift op l r t.signed t.width =
            some e ∧ Yields ρ (t.wrap (exactResult op x y)) e.1 ∧
            YieldsFlag ρ flagSlot (decide (¬ t.InRange (exactResult op x y))) e.2) ↔
          (intLift = true ∧ (l.sort = .int ∨ r.sort = .int) → t.InRange (exactResult op x y)))) ∧
      (Operand ρ u r y → t.signed = false → u.signed = true → u.width = t.width →
        -- types of 128 bits are not lifted
        (l.sort = .int ∨ r.sort = .int → t.width < 128) →
          ((∃ e, codegenOverflowingAddSigned none resultSlot flagSlot l r = some e ∧
              Yields ρ (t.wrap (x + y)) e.1 ∧
              YieldsFlag ρ flagSlot (decide (¬ t.InRange (x + y))) e.2) ↔
            (l.sort = .int ∨ r.sort = .int → t.width = 64 ∨ t.InRange (x + y) ∨
              (x + y < 0 ∧ resultSlot = some (.bitvec t.width))))) :=
  ⟨fun hr _ hop => saturating_iff hl hr hop intLift,
    fun hr _ hop => overflowing_iff hl hr hop hslot flagSlot intLift,
    fun hr ht hu hwidth hlift => overflowing_add_signed_iff hl hr ht hu hwidth hlift hslot hflag⟩

/-- An environment where the lifted local is an integer. -/
noncomputable def liftedEnv (T : Theory) (z : ℤ) : T.Env := Theory.Env.ofVals fun _ => ofInt z

theorem operand_liftedEnv (T : Theory) {z : ℤ} (hz : t.InRange z) :
    Operand (liftedEnv T z) t lifted z :=
  ⟨trivial, hz, .inr (eval_var_ofVals rfl)⟩

/-- `i8`. -/
def i8 : IntTy := ⟨true, 8, IntTy.eight_mem_widths⟩

/-- The lifted byte 200 and the byte 100: their sum saturates, but is neither reduced nor known
to overflow as a sum with a signed operand. -/
theorem overflow_calls_exact_iff_liftedByte :
    (∃ e, codegenSaturatingArithmetic true .add lifted (.bitVecConst 100#8) false 8 = some e ∧
        Yields (t := u8) (liftedEnv default 200) 255#8 e) ∧
      (¬ ∃ e, codegenOverflowingArithmetic (some .int) none true .add lifted (.bitVecConst 100#8)
          false 8 = some e ∧ Yields (t := u8) (liftedEnv default 200) 44#8 e.1 ∧
          YieldsFlag (liftedEnv default 200) none true e.2) ∧
      ¬ ∃ e, codegenOverflowingAddSigned none (some .int) none lifted (.bitVecConst 100#8) =
          some e ∧ Yields (t := u8) (liftedEnv default 200) 44#8 e.1 ∧
          YieldsFlag (liftedEnv default 200) none true e.2 := by
  have hl : Operand (liftedEnv default 200) u8 lifted 200 := operand_liftedEnv default (by decide)
  have hr : Operand (liftedEnv default 200) u8 (.bitVecConst 100#8) 100 :=
    operand_const (t := u8) (z := 100) (by decide)
  have hrs : Operand (liftedEnv default 200) i8 (.bitVecConst 100#8) 100 :=
    operand_const (t := i8) (z := 100) (by decide)
  have hslot : ResultSlot u8 (some .int) := .inr rfl
  have hflag : none ≠ some (SmtSort.bitvec 0) := by decide
  refine ⟨?_, ?_, ?_⟩
  · exact ((overflow_calls_exact_iff (u := i8) hl true hslot hflag).1 hr .add (.inl rfl)).2
      (by simp [u8])
  · intro h
    have hin := ((overflow_calls_exact_iff (u := i8) hl true hslot hflag).2.1 hr .add
      (by decide)).1 h ⟨rfl, .inl rfl⟩
    exact absurd hin (by decide)
  · intro h
    have hin := ((overflow_calls_exact_iff hl true hslot hflag).2.2 hrs rfl rfl rfl
      fun _ => by decide).1 h (.inl rfl)
    exact absurd hin (by decide)

/-- `overflowing_add` of the lifted byte 200 and the byte 100 yields 300, which stands for no
byte; `saturating_add` of a signed byte and a lifted one yields no well-sorted term. -/
theorem lifted_sum_unreduced :
    (∃ e, codegenOverflowingArithmetic (some .int) none true .add lifted (.bitVecConst 100#8)
        false 8 = some e ∧ e.1.eval (liftedEnv default 200) = ofInt 300 ∧
        ¬ Yields (t := u8) (liftedEnv default 200) (u8.wrap (200 + 100)) e.1) ∧
      ¬ ∃ e, codegenSaturatingArithmetic true .add (.bitVecConst 100#8) lifted true 8 = some e ∧
        Yields (t := i8) (liftedEnv default 100) (i8.wrap (clamp i8 (100 + 100))) e := by
  have hl : Operand (liftedEnv default 200) u8 lifted 200 := operand_liftedEnv default (by decide)
  have hr : Operand (liftedEnv default 200) u8 (.bitVecConst 100#8) 100 :=
    operand_const (t := u8) (z := 100) (by decide)
  refine ⟨?_, ?_⟩
  · obtain ⟨o, ho, hpair⟩ := exists_lifted hl hr (show BinOp.add ∈ [.add, .sub, .mul] by decide)
    have hslot : ResultSlot u8 (some .int) := .inr rfl
    refine ⟨(o.1, reshapeFlattenedBoolFieldForCall none o.2), ?_, hpair.result, fun h => ?_⟩
    · have hchecked : checkedBinopResultOverflow .add lifted (.bitVecConst 100#8) false 8 true =
          some o := by
        rw [checkedBinopResultOverflow, if_pos ⟨rfl, .inl rfl⟩]
        exact ho
      rw [codegenOverflowingArithmetic, hchecked]
      exact congrArg some (Prod.ext (reshape_of_int hslot hpair.result false) rfl)
    · exact absurd ((denoted_int_ofInt hpair.result).1 h.2) (by decide)
  · have hsigned : Operand (liftedEnv default 100) i8 (.bitVecConst 100#8) 100 :=
      operand_const (t := i8) (z := 100) (by decide)
    have hlifted : Operand (liftedEnv default 100) i8 lifted 100 :=
      operand_liftedEnv default (by decide)
    refine fun h => (saturating_iff hsigned hlifted (.inl rfl) true).1 h ⟨rfl, rfl, ?_, rfl⟩
    simp [Op.resultSort, SmtSort.isBitvec, SmtSort.bitvecWidth]

end Arithmetic

end TrustMc
