import TrustMc.Arithmetic.Exact

/-!
# Where the checked operators are encoded exactly

`checkedBinopResultOverflow` on operands that are bit-vectors or lifted integers: the terms
stand for the wrapped result and the overflow flag exactly on the inputs of
`BinOp.ExactChecked` (`checkedBinopResultOverflow_encoded_iff`).
-/

namespace TrustMc

namespace Arithmetic

open Machine Carriers Carriers.Val TrustMc.Expr

variable {T : Theory} {ρ : T.Env} {t u : IntTy} {l r e : Expr} {x y : ℤ} {op : BinOp}

/-! ### Constants -/

theorem toNat_eq_of_ofBV_eq {w w' : ℕ} {a : BitVec w} {b : BitVec w'}
    (h : (ofBV a : T.Val) = ofBV b) : a.toNat = b.toNat := by
  have hsort := congrArg Sigma.fst h
  rw [fst_ofBV, fst_ofBV] at hsort
  injection hsort with hw
  subst hw
  rw [ofBV_inj.1 h]

theorem toNat_extractLsb_append {w w' : ℕ} (a : BitVec w) (b : BitVec w') (high low : ℕ) :
    ((a ++ b).extractLsb high low).toNat =
      (a.toNat * 2 ^ w' + b.toNat) / 2 ^ low % 2 ^ (high - low + 1) := by
  rw [BitVec.extractLsb_toNat, BitVec.toNat_append, ← Nat.shiftLeft_add_eq_or_of_lt b.isLt,
    Nat.shiftLeft_eq, Nat.shiftRight_eq_div_pow]

theorem eval_concat_of {w w' : ℕ} {a : BitVec w} {b : BitVec w'} (hl : l.eval ρ = ofBV a)
    (hr : r.eval ρ = ofBV b) : (app .bvConcat [l, r]).eval ρ = ofBV (a ++ b) := by
  rw [eval_bvConcat (sort_of_ofBV hl) (sort_of_ofBV hr), bits_of_ofBV hl, bits_of_ofBV hr]

theorem exists_ofBV_of_isBitvec (h : e.sort.isBitvec = true) :
    ∃ (w : ℕ) (b : BitVec w), e.sort = .bitvec w ∧ e.eval ρ = ofBV b := by
  obtain ⟨w, hw⟩ : ∃ w, e.sort = .bitvec w := by
    cases hs : e.sort <;> simp [hs, SmtSort.isBitvec, SmtSort.bitvecWidth] at h ⊢
  exact ⟨w, bits w e ρ, hw, eval_eq_ofBV_bits hw⟩

/-- The parts of a concatenation under an extract. -/
theorem exists_parts {high low : ℕ}
    (hw : (app (.bvExtract high low) [app .bvConcat [l, r]]).WellSorted) :
    ∃ (n₁ : ℕ) (a : BitVec n₁) (n₂ : ℕ) (b : BitVec n₂), l.sort = .bitvec n₁ ∧
      r.sort = .bitvec n₂ ∧ l.eval ρ = ofBV a ∧ r.eval ρ = ofBV b ∧ l.WellSorted ∧
        r.WellSorted := by
  have hconcat := (wellSorted_app.1 hw).2 _ (List.mem_singleton_self _)
  obtain ⟨hacc, hargs⟩ := wellSorted_app.1 hconcat
  simp only [List.map_cons, List.map_nil, Op.accepts, Bool.and_eq_true] at hacc
  obtain ⟨n₁, a, ha, hav⟩ := exists_ofBV_of_isBitvec (ρ := ρ) hacc.1
  obtain ⟨n₂, b, hb, hbv⟩ := exists_ofBV_of_isBitvec (ρ := ρ) hacc.2
  exact ⟨n₁, a, n₂, b, ha, hb, hav, hbv, hargs l (by simp), hargs r (by simp)⟩

/-- The constant that is read off a term is its value. -/
theorem tryExtractConcreteUsize_sound {n : ℕ} : e.WellSorted → ∀ {w : ℕ} {z : BitVec w},
    e.eval ρ = ofBV z → tryExtractConcreteUsize e = some n → n = z.toNat := by
  induction e using tryExtractConcreteUsize.induct with
  | case1 w b hlt =>
    -- a constant
    intro _ w' z hv h
    rw [tryExtractConcreteUsize, if_pos hlt] at h
    injection h with h
    rw [eval_bitVecConst] at hv
    rw [← h, toNat_eq_of_ofBV_eq hv]
  | case3 high low w b hi hlt =>
    -- a part of a constant
    intro _ w' z hv h
    rw [tryExtractConcreteUsize] at h
    simp only [hlt, hi, if_true, Option.some.injEq] at h
    rw [eval_extract_of (eval_bitVecConst b)] at hv
    rw [← h, ← toNat_eq_of_ofBV_eq hv, BitVec.extractLsb_toNat, Nat.and_two_pow_sub_one_eq_mod]
  | case5 =>
    rename_i high low hi lo loWidth hiWidth hhi hall ih
    -- the extract takes exactly the upper part
    intro hw w' z hv h
    rw [tryExtractConcreteUsize, if_pos hhi, if_pos hall] at h
    obtain ⟨n₁, a, n₂, b, ha, hb, hav, hbv, hwhi, -⟩ := exists_parts hw
    rw [eval_extract_of (eval_concat_of hav hbv)] at hv
    rw [ih hwhi hav h, ← toNat_eq_of_ofBV_eq hv, toNat_extractLsb_append]
    simp only [loWidth, hiWidth, ha, hb, SmtSort.width_bitvec] at hhi hall
    obtain rfl : low = n₂ := by omega
    have hcount : high - low + 1 = n₁ := hall.2
    rw [hcount, mul_comm, Nat.mul_add_div (by positivity), Nat.div_eq_of_lt b.isLt, add_zero,
      Nat.mod_eq_of_lt a.isLt]
  | case7 =>
    rename_i high low hi lo loWidth hiWidth hnot hlo hall ih
    -- the extract takes exactly the lower part
    intro hw w' z hv h
    rw [tryExtractConcreteUsize, if_neg hnot, if_pos hlo, if_pos hall] at h
    obtain ⟨n₁, a, n₂, b, ha, hb, hav, hbv, -, hwlo⟩ := exists_parts hw
    rw [eval_extract_of (eval_concat_of hav hbv)] at hv
    rw [ih hwlo hbv h, ← toNat_eq_of_ofBV_eq hv, toNat_extractLsb_append]
    simp only [loWidth, hb, SmtSort.width_bitvec] at hall
    obtain ⟨rfl, hcount⟩ := hall
    rw [Nat.sub_zero, hcount, pow_zero, Nat.div_one, Nat.mul_add_mod_self_right,
      Nat.mod_eq_of_lt b.isLt]
  | case2 =>
    -- the constant is too large
    rename_i hlt
    intro _ w' z _ h
    rw [tryExtractConcreteUsize, if_neg hlt] at h
    cases h
  | case4 =>
    -- the part is too large
    rename_i extracted hlt
    intro _ w' z _ h
    rw [tryExtractConcreteUsize] at h
    simp only [extracted, hlt, if_false, reduceCtorEq] at h
  | case6 =>
    -- only some of the upper part is taken
    rename_i loWidth hiWidth hhi hall
    intro _ w' z _ h
    rw [tryExtractConcreteUsize, if_pos hhi, if_neg hall] at h
    cases h
  | case8 =>
    -- only some of the lower part is taken
    rename_i loWidth hiWidth hnot hlo hall
    intro _ w' z _ h
    rw [tryExtractConcreteUsize, if_neg hnot, if_pos hlo, if_neg hall] at h
    cases h
  | case9 =>
    -- bits of both parts are taken
    rename_i loWidth hiWidth hnot hlo
    intro _ w' z _ h
    rw [tryExtractConcreteUsize, if_neg hnot, if_neg hlo] at h
    cases h
  | case10 e h₁ h₂ h₃ =>
    -- any other term
    intro _ w' z _ h
    rw [tryExtractConcreteUsize] at h
    · cases h
    all_goals assumption

/-! ### Results and flags -/

variable {v : Option (BitVec t.width) × Bool}

theorem encodedChecked_some {o : Expr × Expr} :
    EncodedChecked ρ v (some o) ↔ DenotedChecked ρ o v := by
  simp [EncodedChecked]

theorem denotedChecked_iff {b b' : BitVec t.width} {flag flag' : Bool} {f : Expr}
    (he : e.eval ρ = ofBV b) (hf : f.eval ρ = ofBool flag) :
    DenotedChecked ρ (e, f) ((some b', flag') : Option (BitVec t.width) × Bool) ↔
      b = b' ∧ flag = flag' := by
  simp only [DenotedChecked, Option.some.injEq, forall_eq', denoted_int_ofBV he]
  simp [MirValue.Denoted, hf]

section Bits

variable (hl : l.eval ρ = ofBV (t.wrap x)) (hr : r.eval ρ = ofBV (t.wrap y))
  (hx : t.InRange x) (hy : t.InRange y)

theorem eval_signBits_eq {a b : BitVec t.width} {l r : Expr} (hl : l.eval ρ = ofBV a)
    (hr : r.eval ρ = ofBV b) :
    (Expr.eq (signBit l t.width) (signBit r t.width)).eval ρ = ofBool (decide (a.msb = b.msb)) := by
  have hbool : BitVec.ofBool a.msb = BitVec.ofBool b.msb ↔ a.msb = b.msb := by
    cases a.msb <;> cases b.msb <;> decide
  have heq := eval_eq_ofBV (eval_signBit_of t.width_pos hl) (eval_signBit_of t.width_pos hr)
  simp only [hbool] at heq
  exact heq

theorem wrap_neg_half : BitVec.ofNat t.width (2 ^ (t.width - 1)) = t.wrap (-2 ^ (t.width - 1)) := by
  have hpow := t.two_pow_width
  have hsub : (-2 ^ (t.width - 1) : ℤ) = (2 ^ (t.width - 1) : ℕ) - 2 ^ t.width := by
    push_cast
    omega
  rw [hsub, wrap_sub_two_pow, IntTy.wrap, BitVec.ofInt_natCast]

theorem wrap_neg_one : BitVec.ofNat t.width (2 ^ t.width - 1) = t.wrap (-1) := by
  have hsub : (-1 : ℤ) = (2 ^ t.width - 1 : ℕ) - 2 ^ t.width := by
    rw [Nat.cast_sub Nat.one_le_two_pow]
    push_cast
    omega
  rw [hsub, wrap_sub_two_pow, IntTy.wrap, BitVec.ofInt_natCast]

theorem wrap_zero : BitVec.ofNat t.width 0 = t.wrap 0 := by
  rw [IntTy.wrap, BitVec.ofInt_ofNat]

theorem inRange_zero : t.InRange 0 := by
  have hpos : (0 : ℤ) < 2 ^ (t.width - 1) := by positivity
  have hpow := t.two_pow_width
  rw [IntTy.InRange]
  split <;> omega

theorem inRange_neg_half (hs : t.signed = true) : t.InRange (-2 ^ (t.width - 1)) := by
  have hpos : (0 : ℤ) < 2 ^ (t.width - 1) := by positivity
  rw [IntTy.InRange, if_pos hs]
  omega

theorem inRange_neg_one (hs : t.signed = true) : t.InRange (-1) := by
  have hpos : (0 : ℤ) < 2 ^ (t.width - 1) := by positivity
  rw [IntTy.InRange, if_pos hs]
  omega

/-- A comparison with a constant of the type. -/
theorem eval_eq_const {n : ℕ} {z : ℤ} (he : e.eval ρ = ofBV (t.wrap x)) (hx : t.InRange x)
    (hn : BitVec.ofNat t.width n = t.wrap z) (hz : t.InRange z) :
    (Expr.eq e (.bitVecConst (BitVec.ofNat t.width n))).eval ρ = ofBool (decide (x = z)) := by
  rw [eval_eq_ofBV he (eval_bitVecConst _)]
  simp only [hn, wrap_inj hx hz]

include hl hr hx hy

/-- The flag of an addition. -/
theorem encoded_checkedAdd : EncodedChecked ρ
    ((some (t.wrap (x + y)), decide (¬ t.InRange (x + y))) : Option (BitVec t.width) × Bool)
    (checkedBinopResultOverflow.checkedTerm .add l r t.signed t.width) := by
  have hres := eval_bv_of (f := .add) hl hr
  simp only [BvBin.denote, wrap_add] at hres
  cases hs : t.signed with
  | true =>
    refine encodedChecked_some.2 ((denotedChecked_iff hres (eval_and_of (eval_signBits_eq hl hr)
      (eval_not_of (eval_signBits_eq hres hl)))).2 ⟨rfl, add_signs_iff hs hx hy⟩)
  | false =>
    exact encodedChecked_some.2 ((denotedChecked_iff hres (eval_bvCmp_of hres hl)).2
      ⟨rfl, carry_iff hs hx hy⟩)

theorem encoded_checkedSub : EncodedChecked ρ
    ((some (t.wrap (x - y)), decide (¬ t.InRange (x - y))) : Option (BitVec t.width) × Bool)
    (checkedBinopResultOverflow.checkedTerm .sub l r t.signed t.width) := by
  have hres := eval_bv_of (f := .sub) hl hr
  simp only [BvBin.denote, wrap_sub] at hres
  cases hs : t.signed with
  | true =>
    refine encodedChecked_some.2 ((denotedChecked_iff hres (eval_and_of
      (eval_not_of (eval_signBits_eq hl hr)) (eval_not_of (eval_signBits_eq hres hl)))).2
        ⟨rfl, sub_signs_iff hs hx hy⟩)
  | false =>
    exact encodedChecked_some.2 ((denotedChecked_iff hres (eval_bvCmp_of hl hr)).2
      ⟨rfl, borrow_iff hs hx hy⟩)

theorem encoded_checkedMul : EncodedChecked ρ
    ((some (t.wrap (x * y)), decide (¬ t.InRange (x * y))) : Option (BitVec t.width) × Bool)
    (checkedBinopResultOverflow.checkedTerm .mul l r t.signed t.width) := by
  have hres := eval_bv_of (f := .mul) hl hr
  simp only [BvBin.denote, wrap_mul] at hres
  have hflag := eval_not_of (eval_bvCheck_of (f := if t.signed then .mulNoOverflowSigned
    else .mulNoOverflowUnsigned) hl hr)
  refine encodedChecked_some.2 ((denotedChecked_iff hres hflag).2 ⟨rfl, ?_⟩)
  rw [decide_not, Bool.not_inj_iff]
  exact denote_mulNoOverflow hx hy

/-- The flag of a division, and the result if the divisor is not zero. -/
theorem encoded_checkedDivide {g k : BvBin} {f : ℤ → ℤ → ℤ} (hop : op = .div ∨ op = .rem)
    (hfun : checkedFunction op t.signed = some (if t.signed then g else k))
    (hf : y ≠ 0 → (if t.signed then g else k).denote (t.wrap x) (t.wrap y) = t.wrap (f x y)) :
    EncodedChecked ρ ((if y = 0 then (none, true)
      else (some (t.wrap (f x y)), decide (¬ t.InRange (x.tdiv y))) :
        Option (BitVec t.width) × Bool))
      (checkedBinopResultOverflow.checkedTerm op l r t.signed t.width) := by
  have hzero := eval_eq_const hr hy wrap_zero inRange_zero
  -- the flag says that there is no quotient in range
  obtain ⟨flag, hflag, hval⟩ : ∃ flag, (∀ result, overflowFlag op l r result t.signed t.width =
      some flag) ∧ flag.eval ρ = ofBool (decide (y = 0 ∨ ¬ t.InRange (x.tdiv y))) := by
    cases hs : t.signed with
    | true =>
      have hmin := eval_eq_const hl hx wrap_neg_half (inRange_neg_half hs)
      have hone := eval_eq_const hr hy wrap_neg_one (inRange_neg_one hs)
      refine ⟨_, fun result => by rcases hop with rfl | rfl <;> rfl,
        (eval_or_of hzero (eval_and_of hmin hone)).trans ?_⟩
      congr 1
      rw [Bool.eq_iff_iff]
      simp only [Bool.or_eq_true, Bool.and_eq_true, decide_eq_true_eq]
      by_cases hy0 : y = 0
      · simp [hy0]
      · simp only [hy0, false_or, tdiv_iff hs hx hy hy0]
    | false =>
      refine ⟨_, fun result => by rcases hop with rfl | rfl <;> rfl, hzero.trans ?_⟩
      congr 1
      rw [decide_eq_decide]
      have hquot := hx.tdiv hs hy
      simp [hquot]
  have hterm : checkedBinopResultOverflow.checkedTerm op l r t.signed t.width =
      some (.bv (if t.signed then g else k) l r, flag) := by
    simp [checkedBinopResultOverflow.checkedTerm, hfun, hflag]
  rw [hterm, encodedChecked_some]
  by_cases hy0 : y = 0
  · rw [if_pos hy0]
    refine ⟨fun _ h => (by cases h), ?_⟩
    rw [MirValue.Denoted, hval, decide_eq_true (.inl hy0)]
  · rw [if_neg hy0]
    refine (denotedChecked_iff (eval_bv_of hl hr) hval).2 ⟨hf hy0, ?_⟩
    simp [hy0]

/-- On bit-vectors of one width, every checked operator but the shifts yields result and flag. -/
theorem checkedTerm_encoded (hop : op.isShift = false) (hv : op.mirChecked t x y = some v) :
    EncodedChecked ρ v (checkedBinopResultOverflow.checkedTerm op l r t.signed t.width) := by
  cases op <;> simp only [BinOp.mirChecked, reduceCtorEq] at hv
  case add | addUnchecked =>
    injection hv with hv
    exact hv ▸ encoded_checkedAdd hl hr hx hy
  case sub | subUnchecked =>
    injection hv with hv
    exact hv ▸ encoded_checkedSub hl hr hx hy
  case mul | mulUnchecked =>
    injection hv with hv
    exact hv ▸ encoded_checkedMul hl hr hx hy
  case div =>
    rw [← apply_ite some] at hv
    injection hv with hv
    refine hv ▸ encoded_checkedDivide (g := .sdiv) (k := .udiv) (f := Int.tdiv) hl hr hx hy
      (.inl rfl) (by cases t.signed <;> rfl) fun hy0 => ?_
    cases hs : t.signed with
    | true => exact smtSDiv_wrap hs hx hy hy0
    | false => exact smtUDiv_wrap hs hx hy hy0
  case rem =>
    rw [← apply_ite some] at hv
    injection hv with hv
    refine hv ▸ encoded_checkedDivide (g := .srem) (k := .urem) (f := Int.tmod) hl hr hx hy
      (.inr rfl) (by cases t.signed <;> rfl) fun _ => ?_
    cases hs : t.signed with
    | true => exact srem_wrap hs hx hy
    | false => exact umod_wrap hs hx hy
  all_goals cases hop

end Bits

/-- A checked shift by a reduced distance. -/
theorem checkedTerm_shift_iff {d : BitVec t.width} (hl : l.eval ρ = ofBV (t.wrap x))
    (hr : r.eval ρ = ofBV d) (hd : Distance t y d) (hx : t.InRange x) (hop : op.isShift = true)
    (hv : op.mirChecked t x y = some v) :
    EncodedChecked ρ v (checkedBinopResultOverflow.checkedTerm op l r t.signed t.width) ↔
      ShiftInRange t y ∨ ¬ y % 2 ^ t.width < t.width ∧ ShiftedOut t op x y := by
  have hwidth : (BitVec.ofNat t.width t.width).toNat = t.width := by
    rw [BitVec.toNat_ofNat, Nat.mod_eq_of_lt Nat.lt_two_pow_self]
  have hflag : (Expr.bvCmp .uge r (.bitVecConst (BitVec.ofNat t.width t.width))).eval ρ =
      ofBool (decide (¬ y % 2 ^ t.width < t.width)) := by
    rw [eval_bvCmp_of hr (eval_bitVecConst _), BvCmp.denote, BitVec.ule_eq_decide, hwidth]
    congr 1
    rw [decide_eq_decide, ← hd.lt_iff, not_lt]
  -- the flag is right unless an out-of-range distance is reduced to one in range
  have hin := @ShiftInRange.emod_lt t y
  have hcombine : ∀ {p s : Prop}, (p ↔ y % 2 ^ t.width < t.width ∨ s) →
      (p ∧ decide (¬ y % 2 ^ t.width < t.width) = decide (¬ ShiftInRange t y) ↔
        ShiftInRange t y ∨ ¬ y % 2 ^ t.width < t.width ∧ s) := by
    intro p s hp
    rw [hp, decide_eq_decide]
    tauto
  rcases isShift_cases hop with rfl | rfl | rfl | rfl <;>
    simp only [BinOp.mirChecked, reduceCtorEq, Option.some.injEq] at hv
  · subst hv
    have hterm : checkedBinopResultOverflow.checkedTerm .shl l r t.signed t.width =
        some (.bv .shl l r, .bvCmp .uge r (.bitVecConst (BitVec.ofNat t.width t.width))) := rfl
    rw [hterm, encodedChecked_some, denotedChecked_iff (eval_bv_of hl hr) hflag]
    exact hcombine (shl_eq_iff hd)
  · subst hv
    have hterm : checkedBinopResultOverflow.checkedTerm .shr l r t.signed t.width =
        some (.bv (if t.signed then .ashr else .lshr) l r,
          .bvCmp .uge r (.bitVecConst (BitVec.ofNat t.width t.width))) := rfl
    rw [hterm, encodedChecked_some, denotedChecked_iff (eval_bv_of hl hr) hflag]
    exact hcombine (shr_eq_iff hd hx)

/-- A result of another width than the value's stands for none. -/
theorem not_encodedChecked_of_width {w : ℕ} {b : BitVec w} {f : Expr} (hw : w ≠ t.width)
    (he : e.eval ρ = ofBV b) (hv : v.1 ≠ none) : ¬ EncodedChecked ρ v (some (e, f)) := by
  rw [encodedChecked_some]
  intro h
  obtain ⟨result, hresult⟩ := Option.ne_none_iff_exists'.1 hv
  rcases h.1 result hresult with hbits | hint
  · have hsort := congrArg Sigma.fst (he.symm.trans hbits)
    simp [hw] at hsort
  · exact ofBV_ne_ofInt (he.symm.trans hint)

/-! ### Lifted operands -/

/-- An operand as an integer. -/
theorem Operand.eval_lifted (he : Operand ρ t e x) :
    (if e.sort.isBitvec then bvToInt t.signed e else e).eval ρ = ofInt x := by
  rcases he.value with hbits | hint
  · rw [if_pos (isBitvec_of_bits hbits), eval_bvToInt_of t.signed t.width_pos hbits]
    exact congrArg _ (IntTy.read_wrap he.inRange)
  · rw [if_neg (isBitvec_of_int hint), hint]

/-- The test of an exact result against the bounds of the type. -/
def rangeFlag (t : IntTy) (e : Expr) : Expr :=
  if t.signed then
    .or [.intCmp .lt e (.intConst (-2 ^ (t.width - 1))),
      .intCmp .ge e (.intConst (2 ^ (t.width - 1)))]
  else
    .or [.intCmp .lt e (.intConst 0), .intCmp .ge e (.intConst (2 ^ t.width))]

theorem eval_rangeFlag {z : ℤ} (he : e.eval ρ = ofInt z) :
    (rangeFlag t e).eval ρ = ofBool (decide (¬ t.InRange z)) := by
  have hor : ∀ lo hi : ℤ, (Expr.or [.intCmp .lt e (.intConst lo),
      .intCmp .ge e (.intConst hi)]).eval ρ = ofBool (decide (¬ (lo ≤ z ∧ z < hi))) := by
    intro lo hi
    rw [eval_or_of (eval_intCmp_of he (eval_intConst lo)) (eval_intCmp_of he (eval_intConst hi))]
    congr 1
    rw [Bool.eq_iff_iff]
    simp only [ArithCmp.denote, Bool.or_eq_true, decide_eq_true_eq]
    omega
  cases hs : t.signed with
  | true => simp only [rangeFlag, if_true, hor, IntTy.InRange, hs]
  | false => simp only [rangeFlag, Bool.false_eq_true, if_false, hor, IntTy.InRange, hs]

/-- On lifted operands, the sum, difference and product are exact where they are in range; the
other operators are refused. -/
theorem liftedResultOverflow_encoded_iff (hl : Operand ρ t l x) (hr : Operand ρ t r y)
    (hop : op.isShift = false) (hv : op.mirChecked t x y = some v) (wide : Prop) :
    EncodedChecked ρ v (liftedResultOverflow op l r t.signed t.width) ↔
      op.ExactChecked t True wide x y := by
  have hexact : ∀ {f : IntBin} {z : ℤ}, f.divides = false → f.denote x y = z →
      ∀ {e : Expr}, e = .int f (if l.sort.isBitvec then bvToInt t.signed l else l)
          (if r.sort.isBitvec then bvToInt t.signed r else r) →
        (EncodedChecked ρ ((some (t.wrap z), decide (¬ t.InRange z)) :
          Option (BitVec t.width) × Bool) (some (e, rangeFlag t e)) ↔ (True → t.InRange z)) := by
    rintro f z hdiv hz _ rfl
    have hres := eval_int_of (f := f) hl.eval_lifted hr.eval_lifted (by simp [hdiv])
    rw [hz] at hres
    rw [encodedChecked_some, DenotedChecked, MirValue.Denoted, eval_rangeFlag hres]
    simp only [Option.some.injEq, forall_eq', denoted_int_ofInt hres, and_true, true_imp_iff]
    rw [eq_comm, IntTy.read_wrap_eq_iff]
  cases op <;> simp only [BinOp.mirChecked, reduceCtorEq] at hv <;>
    simp only [BinOp.ExactChecked]
  case add | addUnchecked =>
    injection hv with hv
    exact hv ▸ hexact rfl rfl rfl
  case sub | subUnchecked =>
    injection hv with hv
    exact hv ▸ hexact rfl rfl rfl
  case mul | mulUnchecked =>
    injection hv with hv
    exact hv ▸ hexact rfl rfl rfl
  case div | rem =>
    refine iff_of_false ?_ (not_not_intro trivial)
    rintro ⟨e, he, -⟩
    cases he
  all_goals cases hop

/-! ### The checked operators -/

/-- An operand as a bit-vector: a lifted one is reduced to the width of the value. -/
def toBits (t : IntTy) (e : Expr) : Expr := if e.sort = .int then int2bv t.width e else e

theorem toBits_def (t : IntTy) (e : Expr) :
    (if e.sort = .int then int2bv t.width e else e) = toBits t e := rfl

theorem Operand.eval_toBits (he : Operand ρ t e x) : (toBits t e).eval ρ = ofBV (t.wrap x) := by
  rcases he.value with hbits | hint
  · rw [toBits, if_neg (by simp [sort_of_ofBV hbits]), hbits]
  · rw [toBits, if_pos (sort_of_ofInt hint)]
    exact eval_int2bv_of hint

theorem Operand.wellSorted_toBits (he : Operand ρ t e x) : (toBits t e).WellSorted := by
  unfold toBits
  split_ifs with h
  · simp [int2bv, Op.accepts, h, he.wellSorted]
  · exact he.wellSorted

/-- Operands of one width stay as they are. -/
theorem coerceArithmeticOperands_bits {w : ℕ} {a b : BitVec w} (hl : l.eval ρ = ofBV a)
    (hr : r.eval ρ = ofBV b) (isSigned : Bool) :
    coerceArithmeticOperands l r isSigned = (l, r) := by
  simp [coerceArithmeticOperands, coerceToMaxWidth, sort_of_ofBV hl, sort_of_ofBV hr,
    SmtSort.bitvecWidth]

/-- The sum of two constants, which is computed. -/
theorem encoded_constants {a b : ℕ} (hs : t.signed = false) (hx : t.InRange x) (hy : t.InRange y)
    (ha : a = (t.wrap x).toNat) (hb : b = (t.wrap y).toNat) :
    EncodedChecked ρ ((some (t.wrap (x + y)), decide (¬ t.InRange (x + y))) :
        Option (BitVec t.width) × Bool)
      (some (.bitVecConst (BitVec.ofNat t.width ((a + b) &&& (2 ^ t.width - 1))),
        .boolConst (decide (2 ^ t.width - 1 < a + b)))) := by
  have hxn := IntTy.toNat_wrap_of_unsigned hs hx
  have hyn := IntTy.toNat_wrap_of_unsigned hs hy
  have hnonneg := hx.nonneg hs
  have hnonneg' := hy.nonneg hs
  have hsum : ((a + b : ℕ) : ℤ) = x + y := by
    rw [ha, hb]
    push_cast
    rw [hxn, hyn]
  refine encodedChecked_some.2 ((denotedChecked_iff (eval_bitVecConst _)
    (eval_boolConst _)).2 ⟨?_, ?_⟩)
  · rw [Nat.and_two_pow_sub_one_eq_mod, ← hsum, IntTy.wrap, BitVec.ofInt_natCast,
      ← BitVec.toNat_inj, BitVec.toNat_ofNat, BitVec.toNat_ofNat, Nat.mod_mod]
  · have hpos : 0 < 2 ^ t.width := by positivity
    have hlt : 2 ^ t.width - 1 < a + b ↔ ¬ ((a + b : ℕ) : ℤ) < 2 ^ t.width := by
      rw [show (2 : ℤ) ^ t.width = ((2 ^ t.width : ℕ) : ℤ) by push_cast; rfl, Int.ofNat_lt]
      omega
    rw [decide_eq_decide, hlt, hsum, IntTy.InRange, if_neg (by simp [hs])]
    omega

/-- What is computed on bit-vectors: the terms of the operator, or the sum of two constants. -/
theorem checkedBinopResultOverflow_cases (op : BinOp) {l' r' : Expr} {w : ℕ} {intLift : Bool}
    (hlift : ¬ (intLift = true ∧ (l.sort = .int ∨ r.sort = .int)))
    (hl : (toBits t l).sort.isBitvec = true) (hr : (toBits t r).sort.isBitvec = true)
    (hcoerce : coerceArithmeticOperands (toBits t l) (toBits t r) t.signed = (l', r'))
    (hw : l'.sort.width = w) :
    checkedBinopResultOverflow op l r t.signed t.width intLift =
        checkedBinopResultOverflow.checkedTerm op l' r' t.signed w ∨
      ∃ a b, tryExtractConcreteUsize l' = some a ∧ tryExtractConcreteUsize r' = some b ∧
        t.signed = false ∧ (op = .add ∨ op = .addUnchecked) ∧
          checkedBinopResultOverflow op l r t.signed t.width intLift =
            some (.bitVecConst (BitVec.ofNat w ((a + b) &&& (2 ^ w - 1))),
              .boolConst (decide (2 ^ w - 1 < a + b))) := by
  have hbits : ¬ (¬ (toBits t l).sort.isBitvec = true ∨ ¬ (toBits t r).sort.isBitvec = true) := by
    simp [hl, hr]
  subst hw
  rw [checkedBinopResultOverflow, if_neg hlift]
  dsimp only [toBits_def]
  rw [if_neg hbits, hcoerce]
  dsimp only
  split
  · rename_i a b ha hb
    split_ifs with hsum
    · exact .inr ⟨a, b, ha, hb, hsum.1, hsum.2.1, rfl⟩
    · exact .inl rfl
  · exact .inl rfl

/-- On bit-vectors, every checked operator but the shifts yields result and flag. -/
theorem checkedBinopResultOverflow_bits (hl : Operand ρ t l x) (hr : Operand ρ t r y)
    (hop : op.isShift = false) (hv : op.mirChecked t x y = some v) {intLift : Bool}
    (hlift : ¬ (intLift = true ∧ (l.sort = .int ∨ r.sort = .int))) :
    EncodedChecked ρ v (checkedBinopResultOverflow op l r t.signed t.width intLift) := by
  have hlv := hl.eval_toBits
  have hrv := hr.eval_toBits
  have hw : (toBits t l).sort.width = t.width := by rw [sort_of_ofBV hlv, SmtSort.width_bitvec]
  obtain hterm | ⟨a, b, ha, hb, hs, hadd, hterm⟩ := checkedBinopResultOverflow_cases op
    hlift (isBitvec_of_bits hlv) (isBitvec_of_bits hrv)
    (coerceArithmeticOperands_bits hlv hrv t.signed) hw
  · rw [hterm]
    exact checkedTerm_encoded hlv hrv hl.inRange hr.inRange hop hv
  · have hsum : op.mirChecked t x y = some (some (t.wrap (x + y)),
        decide (¬ t.InRange (x + y))) := by
      rcases hadd with rfl | rfl <;> rfl
    obtain rfl := Option.some.inj (hsum.symm.trans hv)
    rw [hterm]
    exact encoded_constants hs hl.inRange hr.inRange
      (tryExtractConcreteUsize_sound hl.wellSorted_toBits hlv ha)
      (tryExtractConcreteUsize_sound hr.wellSorted_toBits hrv hb)

/-- A shift has no constants to fold. -/
theorem checkedBinopResultOverflow_shift {l' r' : Expr} {w : ℕ} {intLift : Bool}
    (hlift : ¬ (intLift = true ∧ (l.sort = .int ∨ r.sort = .int)))
    (hl : (toBits t l).sort.isBitvec = true) (hr : (toBits t r).sort.isBitvec = true)
    (hcoerce : coerceArithmeticOperands (toBits t l) (toBits t r) t.signed = (l', r'))
    (hw : l'.sort.width = w) (hop : op.isShift = true) :
    checkedBinopResultOverflow op l r t.signed t.width intLift =
      checkedBinopResultOverflow.checkedTerm op l' r' t.signed w := by
  obtain hterm | ⟨a, b, -, -, -, hadd, -⟩ :=
    checkedBinopResultOverflow_cases op hlift hl hr hcoerce hw
  · exact hterm
  · rcases hadd with rfl | rfl <;> cases hop

/-- A narrower distance is widened with the sign of the value. -/
theorem exists_distance (hl : l.eval ρ = ofBV (t.wrap x)) (hr : r.eval ρ = ofBV (u.wrap y))
    (hy : u.InRange y) (hle : u.width ≤ t.width) :
    ∃ r' d, coerceArithmeticOperands l r t.signed = (l, r') ∧ r'.eval ρ = ofBV d ∧
      Distance t y d := by
  obtain ⟨d, hd, hread⟩ :=
    eval_coerceBitvecWidthSafe_of (.forSignedness t.signed) t.width_pos hr
  refine ⟨_, d, ?_, hd, .of_reading hy hread⟩
  have hself : coerceBitvecWidthSafe l t.width (.forSignedness t.signed) = l := by
    simp [coerceBitvecWidthSafe, sort_of_ofBV hl, SmtSort.bitvecWidth]
  rcases hle.eq_or_lt with heq | hlt
  · have hsame : coerceBitvecWidthSafe r t.width (.forSignedness t.signed) = r := by
      simp [coerceBitvecWidthSafe, sort_of_ofBV hr, SmtSort.bitvecWidth, heq]
    simp [coerceArithmeticOperands, coerceToMaxWidth, sort_of_ofBV hl, sort_of_ofBV hr,
      SmtSort.bitvecWidth, heq, hsame]
  · simp [coerceArithmeticOperands, coerceToMaxWidth, sort_of_ofBV hl, sort_of_ofBV hr,
      SmtSort.bitvecWidth, hlt.ne', hself, max_eq_left hle]

/-- A wider distance widens the value. -/
theorem exists_widened (hl : l.eval ρ = ofBV (t.wrap x)) (hr : r.eval ρ = ofBV (u.wrap y))
    (hlt : t.width < u.width) :
    ∃ l' r', coerceArithmeticOperands l r t.signed = (l', r') ∧
      ∃ a b : BitVec u.width, l'.eval ρ = ofBV a ∧ r'.eval ρ = ofBV b := by
  obtain ⟨a, ha, -⟩ := eval_coerceBitvecWidthSafe_of (.forSignedness t.signed) u.width_pos hl
  obtain ⟨b, hb, -⟩ := eval_coerceBitvecWidthSafe_of (.forSignedness t.signed) u.width_pos hr
  refine ⟨_, _, ?_, a, b, ha, hb⟩
  simp [coerceArithmeticOperands, coerceToMaxWidth, sort_of_ofBV hl, sort_of_ofBV hr,
    SmtSort.bitvecWidth, hlt.ne, max_eq_right hlt.le]

/-- A checked operator is encoded by terms for result and flag exactly on the inputs of
`BinOp.ExactChecked`. -/
theorem checkedBinopResultOverflow_encoded_iff (hl : Operand ρ t l x) (hr : Operand ρ u r y)
    (hu : op.isShift = true ∨ u = t) (hv : op.mirChecked t x y = some v) (intLift : Bool) :
    EncodedChecked ρ v (checkedBinopResultOverflow op l r t.signed t.width intLift) ↔
      op.ExactChecked t (intLift = true ∧ (l.sort = .int ∨ r.sort = .int))
        (r.sort.isBitvec = true ∧ t.width < u.width) x y := by
  by_cases hlift : intLift = true ∧ (l.sort = .int ∨ r.sort = .int)
  · have hlifted : checkedBinopResultOverflow op l r t.signed t.width intLift =
        liftedResultOverflow op l r t.signed t.width := by
      rw [checkedBinopResultOverflow, if_pos hlift]
    rw [hlifted, propext (iff_true_intro hlift)]
    cases hop : op.isShift with
    | true =>
      have hrefused : liftedResultOverflow op l r t.signed t.width = none := by
        rcases isShift_cases hop with rfl | rfl | rfl | rfl <;> rfl
      rw [hrefused]
      refine iff_of_false (by simp [EncodedChecked]) ?_
      rcases isShift_cases hop with rfl | rfl | rfl | rfl <;>
        simp only [BinOp.mirChecked, reduceCtorEq] at hv <;> simp [BinOp.ExactChecked]
    | false =>
      obtain rfl : u = t := hu.resolve_left (by simp [hop])
      exact liftedResultOverflow_encoded_iff hl hr hop hv _
  · cases hop : op.isShift with
    | false =>
      obtain rfl : u = t := hu.resolve_left (by simp [hop])
      refine iff_of_true (checkedBinopResultOverflow_bits hl hr hop hv hlift) ?_
      cases op <;> first | exact fun h => absurd h hlift | exact hlift | trivial
    | true =>
      have hlv := hl.eval_toBits
      -- the distance as the bit-vector it is compared and shifted by
      have hexact : ∀ {wide : Prop}, ¬ wide → (op.ExactChecked t
          (intLift = true ∧ (l.sort = .int ∨ r.sort = .int)) wide x y ↔
            ShiftInRange t y ∨ ¬ y % 2 ^ t.width < t.width ∧ ShiftedOut t op x y) := by
        intro wide hwide
        rcases isShift_cases hop with rfl | rfl | rfl | rfl <;>
          simp only [BinOp.mirChecked, reduceCtorEq] at hv <;>
          exact (and_iff_right hlift).trans (and_iff_right hwide)
      have hw : (toBits t l).sort.width = t.width := by
        rw [sort_of_ofBV hlv, SmtSort.width_bitvec]
      rcases hr.value with hrv | hrv
      · have hsame : toBits t r = r := if_neg (by simp [sort_of_ofBV hrv])
        have hrb : (toBits t r).sort.isBitvec = true := by
          rw [hsame]
          exact isBitvec_of_bits hrv
        rcases le_or_gt u.width t.width with hle | hlt
        · obtain ⟨r', d, hcoerce, hd, hdist⟩ := exists_distance hlv hrv hr.inRange hle
          rw [checkedBinopResultOverflow_shift hlift (isBitvec_of_bits hlv) hrb
            (by rw [hsame, hcoerce]) hw hop, checkedTerm_shift_iff hlv hd hdist hl.inRange hop hv,
            hexact fun h => hle.not_gt h.2]
        · obtain ⟨l', r', hcoerce, a, b, ha, hb⟩ := exists_widened hlv hrv hlt
          have hw' : l'.sort.width = u.width := by rw [sort_of_ofBV ha, SmtSort.width_bitvec]
          rw [checkedBinopResultOverflow_shift hlift (isBitvec_of_bits hlv) hrb
            (by rw [hsame, hcoerce]) hw' hop]
          rcases isShift_cases hop with rfl | rfl | rfl | rfl <;>
            simp only [BinOp.mirChecked, reduceCtorEq, Option.some.injEq] at hv
          · subst hv
            refine iff_of_false (not_encodedChecked_of_width hlt.ne' (eval_bv_of ha hb)
              (by simp)) ?_
            exact fun h => h.2.1 ⟨isBitvec_of_bits hrv, hlt⟩
          · subst hv
            refine iff_of_false (not_encodedChecked_of_width hlt.ne' (eval_bv_of ha hb)
              (by simp)) ?_
            exact fun h => h.2.1 ⟨isBitvec_of_bits hrv, hlt⟩
      · have hbits : (toBits t r).eval ρ = ofBV (t.wrap y) := by
          rw [toBits, if_pos (sort_of_ofInt hrv)]
          exact eval_int2bv_of hrv
        have hdist : Distance t y (t.wrap y) := Distance.of_ints hr.inRange (.inl rfl)
        rw [checkedBinopResultOverflow_shift hlift (isBitvec_of_bits hlv)
          (isBitvec_of_bits hbits) (coerceArithmeticOperands_bits hlv hbits t.signed) hw hop,
          checkedTerm_shift_iff hlv hbits hdist hl.inRange hop hv,
          hexact fun h => isBitvec_of_int hrv h.1]

/-! ### All operators -/

/-- Every operator is encoded exactly on the inputs its condition names, on every theory, type,
mix of operands and float encoding. -/
theorem arithmetic_exact_iff (floatBinop : BinOp → Expr → Expr → ℕ → Option Expr)
    (hl : Operand ρ t l x) (hr : Operand ρ u r y) :
    (∀ (op : BinOp) (v : MirValue t), op.isShift = true ∨ u = t → op.mir t x y = some v →
        (v.Encoded ρ (translateBinop floatBinop op l r t.signed t.width false) ↔
          op.Exact t (l.sort = .int ∨ r.sort = .int) x y)) ∧
      (∀ (op : UnOp) (v : MirValue t), op.mir t x = some v →
        (v.Encoded ρ (translateUnop op l t.width t.signed) ↔ op.Exact t (l.sort = .int) x)) ∧
      ∀ (op : BinOp) (v : Option (BitVec t.width) × Bool) (intLift : Bool),
        op.isShift = true ∨ u = t → op.mirChecked t x y = some v →
        (EncodedChecked ρ v (checkedBinopResultOverflow op l r t.signed t.width intLift) ↔
          op.ExactChecked t (intLift = true ∧ (l.sort = .int ∨ r.sort = .int))
            (r.sort.isBitvec = true ∧ t.width < u.width) x y) :=
  ⟨fun _ _ hu hv => translateBinop_encoded_iff floatBinop hl hr hu hv,
    fun _ _ hv => translateUnop_encoded_iff hl hv,
    fun _ _ intLift hu hv => checkedBinopResultOverflow_encoded_iff hl hr hu hv intLift⟩

/-- `i32`. -/
def i32 : IntTy := ⟨true, 32, IntTy.thirtyTwo_mem_widths⟩

/-- `u8`. -/
def u8 : IntTy := ⟨false, 8, IntTy.eight_mem_widths⟩

/-- A lifted local. -/
def lifted : Expr := .var "i" .int

/-- An environment where the lifted local is minus one. -/
noncomputable def minusOneEnv (T : Theory) : T.Env := Theory.Env.ofVals fun _ => ofInt (-1)

theorem operand_lifted (T : Theory) : Operand (minusOneEnv T) i32 lifted (-1) :=
  ⟨trivial, by decide, .inr (eval_var_ofVals rfl)⟩

theorem operand_const {ρ : T.Env} {z : ℤ} (hz : t.InRange z) :
    Operand ρ t (.bitVecConst (t.wrap z)) z :=
  ⟨by simp [Op.accepts], hz, .inl (eval_bitVecConst _)⟩

theorem arithmetic_exact_iff_minusOne :
    (¬ (MirValue.int 0#32 : MirValue i32).Encoded (minusOneEnv default)
        (translateBinop (fun _ _ _ _ => none) .div lifted (.bitVecConst 2#32) true 32 false)) ∧
      (MirValue.int 1#32 : MirValue i32).Encoded (minusOneEnv default)
        (translateBinop (fun _ _ _ _ => none) .add lifted (.bitVecConst 2#32) true 32 false) := by
  have hexact := (arithmetic_exact_iff (fun _ _ _ _ => none) (operand_lifted default)
    (operand_const (ρ := minusOneEnv default) (t := i32) (z := 2) (by decide))).1
  constructor
  · exact fun h => absurd ((hexact .div (.int 0#32) (.inr rfl) (by decide)).1 h (.inl rfl))
      (by decide)
  · exact (hexact .add (.int 1#32) (.inr rfl) (by decide)).2 fun _ => by decide

/-- MIR divides minus one by two to zero, the encoding of the lifted local yields minus one; and
a checked shift of a `u8` by an `i32` yields terms of 32 bits. -/
theorem lifted_div_rounds_down :
    (BinOp.div.mir i32 (-1) 2 = some (.int 0#32) ∧
      ∃ e, translateBinop (fun _ _ _ _ => none) .div lifted (.bitVecConst 2#32) true 32 false =
        some e ∧ e.eval (minusOneEnv default) = ofInt (-1)) ∧
      BinOp.shl.mirChecked u8 1 1 = some (some 2#8, false) ∧
        ∃ e, checkedBinopResultOverflow .shl (.bitVecConst 1#8) (.bitVecConst 1#32) false 8 false =
          some e ∧ e.1.eval (minusOneEnv default) = ofBV 2#32 := by
  have hcoerce : coerceArithmeticOperands (toBits u8 (.bitVecConst 1#8))
      (toBits u8 (.bitVecConst 1#32)) false =
        (.app (.bvZeroExtend 24) [.bitVecConst 1#8], .bitVecConst 1#32) := by
    simp [toBits, coerceArithmeticOperands, coerceToMaxWidth, coerceBitvecWidthSafe,
      Op.resultSort, SmtSort.bitvecWidth, SignExtension.forSignedness, SignExtension.extend]
  have hbits : ∀ {w : ℕ} (b : BitVec w), (toBits u8 (.bitVecConst b)).sort.isBitvec = true := by
    simp [toBits, SmtSort.isBitvec, SmtSort.bitvecWidth, Op.resultSort]
  have hwide : checkedBinopResultOverflow .shl (.bitVecConst 1#8) (.bitVecConst 1#32) false 8
      false = checkedBinopResultOverflow.checkedTerm .shl
        (.app (.bvZeroExtend 24) [.bitVecConst 1#8]) (.bitVecConst 1#32) false 32 :=
    checkedBinopResultOverflow_shift (t := u8) (by simp) (hbits _) (hbits _) hcoerce
      (by simp [Op.resultSort]) rfl
  have hdiv : translateBinop (fun _ _ _ _ => none) .div lifted (.bitVecConst 2#32) true 32 false =
      some (.int .div lifted (bvToInt true (.bitVecConst 2#32))) := by
    simp [translateBinop, coerceMixed, lifted, binopTerm, arithTerm, coerceIntReal, bvToInt,
      bv2intSigned, bv2int, Op.resultSort, SmtSort.isBitvec, SmtSort.bitvecWidth]
  refine ⟨⟨by decide, _, hdiv, ?_⟩, rfl, _, hwide, ?_⟩
  · have hlifted : lifted.eval (minusOneEnv default) = ofInt (-1) := eval_var_ofVals rfl
    exact eval_int_of (f := .div) hlifted
      (eval_bvToInt_of true (by decide) (eval_bitVecConst 2#32)) fun _ => by decide
  · have hext : (Expr.app (.bvZeroExtend 24) [.bitVecConst 1#8]).eval (minusOneEnv default) =
        ofBV (BitVec.setWidth 32 1#8) := by
      have hconst := eval_bitVecConst (ρ := minusOneEnv default) 1#8
      rw [eval_bvZeroExtend (sort_of_ofBV hconst), bits_of_ofBV hconst]
    rw [eval_bv_of hext (eval_bitVecConst 1#32)]
    rfl

end Arithmetic

end TrustMc
