import TrustMc.Floats.Convert
import TrustMc.Smt.Numbers

/-!
# Float-to-integer conversion on patterns

The terms of the conversion against the number a pattern denotes.

* **Saturating**: the conversion of `as` is right on every pattern.
* **Unchecked**: the truncation is right wherever it is in range.
* **Undefined behaviour**: the predicate tests the exponent, and the mantissa for zero. That is
  exact except strictly between the smallest value of a signed target and its predecessor,
  where truncation comes back into range and the predicate does not see it.
-/

namespace TrustMc

namespace Floats

open Machine Carriers.Val TrustMc.Expr

variable {T : Theory} {ρ : T.Env} {f : FloatFormat} {value : Expr} {x : ℕ}

/-! ### The fields -/

theorem expWidth_params (f : FloatFormat) : (params f).expWidth = f.expBits := by
  have := f.two_le_expBits
  simp only [Ieee754Params.expWidth, params]
  omega

section Fields

variable (hv : HasNat ρ value f.width x)

include hv

theorem hasNat_expRaw : HasNat ρ (expRaw value (params f)) f.expBits (f.exponent x) := by
  have hw : f.expBits + f.mantBits - 1 - f.mantBits + 1 = f.expBits := by
    have := f.two_le_expBits
    omega
  refine (hv.extract (f.expBits + f.mantBits - 1) f.mantBits).cast hw ?_
  rw [hw, FloatFormat.exponent]

theorem hasNat_mantissa (hm : 0 < f.mantBits) :
    HasNat ρ (mantissa value (params f)) f.mantBits (f.mantissa x) := by
  have hw : f.mantBits - 1 - 0 + 1 = f.mantBits := by omega
  refine (hv.extract (f.mantBits - 1) 0).cast hw ?_
  rw [hw, pow_zero, Nat.div_one, FloatFormat.mantissa]

theorem holds_signIsNeg : Holds ρ (signIsNeg value f.width) ↔ f.negative x = true := by
  have hsign := hv.extract (f.width - 1) (f.width - 1)
  rw [Nat.sub_self, zero_add, pow_one] at hsign
  rw [signIsNeg, extract, bvConst, hsign.holds_eq (hasNat_const (by norm_num)),
    FloatFormat.negative, decide_eq_true_eq, FloatFormat.width, Nat.add_sub_cancel]

theorem holds_mantissaIsZero (hm : 0 < f.mantBits) :
    Holds ρ (mantissaIsZero value (params f)) ↔ f.mantissa x = 0 :=
  (hasNat_mantissa hv hm).holds_eq (hasNat_const (by positivity))

theorem holds_specialExp :
    Holds ρ (specialExp value (params f)) ↔ f.exponent x = f.maxExponent := by
  have hlt : unsignedMaxBits f.expBits < 2 ^ f.expBits := Nat.sub_lt (by positivity) one_pos
  rw [specialExp, expWidth_params]
  exact (hasNat_expRaw hv).holds_eq (hasNat_const hlt)

/-- The unbiased exponent of a finite pattern is in range, so widening keeps it. -/
theorem hasInt_expWide (hfin : f.exponent x ≠ f.maxExponent) {w : ℕ} (hw : f.expBits ≤ w) :
    HasInt ρ (expWide value (params f) w) w (f.exponent x - f.bias) := by
  have htwo := f.two_le_expBits
  have hle := FloatFormat.exponent_le_of_ne hfin
  have hpow : (2 : ℤ) ^ (f.expBits - 1) = f.bias + 1 := by
    have hpos : 0 < 2 ^ (f.expBits - 1) := by positivity
    rw [FloatFormat.bias]
    push_cast [Nat.cast_sub hpos]
    ring
  have hbias : HasNat ρ (bvConst f.expBits f.bias) f.expBits f.bias :=
    hasNat_const (by rw [FloatFormat.two_pow_expBits]; omega)
  have hsub := (hasNat_expRaw hv).subInt hbias (by omega) (by rw [hpow]; omega)
    (by rw [hpow]; omega)
  have hext := hsub.signExtend (w - f.expBits)
  rw [Nat.add_sub_cancel' hw] at hext
  rw [expWide, expUnbiased, expWidth_params]
  exact hext

theorem holds_expAtLeast (hfin : f.exponent x ≠ f.maxExponent) {w k : ℕ} (hw : f.expBits ≤ w)
    (hk : 2 * k < 2 ^ w) :
    Holds ρ (expAtLeast value (params f) w k) ↔ (k : ℤ) ≤ f.exponent x - f.bias :=
  (hasInt_expWide hv hfin hw).holds_sge ((hasNat_const (by omega)).hasInt hk)

end Fields

/-! ### The integer part -/

theorem two_mul_lt_two_pow {k w : ℕ} (h : k < w) : 2 * k < 2 ^ w := by
  calc 2 * k < 2 * 2 ^ k := Nat.mul_lt_mul_of_pos_left Nat.lt_two_pow_self (by omega)
    _ = 2 ^ (k + 1) := by rw [pow_succ, mul_comm]
    _ ≤ 2 ^ w := Nat.pow_le_pow_right (by omega) h

/-- A significand shifted by the distance of an exponent to the mantissa's length. -/
theorem hasNat_shifted {mant exp : Expr} {w s m : ℕ} {z : ℤ} (hmant : HasNat ρ mant w s)
    (hexp : HasInt ρ exp w z) (hm : 2 * m < 2 ^ w) :
    HasNat ρ
      (.ite (.bvCmp .sge exp (bvConst w m)) (.bv .shl mant (.bv .sub exp (bvConst w m)))
        (.ite (.bvCmp .sge exp (bvConst w 0)) (.bv .lshr mant (.bv .sub (bvConst w m) exp))
          (bvConst w 0)))
      w ((if (m : ℤ) ≤ z then s * 2 ^ (z - m).toNat
        else if 0 ≤ z then s / 2 ^ (m - z).toNat else 0) % 2 ^ w) := by
  have hbits : HasNat ρ (bvConst w m) w m := hasNat_const (by omega)
  have hzero : HasNat ρ (bvConst w 0) w 0 := hasNat_const (by positivity)
  have hge := hexp.holds_sge (hbits.hasInt hm)
  have hnonneg := hexp.holds_sge (hzero.hasInt (by positivity))
  have hsort : ∀ (g : BvBin) (e : Expr), (Expr.bv g mant e).sort = .bitvec w := fun g e => by
    simp [Op.resultSort, hmant.sort]
  by_cases hcase : (m : ℤ) ≤ z
  · have hshift := (hexp.hasNat (by omega)).sub hbits (by omega)
    rw [if_pos hcase]
    refine (HasNat.ite_pos (hge.2 hcase) (hmant.shl hshift) ?_).cast rfl ?_
    · simp [Op.resultSort, hmant.sort]
    · rw [show z.toNat - m = (z - m).toNat by omega]
  · rw [if_neg hcase]
    refine HasNat.ite_neg (mt hge.1 hcase) (hsort _ _) ?_
    by_cases hcase' : 0 ≤ z
    · have hshift := hmant.lshr (hbits.sub (hexp.hasNat hcase') (by omega))
      rw [if_pos hcase']
      refine (HasNat.ite_pos (hnonneg.2 hcase') hshift rfl).cast rfl ?_
      rw [Nat.mod_eq_of_lt ((Nat.div_le_self _ _).trans_lt hmant.lt),
        show m - z.toNat = (m - z).toNat by omega]
    · rw [if_neg hcase', Nat.zero_mod]
      exact HasNat.ite_neg (mt hnonneg.1 hcase') (hsort _ _) hzero

theorem hasNat_integerUnsigned (hv : HasNat ρ value f.width x) (hm : 0 < f.mantBits)
    (hfin : f.exponent x ≠ f.maxExponent) {w : ℕ} (hw : f.expBits ≤ w) (hmw : f.mantBits + 1 < w) :
    HasNat ρ (integerUnsigned value (params f) w) w
      (f.integerPart (f.exponent x) (f.mantissa x) % 2 ^ w) := by
  have hone : HasNat ρ (bvConst 1 1) 1 1 := hasNat_const (by norm_num)
  have hfull : HasNat ρ (.app (.bvZeroExtend (w - (f.mantBits + 1)))
      [.app .bvConcat [bvConst 1 1, mantissa value (params f)]]) w
      (2 ^ f.mantBits + f.mantissa x) :=
    ((hone.concat (hasNat_mantissa hv hm)).zeroExtend (w - (f.mantBits + 1))).cast (by omega)
      (by ring)
  exact hasNat_shifted hfull (hasInt_expWide hv hfin hw)
    (two_mul_lt_two_pow (k := f.mantBits) (by omega))

/-! ### Truncation -/

variable {t : IntTy}

/-- The low bits of a term that agrees with an integer modulo the values of the type. -/
theorem eval_extract_wrap {e : Expr} {w n : ℕ} {z : ℤ} (h : HasNat ρ e w n)
    (hn : (n : ℤ) % 2 ^ t.width = z % 2 ^ t.width) :
    (extract e (t.width - 1) 0).eval ρ = ofBV (t.wrap z) := by
  have hw : t.width - 1 - 0 + 1 = t.width := by have := t.width_pos; omega
  have hext := (h.extract (t.width - 1) 0).cast hw rfl
  rw [hw, pow_zero, Nat.div_one] at hext
  rw [extract, hext.eval_eq, ofBV_inj, ← BitVec.toNat_inj, BitVec.toNat_ofNat, Nat.mod_mod,
    ← Int.natCast_inj, IntTy.toNat_wrap, ← hn]
  push_cast
  rfl

/-- Negation at a width, reduced to a smaller one. -/
theorem neg_emod {n k w : ℕ} (h : k ≤ w) :
    (((2 ^ w - n % 2 ^ w) % 2 ^ w : ℕ) : ℤ) % 2 ^ k = (-n : ℤ) % 2 ^ k := by
  have hdvd : (2 : ℤ) ^ k ∣ 2 ^ w := pow_dvd_pow 2 h
  have hle : n % 2 ^ w ≤ 2 ^ w := (Nat.mod_lt _ (by positivity)).le
  have hdiv : (2 : ℤ) ^ w - n % 2 ^ w - -n = 2 ^ w * (1 + n / 2 ^ w) := by
    have := Int.emod_add_mul_ediv (n : ℤ) (2 ^ w)
    linarith
  push_cast [Nat.cast_sub hle]
  rw [Int.emod_emod_of_dvd _ hdvd, Int.emod_eq_emod_iff_emod_sub_eq_zero, hdiv]
  exact Int.emod_eq_zero_of_dvd (hdvd.mul_right _)

/-- The encoder's result as an integer: the integer part with its sign, zero for the negative
patterns of an unsigned target. -/
def truncated (f : FloatFormat) (t : IntTy) (x : ℕ) : ℤ :=
  if f.negative x then
    if t.signed then -f.integerPart (f.exponent x) (f.mantissa x) else 0
  else f.integerPart (f.exponent x) (f.mantissa x)

theorem exists_buildFloatToIntExpr (hf : f ∈ ieeeFormats) (hv : HasNat ρ value f.width x)
    (t : IntTy) :
    ∃ e, buildFloatToIntExpr value t.width t.signed = some e ∧ e.sort = .bitvec t.width ∧
      (f.exponent x ≠ f.maxExponent → e.eval ρ = ofBV (t.wrap (truncated f t x))) := by
  have hm := mantBits_pos hf
  set w := truncationWidth (params f) t.width with hw
  have hwt : t.width < w ∧ f.mantBits + 1 < w ∧ f.expBits < w := by
    rw [hw, truncationWidth, expWidth_params]
    simp only [params]
    omega
  have hsort : ∀ e : Expr, (extract e (t.width - 1) 0).sort = .bitvec t.width := fun e => by
    have := t.width_pos
    simp only [extract, sort_app, Op.resultSort]
    congr 1
    omega
  simp only [buildFloatToIntExpr, hv.sort, SmtSort.bitvecWidth, ieee754Params_width hf,
    Option.bind_eq_bind, Option.bind_some, Option.pure_def, ← hw]
  rw [if_pos hwt.1]
  refine ⟨_, rfl, hsort _, fun hfin => ?_⟩
  have hmag := hasNat_integerUnsigned hv hm hfin hwt.2.2.le hwt.2.1
  have hzero : HasNat ρ (bvConst w 0) w 0 := hasNat_const (by positivity)
  have hdvd : (2 : ℤ) ^ t.width ∣ 2 ^ w := pow_dvd_pow 2 hwt.1.le
  have hsign := holds_signIsNeg hv
  set part := f.integerPart (f.exponent x) (f.mantissa x) with hpart
  have hmod : ((part % 2 ^ w : ℕ) : ℤ) % 2 ^ t.width = part % 2 ^ t.width := by
    push_cast
    exact Int.emod_emod_of_dvd _ hdvd
  have hneg := neg_emod (n := part) hwt.1.le
  rw [truncated, ← hpart]
  by_cases hn : f.negative x = true
  · rw [if_pos hn]
    cases t.signed with
    | true =>
      simp only [if_true]
      exact eval_extract_wrap (HasNat.ite_pos (hsign.2 hn) hmag.neg hmag.sort) hneg
    | false =>
      simp only [Bool.false_eq_true, if_false]
      exact eval_extract_wrap (HasNat.ite_pos (hsign.2 hn) hzero hmag.sort) (by simp)
  · rw [if_neg hn]
    cases t.signed with
    | true =>
      simp only [if_true]
      exact eval_extract_wrap (HasNat.ite_neg (mt hsign.1 hn) hmag.neg.sort hmag) hmod
    | false =>
      simp only [Bool.false_eq_true, if_false]
      exact eval_extract_wrap (HasNat.ite_neg (mt hsign.1 hn) hzero.sort hmag) hmod

/-! ### What a pattern denotes -/

section Read

variable (hfin : f.exponent x ≠ f.maxExponent)

/-- The absolute value of a pattern. -/
private def absValue (f : FloatFormat) (x : ℕ) : ℚ := f.magnitude (f.exponent x) (f.mantissa x)

private theorem absValue_nonneg : 0 ≤ absValue f x := FloatFormat.magnitude_nonneg

private theorem floor_absValue :
    ⌊absValue f x⌋ = (f.integerPart (f.exponent x) (f.mantissa x) : ℤ) :=
  FloatFormat.floor_magnitude (f.mantissa_lt x)

include hfin

private theorem read_eq :
    f.read x = .finite (if f.negative x then -absValue f x else absValue f x) :=
  if_neg hfin

private theorem truncate_read {q : ℚ} (h : f.read x = .finite q) :
    truncate q = if f.negative x then -⌊absValue f x⌋ else ⌊absValue f x⌋ := by
  rw [read_eq hfin, FloatValue.finite.injEq] at h
  subst h
  split_ifs
  · exact truncate_neg absValue_nonneg
  · exact truncate_of_nonneg absValue_nonneg

/-- A finite pattern converts where its magnitude is below the bound of its sign. -/
private theorem exists_converts_iff :
    (∃ z, (f.read x).Converts t z) ↔
      if t.signed then
        if f.negative x then absValue f x < 2 ^ (t.width - 1) + 1
        else absValue f x < 2 ^ (t.width - 1)
      else if f.negative x then absValue f x < 1 else absValue f x < 2 ^ t.width := by
  have hconv : (∃ z, (f.read x).Converts t z) ↔
      t.InRange (if f.negative x then -⌊absValue f x⌋ else ⌊absValue f x⌋) := by
    constructor
    · rintro ⟨z, q, hq, rfl, hz⟩
      rwa [truncate_read hfin hq] at hz
    · exact fun h => ⟨_, _, read_eq hfin, rfl, by rwa [truncate_read hfin (read_eq hfin)]⟩
  have hfloor : 0 ≤ ⌊absValue f x⌋ := Int.floor_nonneg.2 absValue_nonneg
  have hhalf : (0 : ℤ) < 2 ^ (t.width - 1) := by positivity
  have hfull : (0 : ℤ) < 2 ^ t.width := by positivity
  have hlt : ∀ k : ℕ, absValue f x < 2 ^ k ↔ ⌊absValue f x⌋ < 2 ^ k := fun k => by
    rw [Int.floor_lt]
    push_cast
    rfl
  have hlt' : absValue f x < 2 ^ (t.width - 1) + 1 ↔ ⌊absValue f x⌋ < 2 ^ (t.width - 1) + 1 := by
    rw [Int.floor_lt]
    push_cast
    rfl
  have hone : absValue f x < 1 ↔ ⌊absValue f x⌋ < 1 := by
    rw [Int.floor_lt, Int.cast_one]
  rw [hconv, IntTy.InRange, hlt, hlt, hlt', hone]
  split_ifs <;> omega

private theorem justBelowMin_iff :
    (f.read x).JustBelowMin t ↔ t.signed = true ∧ f.negative x = true ∧
      2 ^ (t.width - 1) < absValue f x ∧ absValue f x < 2 ^ (t.width - 1) + 1 := by
  have hpos : (0 : ℚ) < 2 ^ (t.width - 1) := by positivity
  have habs := absValue_nonneg (f := f) (x := x)
  rw [FloatValue.JustBelowMin]
  refine and_congr_right fun hs => ?_
  simp only [read_eq hfin, FloatValue.finite.injEq, exists_eq_left', IntTy.minValue, hs, if_true]
  push_cast
  split_ifs with hn
  · simp only [hn, true_and]
    constructor <;> rintro ⟨h, h'⟩ <;> constructor <;> linarith
  · refine iff_of_false ?_ (by simp [hn])
    rintro ⟨-, h⟩
    linarith

end Read

/-! ### Exactness -/

/-- What the encoders have to yield on the pattern `x`. -/
structure ConvertsExactly (ρ : T.Env) (f : FloatFormat) (t : IntTy) (value : Expr) (x : ℕ) :
    Prop where
  /-- The conversion of `as`. -/
  saturating : ∃ e, buildFloatToIntSaturatingExpr value t.width t.signed = some e ∧
    e.eval ρ = ofBV (t.wrap ((f.read x).saturate t))
  /-- The predicate says whether the unchecked conversion is defined. -/
  predicate : ∃ e, buildFloatToIntUbFreePredicate value t.width t.signed = some e ∧
    (Holds ρ e ↔ ∃ z, (f.read x).Converts t z)
  /-- Where it is defined, the truncation is its result. -/
  truncation : ∀ z, (f.read x).Converts t z →
    ∃ e, buildFloatToIntExpr value t.width t.signed = some e ∧ e.eval ρ = ofBV (t.wrap z)
  /-- Only one of the two reasons applies. -/
  components : ∃ c, buildFloatToIntUbComponents value t.width t.signed = some c ∧
    ¬ (Holds ρ c.1 ∧ Holds ρ c.2)

theorem converts_truncation (hf : f ∈ ieeeFormats) (hv : HasNat ρ value f.width x) {z : ℤ}
    (h : (f.read x).Converts t z) :
    ∃ e, buildFloatToIntExpr value t.width t.signed = some e ∧ e.eval ρ = ofBV (t.wrap z) := by
  obtain ⟨q, hq, rfl, hz⟩ := h
  have hfin : f.exponent x ≠ f.maxExponent := by
    intro hspecial
    rw [FloatFormat.read, if_pos hspecial] at hq
    split_ifs at hq
  obtain ⟨e, he, -, heval⟩ := exists_buildFloatToIntExpr hf hv t
  refine ⟨e, he, ?_⟩
  rw [heval hfin, truncated, truncate_read hfin hq, floor_absValue]
  rw [truncate_read hfin hq, floor_absValue] at hz
  split_ifs at * with hn hs
  · rfl
  · -- a negative value in the range of an unsigned type is zero
    have := hz.nonneg (by simpa using hs)
    rw [show (-(f.integerPart (f.exponent x) (f.mantissa x)) : ℤ) = 0 by omega]
  · rfl

/-- The components as statements about the magnitude. -/
theorem components_spec (hf : f ∈ ieeeFormats) (hv : HasNat ρ value f.width x) (t : IntTy) :
    ∃ c, buildFloatToIntUbComponents value t.width t.signed = some c ∧
      (Holds ρ c.1 ↔ f.exponent x = f.maxExponent) ∧
      (Holds ρ c.2 ↔ f.exponent x ≠ f.maxExponent ∧
        if t.signed then
          if f.negative x then 2 ^ (t.width - 1) < absValue f x
          else 2 ^ (t.width - 1) ≤ absValue f x
        else if f.negative x then 1 ≤ absValue f x else 2 ^ t.width ≤ absValue f x) := by
  have hspecial := holds_specialExp hv
  have hsign := holds_signIsNeg hv
  have hzero := holds_mantissaIsZero hv (mantBits_pos hf)
  have hmlt := f.mantissa_lt x
  simp only [buildFloatToIntUbComponents, hv.sort, SmtSort.bitvecWidth, ieee754Params_width hf,
    Option.bind_eq_bind, Option.bind_some, Option.pure_def]
  refine ⟨_, rfl, hspecial, ?_⟩
  simp only [holds_and, List.mem_cons, List.not_mem_nil, or_false, forall_eq_or_imp, forall_eq,
    holds_not, hspecial]
  refine and_congr_right fun hfin => ?_
  have hge : ∀ k ≤ t.width, (Holds ρ (expAtLeast value (params f)
      (max t.width (params f).expWidth + 2) k) ↔ 2 ^ k ≤ absValue f x) := fun k hk => by
    rw [absValue, FloatFormat.two_pow_le_magnitude_iff hmlt]
    refine holds_expAtLeast hv hfin ?_ (two_mul_lt_two_pow (by omega))
    rw [expWidth_params]
    omega
  have hsucc : t.width = t.width - 1 + 1 := by have := t.width_pos; omega
  cases hs : t.signed with
  | true =>
    have hlt : 2 ^ (t.width - 1) < absValue f x ↔ 2 ^ t.width ≤ absValue f x ∨
        2 ^ (t.width - 1) ≤ absValue f x ∧ f.mantissa x ≠ 0 := by
      rw [absValue, FloatFormat.two_pow_lt_magnitude_iff hmlt,
        FloatFormat.two_pow_le_magnitude_iff hmlt, FloatFormat.two_pow_le_magnitude_iff hmlt]
      omega
    simp only [if_true, holds_or, holds_and, List.mem_cons, List.not_mem_nil, or_false,
      exists_eq_or_imp, exists_eq_left, forall_eq_or_imp, forall_eq, holds_not, hsign, hzero,
      hge _ le_rfl, hge _ (Nat.sub_le _ 1), hlt]
    by_cases hn : f.negative x = true <;> simp [hn]
  | false =>
    have hone := hge 0 (Nat.zero_le _)
    rw [pow_zero] at hone
    simp only [Bool.false_eq_true, if_false, holds_or, holds_and, List.mem_cons, List.not_mem_nil,
      or_false, exists_eq_or_imp, exists_eq_left, forall_eq_or_imp, forall_eq, holds_not, hsign,
      hge _ le_rfl, hone]
    by_cases hn : f.negative x = true <;> simp [hn]

theorem eval_bvConst (w n : ℕ) : (bvConst w n).eval ρ = ofBV (BitVec.ofNat w n) := by
  simp [bvConst, Op.interp]

theorem eval_intMin (t : IntTy) :
    (bvConst t.width (intMinBits t.width t.signed)).eval ρ = ofBV (t.wrap t.minValue) := by
  have htwo := t.two_pow_width
  have hhalf : (0 : ℤ) < 2 ^ (t.width - 1) := by positivity
  have hlt : intMinBits t.width t.signed < 2 ^ t.width := by
    have hpos : 0 < 2 ^ t.width := by positivity
    rw [intMinBits]
    split_ifs
    · exact Nat.pow_lt_pow_right (by omega) (Nat.sub_lt t.width_pos one_pos)
    · exact hpos
  rw [eval_bvConst, ofBV_inj, ← BitVec.toNat_inj, BitVec.toNat_ofNat, Nat.mod_eq_of_lt hlt,
    ← Int.natCast_inj, IntTy.toNat_wrap, intMinBits, IntTy.minValue]
  split_ifs
  · rw [Int.emod_eq_add_self_emod, Int.emod_eq_of_lt (by omega) (by omega)]
    push_cast
    omega
  · simp

theorem eval_intMax (t : IntTy) :
    (bvConst t.width (intMaxBits t.width t.signed)).eval ρ = ofBV (t.wrap t.maxValue) := by
  have hpos : 0 < 2 ^ t.width := by positivity
  have hhalf : 0 < 2 ^ (t.width - 1) := by positivity
  have hle : 2 ^ (t.width - 1) ≤ 2 ^ t.width := Nat.pow_le_pow_right (by omega) (Nat.sub_le _ _)
  have hmax : ((intMaxBits t.width t.signed : ℕ) : ℤ) = t.maxValue := by
    unfold intMaxBits signedMaxBits unsignedMaxBits IntTy.maxValue
    split_ifs
    · push_cast [Nat.cast_sub hhalf]
      rfl
    · push_cast [Nat.cast_sub hpos]
      rfl
  rw [← hmax, eval_bvConst, IntTy.wrap, BitVec.ofInt_natCast]

theorem maxValue_add_one (t : IntTy) : t.maxValue + 1 = 2 ^ (t.width - t.signed.toNat) := by
  unfold IntTy.maxValue
  cases t.signed <;> simp

/-- Clamping a truncated magnitude, from the comparison the encoder makes. -/
theorem clamp_absValue (t : IntTy) :
    t.clamp (if f.negative x then -⌊absValue f x⌋ else ⌊absValue f x⌋)
      = if 2 ^ (t.width - t.signed.toNat) ≤ absValue f x then
          if f.negative x then t.minValue else t.maxValue
        else truncated f t x := by
  have hmax := maxValue_add_one t
  have hfloor : 0 ≤ ⌊absValue f x⌋ := Int.floor_nonneg.2 absValue_nonneg
  have hle : 2 ^ (t.width - t.signed.toNat) ≤ absValue f x ↔
      (2 : ℤ) ^ (t.width - t.signed.toNat) ≤ ⌊absValue f x⌋ := by
    rw [Int.le_floor]
    push_cast
    rfl
  have hmin : t.minValue ≤ 0 ∧ -(2 : ℤ) ^ (t.width - t.signed.toNat) ≤ t.minValue ∧
      (t.signed = false → t.minValue = 0) ∧
      (t.signed = true → t.minValue = -2 ^ (t.width - t.signed.toNat)) := by
    have hpos : (0 : ℤ) < 2 ^ (t.width - t.signed.toNat) := by positivity
    unfold IntTy.minValue
    cases t.signed <;> simp
  simp only [hle]
  rw [truncated, ← floor_absValue]
  by_cases hge : (2 : ℤ) ^ (t.width - t.signed.toNat) ≤ ⌊absValue f x⌋
  · rw [if_pos hge]
    split_ifs
    · exact IntTy.clamp_of_le_minValue (by omega)
    · exact IntTy.clamp_of_maxValue_le (by omega)
  · rw [if_neg hge]
    split_ifs with hn hs
    · exact IntTy.clamp_of_inRange (IntTy.inRange_iff.2 ⟨by have := hmin.2.2.2 hs; omega, by omega⟩)
    · have hzero := hmin.2.2.1 (by simpa using hs)
      rw [IntTy.clamp_of_le_minValue (by omega), hzero]
    · exact IntTy.clamp_of_inRange (IntTy.inRange_iff.2 ⟨by omega, by omega⟩)

theorem saturating_spec (hf : f ∈ ieeeFormats) (hv : HasNat ρ value f.width x) (t : IntTy) :
    ∃ e, buildFloatToIntSaturatingExpr value t.width t.signed = some e ∧
      e.eval ρ = ofBV (t.wrap ((f.read x).saturate t)) := by
  have hspecial := holds_specialExp hv
  have hsign := holds_signIsNeg hv
  have hzero := holds_mantissaIsZero hv (mantBits_pos hf)
  obtain ⟨e, he, hsort, heval⟩ := exists_buildFloatToIntExpr hf hv t
  have hconst : ∀ n, (bvConst t.width n).sort = .bitvec t.width := fun _ => rfl
  have hite : ∀ {c a b : Expr}, a.sort = .bitvec t.width →
      (Expr.ite c a b).sort = .bitvec t.width :=
    fun {c a b} h => by simp [Op.resultSort, h]
  simp only [buildFloatToIntSaturatingExpr, he, hv.sort, SmtSort.bitvecWidth,
    ieee754Params_width hf, Option.bind_eq_bind, Option.bind_some, Option.pure_def]
  refine ⟨_, rfl, ?_⟩
  rw [eval_ite (by rw [hconst, hite (hconst _)]), eval_ite (by rw [hconst, hite (hconst _)]),
    eval_ite (by rw [hconst, hite (hconst _)]), eval_ite (by rw [hconst, hite (hconst _)]),
    eval_ite (by rw [hconst, hsort]), eval_intMin, eval_intMax]
  by_cases hfin : f.exponent x = f.maxExponent
  · -- infinities, and what is not a number
    rw [FloatFormat.read, if_pos hfin]
    by_cases hm : f.mantissa x = 0 <;> by_cases hn : f.negative x = true <;>
      simp [hspecial, hsign, hzero, hfin, hm, hn, FloatValue.saturate, eval_bvConst, IntTy.wrap]
  · have hexceeds : Holds ρ (expAtLeast value (params f)
        (max t.width (params f).expWidth + 1) (t.width - t.signed.toNat)) ↔
        2 ^ (t.width - t.signed.toNat) ≤ absValue f x := by
      rw [absValue, FloatFormat.two_pow_le_magnitude_iff (f.mantissa_lt x)]
      refine holds_expAtLeast hv hfin ?_ (two_mul_lt_two_pow (by omega))
      rw [expWidth_params]
      omega
    have hclamp := clamp_absValue (f := f) (x := x) t
    rw [← truncate_read hfin (read_eq hfin)] at hclamp
    rw [read_eq hfin, FloatValue.saturate, hclamp, heval hfin]
    by_cases hge : 2 ^ (t.width - t.signed.toNat) ≤ absValue f x <;>
      by_cases hn : f.negative x = true <;>
      simp [hspecial, hsign, hfin, hexceeds, hge, hn]

/-- The predicate is exact away from the values just below the smallest of a signed type. -/
theorem predicate_spec (hf : f ∈ ieeeFormats) (hv : HasNat ρ value f.width x) (t : IntTy) :
    ∃ e, buildFloatToIntUbFreePredicate value t.width t.signed = some e ∧
      ((Holds ρ e ↔ ∃ z, (f.read x).Converts t z) ↔ ¬ (f.read x).JustBelowMin t) := by
  obtain ⟨c, hc, hnonFinite, hout⟩ := components_spec hf hv t
  simp only [buildFloatToIntUbFreePredicate, hc, Option.bind_eq_bind, Option.bind_some,
    Option.pure_def]
  refine ⟨_, rfl, ?_⟩
  simp only [holds_not, holds_or, List.mem_cons, List.not_mem_nil, or_false, exists_eq_or_imp,
    exists_eq_left, hnonFinite, hout, not_or, not_and]
  by_cases hfin : f.exponent x = f.maxExponent
  · -- neither a conversion nor a value below the smallest
    have hread : ∀ q, f.read x ≠ .finite q := fun q h => by
      rw [FloatFormat.read, if_pos hfin] at h
      split_ifs at h
    have hconv : ¬ ∃ z, (f.read x).Converts t z := by
      rintro ⟨-, q, hq, -⟩
      exact hread q hq
    have hbelow : ¬ (f.read x).JustBelowMin t := by
      rintro ⟨-, q, hq, -⟩
      exact hread q hq
    simp [hfin, hconv, hbelow]
  · rw [exists_converts_iff hfin, justBelowMin_iff hfin]
    simp only [hfin, not_false_eq_true, true_and, ne_eq, forall_const]
    split_ifs with hs hn hn
    · simp only [hs, hn, true_and, not_lt, not_and]
      constructor
      · exact fun h hlt => not_lt.1 fun hlt' => absurd (h.2 hlt') hlt.not_ge
      · exact fun h => ⟨fun hle => by linarith, fun hlt => not_lt.1 fun hgt =>
          absurd hlt (h hgt).not_gt⟩
    all_goals simp [*]

/-- The encoders yield what they have to on exactly the patterns whose value is not just below
the smallest of a signed target. -/
theorem conversion_exact_iff (ρ : T.Env) (hf : f ∈ ieeeFormats) (t : IntTy) (value : Expr)
    (b : BitVec f.width) (hv : value.eval ρ = ofBV b) :
    ConvertsExactly ρ f t value b.toNat ↔ ¬ (f.read b.toNat).JustBelowMin t := by
  have hnat : HasNat ρ value f.width b.toNat := hasNat_of_eval hv
  obtain ⟨e, he, hiff⟩ := predicate_spec hf hnat t
  constructor
  · rintro ⟨-, ⟨e', he', h⟩, -, -⟩
    rw [he] at he'
    cases he'
    exact hiff.1 h
  · intro h
    obtain ⟨c, hc, hnonFinite, hout⟩ := components_spec hf hnat t
    exact {
      saturating := saturating_spec hf hnat t
      predicate := ⟨e, he, hiff.2 h⟩
      truncation := fun z hz => converts_truncation hf hnat hz
      components := ⟨c, hc, fun hboth => (hout.1 hboth.2).1 (hnonFinite.1 hboth.1)⟩ }

/-- The smallest value itself: −128 in 32 bits, to a signed byte. -/
theorem conversion_exact_iff_minimum :
    ConvertsExactly (T := default) default ⟨8, 23, by decide⟩ ⟨true, 8, by decide⟩
      (.bitVecConst 0xC3000000#32) 0xC3000000 := by
  have hread : (⟨8, 23, by decide⟩ : FloatFormat).read 0xC3000000 = .finite (-128) := by
    rw [FloatFormat.read, if_neg (by decide), if_pos (by decide), FloatFormat.magnitude,
      if_neg (by decide)]
    norm_num [FloatFormat.exponent, FloatFormat.mantissa, FloatFormat.bias]
  refine (conversion_exact_iff default (f := ⟨8, 23, by decide⟩) (by simp [ieeeFormats])
    ⟨true, 8, by decide⟩ _ 0xC3000000#32 (by simp [Op.interp]; rfl)).2 ?_
  rintro ⟨-, q, hq, -, hlt⟩
  obtain rfl : -128 = q := FloatValue.finite.inj (hread.symm.trans hq)
  norm_num [IntTy.minValue] at hlt

/-- −128.5 in 32 bits, to a signed byte: the truncation −128 is in range, and the predicate
reports undefined behaviour. -/
theorem predicate_reports_fraction :
    (⟨8, 23, by decide⟩ : FloatFormat).read 0xC3008000 = .finite (-257 / 2) ∧
    (FloatValue.finite (-257 / 2)).Converts ⟨true, 8, by decide⟩ (-128) ∧
    ∃ e, buildFloatToIntUbFreePredicate (.bitVecConst 0xC3008000#32) 8 true = some e ∧
      ∀ (T : Theory) (ρ : T.Env), ¬ Holds ρ e := by
  have hread : (⟨8, 23, by decide⟩ : FloatFormat).read 0xC3008000 = .finite (-257 / 2) := by
    rw [FloatFormat.read, if_neg (by decide), if_pos (by decide), FloatFormat.magnitude,
      if_neg (by decide)]
    norm_num [FloatFormat.exponent, FloatFormat.mantissa, FloatFormat.bias]
  have hconv : (FloatValue.finite (-257 / 2)).Converts ⟨true, 8, by decide⟩ (-128) :=
    ⟨_, rfl, by norm_num [truncate], by norm_num [IntTy.InRange]⟩
  refine ⟨hread, hconv, _, rfl, fun T ρ hρ => ?_⟩
  have hvalue : HasNat ρ (.bitVecConst 0xC3008000#32) 32 0xC3008000 :=
    hasNat_of_eval (x := 0xC3008000#32) (by simp [Op.interp])
  obtain ⟨e, he, hiff⟩ := predicate_spec (ρ := ρ) (f := ⟨8, 23, by decide⟩)
    (by simp [ieeeFormats]) hvalue ⟨true, 8, by decide⟩
  cases he
  refine hiff.1 (iff_of_true hρ ⟨-128, hread ▸ hconv⟩) ⟨rfl, _, hread, ?_⟩
  norm_num [IntTy.minValue]

end Floats

end TrustMc
