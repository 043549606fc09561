import TrustMc.Smt.Expr
import TrustMc.Machine.Floats

/-!
# The encoding of float-to-integer conversion

A float is a bit-vector holding its pattern. The terms take it apart into sign, exponent and
mantissa and shift the significand to its integer part; no floating-point operator is used.

* `buildFloatToIntExpr`: the truncation toward zero, for patterns known to be in range.
* `buildFloatToIntSaturatingExpr`: the conversion of `as`, clamped to the target.
* `buildFloatToIntUbComponents`: the two reasons the unchecked conversion is undefined;
  `buildFloatToIntUbFreePredicate` denies both.

The encoders share the terms for the fields of the pattern, which each of them spells out.
-/

namespace TrustMc

namespace Floats

/-- `Expr::bitvec_const(n, w)`. -/
def bvConst (w n : ℕ) : Expr := .bitVecConst (BitVec.ofNat w n)

/-- `e.extract(high, low)`. -/
def extract (e : Expr) (high low : ℕ) : Expr := .app (.bvExtract high low) [e]

/-- Where the fields of a pattern are. -/
structure Ieee754Params where
  /-- The highest bit of the exponent. -/
  expHi : ℕ
  /-- The lowest bit of the exponent. -/
  expLo : ℕ
  /-- The bits of the mantissa. -/
  mantBits : ℕ
  /-- The bias of the exponent. -/
  bias : ℕ
  deriving DecidableEq

/-- `ieee754_params`. -/
def ieee754Params (width : ℕ) : Option Ieee754Params :=
  match width with
  | 16 => some ⟨14, 10, 10, 15⟩
  | 32 => some ⟨30, 23, 23, 127⟩
  | 64 => some ⟨62, 52, 52, 1023⟩
  | 128 => some ⟨126, 112, 112, 16383⟩
  | _ => none

/-- `exp_width`. -/
def Ieee754Params.expWidth (p : Ieee754Params) : ℕ := p.expHi - p.expLo + 1

/-! ### Bounds of the target -/

/-- `unsigned_max_bits`. -/
def unsignedMaxBits (width : ℕ) : ℕ := 2 ^ width - 1

/-- `signed_max_bits`. -/
def signedMaxBits (width : ℕ) : ℕ := 2 ^ (width - 1) - 1

/-- `int_max_bits`. -/
def intMaxBits (width : ℕ) (signed : Bool) : ℕ :=
  if signed then signedMaxBits width else unsignedMaxBits width

/-- `int_min_bits`. -/
def intMinBits (width : ℕ) (signed : Bool) : ℕ := if signed then 2 ^ (width - 1) else 0

/-! ### The fields of a pattern -/

section Fields

variable (value : Expr) (width : ℕ) (p : Ieee754Params)

/-- `exp_raw`. -/
def expRaw : Expr := extract value p.expHi p.expLo

/-- `mantissa`. -/
def mantissa : Expr := extract value (p.expLo - 1) 0

/-- `sign_is_neg`. -/
def signIsNeg : Expr := .eq (extract value (width - 1) (width - 1)) (bvConst 1 1)

/-- `mantissa_is_zero`. -/
def mantissaIsZero : Expr := .eq (mantissa value p) (bvConst p.expLo 0)

/-- `special_exp`: the exponent of infinities and of what is not a number. -/
def specialExp : Expr := .eq (expRaw value p) (bvConst p.expWidth (unsignedMaxBits p.expWidth))

/-- `exp_unbiased`. -/
def expUnbiased : Expr := .bv .sub (expRaw value p) (bvConst p.expWidth p.bias)

/-- The unbiased exponent at the width the encoder works in. -/
def expWide (workWidth : ℕ) : Expr :=
  .app (.bvSignExtend (workWidth - p.expWidth)) [expUnbiased value p]

/-- The unbiased exponent is at least `k`. -/
def expAtLeast (workWidth k : ℕ) : Expr :=
  .bvCmp .sge (expWide value p workWidth) (bvConst workWidth k)

end Fields

/-! ### Encoders -/

/-- `work_width` of `build_float_to_int_expr`. -/
def truncationWidth (p : Ieee754Params) (targetWidth : ℕ) : ℕ :=
  max (max targetWidth (p.mantBits + 1)) p.expWidth + 1

/-- `integer_unsigned`: the significand shifted by the exponent. -/
def integerUnsigned (value : Expr) (p : Ieee754Params) (workWidth : ℕ) : Expr :=
  let fullMant : Expr := .app .bvConcat [bvConst 1 1, mantissa value p]
  let mantWide : Expr := .app (.bvZeroExtend (workWidth - (p.mantBits + 1))) [fullMant]
  let mantBits := bvConst workWidth p.mantBits
  let shiftLeftAmt := Expr.bv .sub (expWide value p workWidth) mantBits
  let shiftRightAmt := Expr.bv .sub mantBits (expWide value p workWidth)
  .ite (expAtLeast value p workWidth p.mantBits) (.bv .shl mantWide shiftLeftAmt)
    (.ite (expAtLeast value p workWidth 0) (.bv .lshr mantWide shiftRightAmt)
      (bvConst workWidth 0))

/-- `build_float_to_int_expr`. -/
def buildFloatToIntExpr (value : Expr) (targetWidth : ℕ) (isSigned : Bool) : Option Expr := do
  let width ← value.sort.bitvecWidth
  let p ← ieee754Params width
  let workWidth := truncationWidth p targetWidth
  let magnitude := integerUnsigned value p workWidth
  let result :=
    if isSigned then .ite (signIsNeg value width) (.app (.bvUn .neg) [magnitude]) magnitude
    else .ite (signIsNeg value width) (bvConst workWidth 0) magnitude
  return if workWidth > targetWidth then extract result (targetWidth - 1) 0
    else if workWidth < targetWidth then .app (.bvZeroExtend (targetWidth - workWidth)) [result]
    else result

/-- `build_float_to_int_saturating_expr`. -/
def buildFloatToIntSaturatingExpr (value : Expr) (targetWidth : ℕ) (isSigned : Bool) :
    Option Expr := do
  let truncated ← buildFloatToIntExpr value targetWidth isSigned
  let width ← value.sort.bitvecWidth
  let p ← ieee754Params width
  let neg := signIsNeg value width
  let special := specialExp value p
  let zeroMant := mantissaIsZero value p
  let isNan : Expr := .and [special, .not zeroMant]
  let isPosInf : Expr := .and [.and [special, zeroMant], .not neg]
  let isNegInf : Expr := .and [.and [special, zeroMant], neg]
  let workWidth := max targetWidth p.expWidth + 1
  -- the magnitude is at least that of the bound, which a signed type has one exponent earlier
  let exceeds := expAtLeast value p workWidth (targetWidth - isSigned.toNat)
  let intMin := bvConst targetWidth (intMinBits targetWidth isSigned)
  let intMax := bvConst targetWidth (intMaxBits targetWidth isSigned)
  return .ite isNan (bvConst targetWidth 0)
    (.ite isPosInf intMax
      (.ite isNegInf intMin
        (.ite (.and [exceeds, .not neg]) intMax (.ite (.and [exceeds, neg]) intMin truncated))))

/-- `build_float_to_int_ub_components`: not finite, and finite but out of range. -/
def buildFloatToIntUbComponents (value : Expr) (targetWidth : ℕ) (isSigned : Bool) :
    Option (Expr × Expr) := do
  let width ← value.sort.bitvecWidth
  let p ← ieee754Params width
  let neg := signIsNeg value width
  let eGe := expAtLeast value p (max targetWidth p.expWidth + 2)
  let outOfRange : Expr :=
    if isSigned then
      let posOverflow : Expr := .and [.not neg, eGe (targetWidth - 1)]
      let negOverflow : Expr :=
        .and [neg, .or [eGe targetWidth,
          .and [eGe (targetWidth - 1), .not (mantissaIsZero value p)]]]
      .or [posOverflow, negOverflow]
    else .or [.and [.not neg, eGe targetWidth], .and [neg, eGe 0]]
  return (specialExp value p, .and [.not (specialExp value p), outOfRange])

/-- `build_float_to_int_ub_free_predicate`. -/
def buildFloatToIntUbFreePredicate (value : Expr) (targetWidth : ℕ) (isSigned : Bool) :
    Option Expr := do
  let (nonFinite, outOfRange) ← buildFloatToIntUbComponents value targetWidth isSigned
  return .not (.or [nonFinite, outOfRange])

/-! ### The formats -/

open Machine

/-- The supported formats. -/
def ieeeFormats : List FloatFormat :=
  [⟨5, 10, by decide⟩, ⟨8, 23, by decide⟩, ⟨11, 52, by decide⟩, ⟨15, 112, by decide⟩]

/-- Where the fields of a format are. -/
def params (f : FloatFormat) : Ieee754Params :=
  ⟨f.expBits + f.mantBits - 1, f.mantBits, f.mantBits, f.bias⟩

theorem ieee754Params_width {f : FloatFormat} (hf : f ∈ ieeeFormats) :
    ieee754Params f.width = some (params f) := by
  simp only [ieeeFormats, List.mem_cons, List.not_mem_nil, or_false] at hf
  rcases hf with rfl | rfl | rfl | rfl <;> rfl

theorem mantBits_pos {f : FloatFormat} (hf : f ∈ ieeeFormats) : 0 < f.mantBits := by
  simp only [ieeeFormats, List.mem_cons, List.not_mem_nil, or_false] at hf
  rcases hf with rfl | rfl | rfl | rfl <;> decide

end Floats

end TrustMc
