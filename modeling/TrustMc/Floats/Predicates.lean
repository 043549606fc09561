import TrustMc.Floats.Exact

/-!
# Predicates on float patterns

The model of `build_float_predicate_expr`: the tests of `is_nan`, `is_infinite`, `is_normal`,
`is_finite` and of the sign, as comparisons of the fields of a pattern. `holds_predicate` says
that each is the predicate of its name.
-/

namespace TrustMc

namespace Floats

open Machine Carriers.Val TrustMc.Expr

/-- `FloatPredicateKind`. -/
inductive FloatPredicateKind
  | nan | infinite | normal | finite | signPositive | signNegative
  deriving DecidableEq, Repr

/-- The test of a kind, for the width and the fields of a format. -/
def predicateTerm (value : Expr) (width : ℕ) (p : Ieee754Params) : FloatPredicateKind → Expr
  | .nan => .and [specialExp value p, .not (.eq (mantissa value p) (bvConst p.mantBits 0))]
  | .infinite => .and [specialExp value p, .eq (mantissa value p) (bvConst p.mantBits 0)]
  | .normal =>
    .and [.not (.eq (expRaw value p) (bvConst p.expWidth 0)), .not (specialExp value p)]
  | .finite => .not (specialExp value p)
  | .signPositive => .eq (extract value (width - 1) (width - 1)) (bvConst 1 0)
  | .signNegative => .eq (extract value (width - 1) (width - 1)) (bvConst 1 1)

/-- `build_float_predicate_expr`. -/
def buildFloatPredicateExpr (value : Expr) (kind : FloatPredicateKind) : Option Expr := do
  let width ← value.sort.bitvecWidth
  let p ← ieee754Params width
  return predicateTerm value width p kind

/-- What a kind says of a pattern. -/
def FloatPredicateKind.Holds (f : FloatFormat) (x : ℕ) : FloatPredicateKind → Prop
  | nan => f.read x = .nan
  | infinite => ∃ negative, f.read x = .infinite negative
  | normal => f.exponent x ≠ 0 ∧ ∃ q, f.read x = .finite q
  | finite => ∃ q, f.read x = .finite q
  | signPositive => f.negative x = false
  | signNegative => f.negative x = true

variable {T : Theory} {ρ : T.Env} {f : FloatFormat} {value : Expr} {x : ℕ}

theorem read_eq_nan_iff : f.read x = .nan ↔ f.exponent x = f.maxExponent ∧ f.mantissa x ≠ 0 := by
  rw [FloatFormat.read]
  by_cases he : f.exponent x = f.maxExponent
  · by_cases hm : f.mantissa x = 0 <;> simp [he, hm]
  · simp [he]

theorem exists_read_infinite_iff :
    (∃ negative, f.read x = .infinite negative) ↔
      f.exponent x = f.maxExponent ∧ f.mantissa x = 0 := by
  rw [FloatFormat.read]
  by_cases he : f.exponent x = f.maxExponent
  · by_cases hm : f.mantissa x = 0 <;> simp [he, hm]
  · simp [he]

theorem exists_read_finite_iff :
    (∃ q, f.read x = .finite q) ↔ f.exponent x ≠ f.maxExponent := by
  rw [FloatFormat.read]
  by_cases he : f.exponent x = f.maxExponent
  · by_cases hm : f.mantissa x = 0 <;> simp [he, hm]
  · simp [he]

/-- Each test is the predicate of its name. -/
theorem holds_predicate (hv : HasNat ρ value f.width x) (hm : 0 < f.mantBits)
    (kind : FloatPredicateKind) :
    Holds ρ (predicateTerm value f.width (params f) kind) ↔ kind.Holds f x := by
  have hspecial := holds_specialExp hv
  have hmant : Holds ρ (.eq (mantissa value (params f)) (bvConst (params f).mantBits 0)) ↔
      f.mantissa x = 0 := (hasNat_mantissa hv hm).holds_eq (hasNat_const (by positivity))
  have hexp : Holds ρ (.eq (expRaw value (params f)) (bvConst (params f).expWidth 0)) ↔
      f.exponent x = 0 := by
    rw [expWidth_params]
    exact (hasNat_expRaw hv).holds_eq (hasNat_const (by positivity))
  have hneg := holds_signIsNeg hv
  cases kind with
  | nan =>
    rw [predicateTerm, FloatPredicateKind.Holds, read_eq_nan_iff]
    simp [hspecial, hmant]
  | infinite =>
    rw [predicateTerm, FloatPredicateKind.Holds, exists_read_infinite_iff]
    simp [hspecial, hmant]
  | normal =>
    rw [predicateTerm, FloatPredicateKind.Holds, exists_read_finite_iff]
    simp [hspecial, hexp]
  | finite =>
    rw [predicateTerm, FloatPredicateKind.Holds, exists_read_finite_iff]
    simp [hspecial]
  | signPositive =>
    have hsign := hv.extract (f.width - 1) (f.width - 1)
    rw [Nat.sub_self, zero_add, pow_one] at hsign
    rw [predicateTerm, FloatPredicateKind.Holds, extract, bvConst,
      hsign.holds_eq (hasNat_const (by norm_num)), FloatFormat.negative, decide_eq_false_iff_not,
      FloatFormat.width, Nat.add_sub_cancel]
    omega
  | signNegative => exact hneg

/-- A comparison of a field with a number. -/
theorem wellSorted_fieldTest {w hi lo k n : ℕ} (hw : value.WellSorted)
    (hs : value.sort = .bitvec w) (hlo : lo ≤ hi) (hhi : hi < w) (hk : hi - lo + 1 = k) :
    (Expr.eq (extract value hi lo) (bvConst k n)).WellSorted := by
  simp [extract, bvConst, Op.accepts, Op.resultSort, hw, hs, hlo, hhi, hk, SmtSort.isBitvec,
    SmtSort.bitvecWidth]

theorem wellSorted_predicateTerm (hw : value.WellSorted) (hs : value.sort = .bitvec f.width)
    (hm : 0 < f.mantBits) (kind : FloatPredicateKind) :
    (predicateTerm value f.width (params f) kind).WellSorted ∧
      (predicateTerm value f.width (params f) kind).sort = .bool := by
  have htwo := f.two_le_expBits
  have hwidth : f.width = f.expBits + f.mantBits + 1 := rfl
  have hexp : ∀ n, (Expr.eq (expRaw value (params f)) (bvConst (params f).expWidth n)).WellSorted :=
    fun n => wellSorted_fieldTest hw hs (by simp only [params]; omega)
      (by simp only [params]; omega) rfl
  have hmant : (Expr.eq (mantissa value (params f)) (bvConst (params f).mantBits 0)).WellSorted :=
    wellSorted_fieldTest hw hs (Nat.zero_le _) (by simp only [params]; omega)
      (by simp only [params]; omega)
  have hsign : ∀ n, (Expr.eq (extract value (f.width - 1) (f.width - 1)) (bvConst 1 n)).WellSorted :=
    fun n => wellSorted_fieldTest hw hs le_rfl (by omega) (by omega)
  have hspecial : (specialExp value (params f)).WellSorted := hexp _
  have hsort : ∀ a b : Expr, (Expr.eq a b).sort = .bool := fun a b => by simp [Op.resultSort]
  have hspecialSort : (specialExp value (params f)).sort = .bool := hsort _ _
  have hand : ∀ {a b : Expr}, a.WellSorted → a.sort = .bool → b.WellSorted → b.sort = .bool →
      (Expr.and [a, b]).WellSorted ∧ (Expr.and [a, b]).sort = .bool := by
    intro a b ha has hb hbs
    simp [Op.accepts, Op.resultSort, ha, has, hb, hbs, SmtSort.isBool]
  have hnot : ∀ {a : Expr}, a.WellSorted → a.sort = .bool →
      (Expr.not a).WellSorted ∧ (Expr.not a).sort = .bool := by
    intro a ha has
    simp [Op.accepts, Op.resultSort, ha, has]
  cases kind with
  | nan => exact hand hspecial hspecialSort (hnot hmant (hsort _ _)).1 (hnot hmant (hsort _ _)).2
  | infinite => exact hand hspecial hspecialSort hmant (hsort _ _)
  | normal =>
    exact hand (hnot (hexp 0) (hsort _ _)).1 (hnot (hexp 0) (hsort _ _)).2
      (hnot hspecial hspecialSort).1 (hnot hspecial hspecialSort).2
  | finite => exact hnot hspecial hspecialSort
  | signPositive => exact ⟨hsign 0, hsort _ _⟩
  | signNegative => exact ⟨hsign 1, hsort _ _⟩

/-- The predicate is built for the widths of the formats, and is exact. -/
theorem exists_buildFloatPredicateExpr (hf : f ∈ ieeeFormats) (hv : HasNat ρ value f.width x)
    (hw : value.WellSorted) (kind : FloatPredicateKind) :
    ∃ e, buildFloatPredicateExpr value kind = some e ∧ e.WellSorted ∧ e.sort = .bool ∧
      (Holds ρ e ↔ kind.Holds f x) := by
  have hm := mantBits_pos hf
  obtain ⟨hew, hes⟩ := wellSorted_predicateTerm hw hv.sort hm kind
  refine ⟨_, ?_, hew, hes, holds_predicate hv hm kind⟩
  rw [buildFloatPredicateExpr, hv.sort]
  simp only [SmtSort.bitvecWidth, Option.bind_eq_bind, Option.bind_some, ieee754Params_width hf]
  rfl

end Floats

end TrustMc
