import TrustMc.Arithmetic.Checked

/-!
# Constant bit-vectors in address terms

`const_bv_value` and `const_extract_value`: the value and the width of a term, where its
structure shows them. An extract is looked for in the lane it reads only, so that a constant
object number is found beside an offset that is not constant.

* `constBvValue_sound`: the value that is found is the term's value under every assignment.
-/

namespace TrustMc

namespace Pointer

open Arithmetic Carriers Carriers.Val TrustMc.Expr

/-! ### Evaluation -/

/-- An operation on two constants of one width. -/
def sameWidth (f : ℕ → ℕ → ℕ → ℕ) (a b : Option (ℕ × ℕ)) : Option (ℕ × ℕ) := do
  let (aValue, aWidth) ← a
  let (bValue, bWidth) ← b
  if aWidth ≠ bWidth then none else some (f aWidth aValue bValue, aWidth)

/-- `(value % &modulus + &modulus) % modulus`, the remainder of a value that may be negative. -/
def wrapped (value : ℤ) (modulus : ℕ) : ℕ := ((value.tmod modulus + modulus).tmod modulus).toNat

mutual

/-- `const_bv_value`. Constants are in range, and no operation leaves the naturals. -/
def constBvValue : Expr → Option (ℕ × ℕ)
  | .app (.bitVecConst width value) _ => some (value.toNat, width)
  | .app .bvConcat [high, low] => do
    let (highValue, highWidth) ← constBvValue high
    let (lowValue, lowWidth) ← constBvValue low
    -- `checked_add` of the two widths
    if highWidth + lowWidth < 2 ^ 32 then
      some (highValue <<< lowWidth ||| lowValue, highWidth + lowWidth)
    else none
  | .app (.bvExtract high low) [e] => constExtractValue e high low
  | .app (.bvBin .add) [a, b] =>
    sameWidth (fun w x y => (x + y) &&& (2 ^ w - 1)) (constBvValue a) (constBvValue b)
  | .app (.bvBin .sub) [a, b] =>
    sameWidth (fun w x y => wrapped ((x : ℤ) - y) (2 ^ w)) (constBvValue a) (constBvValue b)
  | .app (.bvBin .and) [a, b] =>
    sameWidth (fun _ x y => x &&& y) (constBvValue a) (constBvValue b)
  | .app (.bvZeroExtend extraBits) [inner] => do
    let (value, width) ← constBvValue inner
    some (value, width + extraBits)
  | .app (.bvSignExtend extraBits) [inner] => do
    let (value, width) ← constBvValue inner
    if 2 ^ (width - 1) ≤ value then
      some (value ||| ((2 ^ (width + extraBits) - 1) - (2 ^ width - 1)), width + extraBits)
    else some (value, width + extraBits)
  | .app (.int2Bv width) [.app (.intConst value) _] =>
    if value < 0 then some (wrapped value (2 ^ width), width)
    else some (value.toNat &&& (2 ^ width - 1), width)
  | _ => none
termination_by e => (sizeOf e, 0)

/-- `const_extract_value`. -/
def constExtractValue (e : Expr) (high low : ℕ) : Option (ℕ × ℕ) :=
  if high < low then none
  else
    match e with
    | .app .bvConcat [hiLane, loLane] => do
      let loWidth ← loLane.sort.bitvecWidth
      if high < loWidth then constExtractValue loLane high low
      else if loWidth ≤ low then constExtractValue hiLane (high - loWidth) (low - loWidth)
      -- a range across both lanes needs the value of the whole term
      else constExtractFallback (.app .bvConcat [hiLane, loLane]) high low
    | .app (.bvExtract _ innerLow) [inner] =>
      constExtractValue inner (innerLow + high) (innerLow + low)
    | .app (.bvZeroExtend extraBits) [inner] => do
      let innerWidth ← inner.sort.bitvecWidth
      if high < innerWidth then constExtractValue inner high low
      -- above the inner term are zeros only
      else if innerWidth ≤ low then some (0, high - low + 1)
      else constExtractFallback (.app (.bvZeroExtend extraBits) [inner]) high low
    | .app (.bvSignExtend extraBits) [inner] => do
      let innerWidth ← inner.sort.bitvecWidth
      if high < innerWidth then constExtractValue inner high low
      else constExtractFallback (.app (.bvSignExtend extraBits) [inner]) high low
    | e => constExtractFallback e high low
termination_by (sizeOf e, 2)

/-- `const_extract_fallback`. -/
def constExtractFallback (e : Expr) (high low : ℕ) : Option (ℕ × ℕ) := do
  let (value, width) ← constBvValue e
  if width ≤ high then none
  else some (value >>> low &&& (2 ^ (high - low + 1) - 1), high - low + 1)
termination_by (sizeOf e, 1)

end

@[simp]
theorem constBvValue_bitVecConst {w : ℕ} (x : BitVec w) :
    constBvValue (.bitVecConst x) = some (x.toNat, w) := by
  rw [constBvValue]

/-! ### What is found is the value -/

variable {T : Theory} {ρ : T.Env}

/-- The term is the number, at the width. -/
def HasBits (ρ : T.Env) (e : Expr) (r : ℕ × ℕ) : Prop :=
  ∃ (w : ℕ) (x : BitVec w), e.eval ρ = ofBV x ∧ r = (x.toNat, w)

theorem wrapped_eq {value : ℤ} {modulus : ℕ} (h : 0 < modulus) :
    (wrapped value modulus : ℤ) = value % modulus := by
  have hpos : (0 : ℤ) < modulus := by exact_mod_cast h
  have hnonneg : 0 ≤ value.tmod modulus + modulus := by
    have := Int.lt_tmod_of_pos value hpos
    omega
  rw [wrapped, Int.toNat_of_nonneg (Int.tmod_nonneg _ hnonneg),
    Int.tmod_eq_emod_of_nonneg hnonneg, Int.add_emod_right, Int.tmod_def,
    Int.sub_mul_emod_self_left]

theorem exists_of_sameWidth {f : ℕ → ℕ → ℕ → ℕ} {a b : Option (ℕ × ℕ)} {r : ℕ × ℕ}
    (h : sameWidth f a b = some r) :
    ∃ w x y, a = some (x, w) ∧ b = some (y, w) ∧ r = (f w x y, w) := by
  simp only [sameWidth, Option.bind_eq_bind, Option.bind_eq_some_iff, Prod.exists] at h
  obtain ⟨x, w, rfl, y, w', rfl, h⟩ := h
  split_ifs at h with hw
  rw [not_not] at hw
  subst hw
  exact ⟨w, x, y, rfl, rfl, (Option.some.inj h).symm⟩

/-- An operation on constants, where it is the operator's function. -/
theorem hasBits_of_sameWidth {f : ℕ → ℕ → ℕ → ℕ} {g : BvBin} {a b : Expr} {r : ℕ × ℕ}
    (ha : ∀ r, constBvValue a = some r → HasBits ρ a r)
    (hb : ∀ r, constBvValue b = some r → HasBits ρ b r)
    (hfg : ∀ (w : ℕ) (x y : BitVec w), (g.denote x y).toNat = f w x.toNat y.toNat)
    (h : sameWidth f (constBvValue a) (constBvValue b) = some r) : HasBits ρ (bv g a b) r := by
  obtain ⟨w, x, y, hx, hy, rfl⟩ := exists_of_sameWidth h
  obtain ⟨n, a', hae, ha'⟩ := ha _ hx
  obtain ⟨m, b', hbe, hb'⟩ := hb _ hy
  obtain ⟨rfl, rfl⟩ := Prod.mk.inj ha'
  obtain ⟨rfl, rfl⟩ := Prod.mk.inj hb'
  exact ⟨_, g.denote a' b', eval_bv_of hae hbe, by rw [hfg]⟩

/-! ### Lanes -/

/-- The bits `high..low` of a bit-vector, as a number and a width. -/
def laneOf {w : ℕ} (x : BitVec w) (high low : ℕ) : ℕ × ℕ :=
  (x.toNat / 2 ^ low % 2 ^ (high - low + 1), high - low + 1)

section Lanes

variable {w n high low : ℕ}

theorem laneOf_eq (x : BitVec w) (high low : ℕ) :
    laneOf x high low = ((x.extractLsb high low).toNat, high - low + 1) := by
  rw [laneOf, BitVec.extractLsb_toNat, Nat.shiftRight_eq_div_pow]

theorem laneOf_congr {x : BitVec w} {y : BitVec n} (h : x.toNat = y.toNat) (high low : ℕ) :
    laneOf x high low = laneOf y high low := by
  rw [laneOf, laneOf, h]

/-- A lane that lies in the low part. -/
theorem laneOf_append_low (a : BitVec n) (b : BitVec w) (h : high < w) (hle : low ≤ high) :
    laneOf (a ++ b) high low = laneOf b high low := by
  rw [laneOf_eq, laneOf_eq]
  congr 2
  refine BitVec.eq_of_getLsbD_eq fun i hi => ?_
  simp only [BitVec.getLsbD_extractLsb, BitVec.getLsbD_append, show low + i < w by omega,
    if_true]

/-- A lane that lies in the high part. -/
theorem laneOf_append_high (a : BitVec n) (b : BitVec w) (h : w ≤ low) (hle : low ≤ high) :
    laneOf (a ++ b) high low = laneOf a (high - w) (low - w) := by
  obtain ⟨k, rfl⟩ := Nat.exists_eq_add_of_le h
  have hdiv : (a.toNat * 2 ^ w + b.toNat) / 2 ^ w = a.toNat := by
    rw [add_comm, Nat.add_mul_div_right _ _ (Nat.two_pow_pos w), Nat.div_eq_of_lt b.isLt, zero_add]
  have hwidth : high - w - k = high - (w + k) := by omega
  rw [laneOf_eq, toNat_extractLsb_append, pow_add, ← Nat.div_div_eq_div_mul, hdiv, laneOf,
    Nat.add_sub_cancel_left, hwidth]

/-- A lane of a lane. -/
theorem laneOf_extractLsb {innerHigh innerLow : ℕ} (x : BitVec w)
    (h : high < innerHigh - innerLow + 1) (hle : low ≤ high) :
    laneOf (x.extractLsb innerHigh innerLow) high low =
      laneOf x (innerLow + high) (innerLow + low) := by
  have hinner := congrArg Prod.fst (laneOf_eq x innerHigh innerLow)
  simp only [laneOf, Nat.add_sub_add_left] at hinner ⊢
  rw [← hinner]
  congr 1
  refine Nat.eq_of_testBit_eq fun i => ?_
  simp only [Nat.testBit_mod_two_pow, Nat.testBit_div_two_pow]
  by_cases hi : i < high - low + 1
  · simp only [hi, decide_true, Bool.true_and, show i + low < innerHigh - innerLow + 1 by omega]
    congr 1
    omega
  · simp [hi]

theorem laneOf_signExtend (x : BitVec w) (h : high < w) (hle : low ≤ high) :
    laneOf (x.signExtend (w + n)) high low = laneOf x high low := by
  rw [laneOf_eq, laneOf_eq]
  congr 2
  refine BitVec.eq_of_getLsbD_eq fun i hi => ?_
  simp only [BitVec.getLsbD_extractLsb, BitVec.getLsbD_signExtend,
    show low + i < w + n by omega, show low + i < w by omega, decide_true, Bool.true_and, if_true]

/-- A lane of the zeros that a value is extended by. -/
theorem laneOf_setWidth_high (x : BitVec w) (h : w ≤ low) :
    laneOf (x.setWidth (w + n)) high low = (0, high - low + 1) := by
  have hlt : x.toNat < 2 ^ low := x.isLt.trans_le (Nat.pow_le_pow_right (by decide) h)
  rw [laneOf, BitVec.toNat_setWidth_of_le (by omega), Nat.div_eq_of_lt hlt, Nat.zero_mod]

/-- Extending by the sign, as the code does it: the bits above are set. -/
theorem toNat_signExtend_or (x : BitVec w) (n : ℕ) :
    (x.signExtend (w + n)).toNat =
      if 2 ^ (w - 1) ≤ x.toNat then x.toNat ||| ((2 ^ (w + n) - 1) - (2 ^ w - 1)) else x.toNat := by
  have hlt : 2 ^ w ≤ 2 ^ (w + n) := Nat.pow_le_pow_right (by decide) (by omega)
  have hmask : 2 ^ (w + n) - 1 - (2 ^ w - 1) = 2 ^ w * (2 ^ n - 1) := by
    have hpos := Nat.two_pow_pos w
    rw [Nat.mul_sub, ← pow_add, mul_one]
    omega
  have hadd : x.toNat ||| 2 ^ w * (2 ^ n - 1) = x.toNat + (2 ^ (w + n) - 2 ^ w) := by
    rw [Nat.or_comm, ← Nat.two_pow_add_eq_or_of_lt x.isLt, add_comm, Nat.mul_sub, ← pow_add,
      mul_one]
  rw [BitVec.toNat_signExtend, BitVec.toNat_setWidth_of_le (by omega), hmask, hadd,
    BitVec.msb_eq_decide]
  split_ifs with h h' h'
  · rfl
  · exact absurd (of_decide_eq_true h) h'
  · exact absurd (decide_eq_true h') h
  · rfl

end Lanes

/-! ### Evaluation is sound -/

/-- The fallback reads the lane off the whole value. -/
theorem laneOf_of_fallback {e : Expr} {high low w : ℕ} {x : BitVec w} {r : ℕ × ℕ}
    (he : ∀ r, constBvValue e = some r → HasBits ρ e r) (hx : e.eval ρ = ofBV x)
    (h : constExtractFallback e high low = some r) : r = laneOf x high low := by
  rw [constExtractFallback] at h
  simp only [Option.bind_eq_bind, Option.bind_eq_some_iff, Prod.exists] at h
  obtain ⟨v, n, hv, h⟩ := h
  split_ifs at h with hwidth
  obtain ⟨n', y, hy, hr⟩ := he _ hv
  obtain ⟨rfl, rfl⟩ := Prod.mk.inj hr
  rw [← Option.some.inj h, Nat.and_two_pow_sub_one_eq_mod, Nat.shiftRight_eq_div_pow, laneOf,
    toNat_eq_of_ofBV_eq (hx.symm.trans hy)]

/-- Two readings of one term are of one width, and one number. -/
theorem readings_agree {e : Expr} {w n : ℕ} {x : BitVec w} {y : BitVec n}
    (hx : e.eval ρ = ofBV x) (hy : e.eval ρ = ofBV y) : w = n ∧ x.toNat = y.toNat :=
  ⟨SmtSort.bitvec.inj ((sort_of_ofBV hx).symm.trans (sort_of_ofBV hy)),
    toNat_eq_of_ofBV_eq (hx.symm.trans hy)⟩

/-- The argument of a unary bit-vector operator. -/
theorem exists_arg {op : Op} {a : Expr} (hws : (Expr.app op [a]).WellSorted)
    (hop : ∀ s, op.accepts [s] = true → s.isBitvec = true) :
    a.WellSorted ∧ ∃ (w : ℕ) (x : BitVec w), a.sort = .bitvec w ∧ a.eval ρ = ofBV x := by
  obtain ⟨hacc, hargs⟩ := wellSorted_app.1 hws
  exact ⟨hargs a (by simp), exists_ofBV_of_isBitvec (hop _ hacc)⟩

/-- The lanes of a concatenation. -/
theorem exists_lanes {a b : Expr} (hws : (Expr.app .bvConcat [a, b]).WellSorted) :
    (a.WellSorted ∧ ∃ (n : ℕ) (x : BitVec n), a.sort = .bitvec n ∧ a.eval ρ = ofBV x) ∧
      b.WellSorted ∧ ∃ (n : ℕ) (x : BitVec n), b.sort = .bitvec n ∧ b.eval ρ = ofBV x := by
  obtain ⟨hacc, hargs⟩ := wellSorted_app.1 hws
  simp only [List.map_cons, List.map_nil, Op.accepts, Bool.and_eq_true] at hacc
  exact ⟨⟨hargs a (by simp), exists_ofBV_of_isBitvec hacc.1⟩,
    hargs b (by simp), exists_ofBV_of_isBitvec hacc.2⟩

theorem toNat_denote_sub {w : ℕ} (x y : BitVec w) :
    (BvBin.sub.denote x y).toNat = wrapped ((x.toNat : ℤ) - y.toNat) (2 ^ w) := by
  have hle : y.toNat ≤ 2 ^ w := y.isLt.le
  have hwrapped : (wrapped ((x.toNat : ℤ) - y.toNat) (2 ^ w) : ℤ) =
      ((x.toNat : ℤ) - y.toNat) % (2 ^ w : ℕ) := wrapped_eq (Nat.two_pow_pos w)
  rw [← Int.add_emod_right] at hwrapped
  have hsum : (x.toNat : ℤ) - y.toNat + (2 ^ w : ℕ) = (2 ^ w - y.toNat + x.toNat : ℕ) := by
    omega
  rw [hsum] at hwrapped
  rw [BvBin.denote, BitVec.toNat_sub]
  exact_mod_cast hwrapped.symm

theorem toNat_ofInt_masked (w : ℕ) (z : ℤ) :
    (BitVec.ofInt w z).toNat =
      if z < 0 then wrapped z (2 ^ w) else z.toNat &&& (2 ^ w - 1) := by
  rw [BitVec.toNat_ofInt]
  split_ifs with hz
  · rw [← wrapped_eq (Nat.two_pow_pos w), Int.toNat_natCast]
  · obtain ⟨n, rfl⟩ := Int.eq_ofNat_of_zero_le (not_lt.1 hz)
    rw [Nat.and_two_pow_sub_one_eq_mod]
    exact congrArg Int.toNat (Int.natCast_mod n (2 ^ w)).symm

mutual

/-- **A value that is found** is the term's. -/
theorem constBvValue_sound {e : Expr} (hws : e.WellSorted) {r : ℕ × ℕ}
    (h : constBvValue e = some r) : HasBits ρ e r := by
  rw [constBvValue.eq_def] at h
  split at h
  · exact ⟨_, _, by rw [eval_app, Op.interp], (Option.some.inj h).symm⟩
  · -- two lanes
    rename_i high low
    obtain ⟨⟨hhigh, -⟩, hlow, -⟩ := exists_lanes (ρ := ρ) hws
    simp only [Option.bind_eq_bind, Option.bind_eq_some_iff, Prod.exists] at h
    obtain ⟨v, n, hv, v', n', hv', h⟩ := h
    split_ifs at h with hsum
    obtain ⟨_, x, hx, heq⟩ := constBvValue_sound hhigh hv
    obtain ⟨_, y, hy, heq'⟩ := constBvValue_sound hlow hv'
    obtain ⟨rfl, rfl⟩ := Prod.mk.inj heq
    obtain ⟨rfl, rfl⟩ := Prod.mk.inj heq'
    exact ⟨_, x ++ y, eval_concat_of hx hy,
      by rw [← Option.some.inj h, BitVec.toNat_append]⟩
  · -- a part of a term
    rename_i high low a
    obtain ⟨hacc, hargs⟩ := wellSorted_app.1 hws
    simp only [List.map_cons, List.map_nil, Op.accepts, Bool.and_eq_true,
      decide_eq_true_eq] at hacc
    obtain ⟨w, x, hw, hx⟩ := exists_ofBV_of_isBitvec (ρ := ρ) hacc.1
    have hlt : high < w := by simpa [hw] using hacc.2.2
    refine ⟨_, _, eval_extract_of hx, ?_⟩
    rw [← laneOf_eq]
    exact constExtractValue_sound (hargs a (by simp)) hx hlt h
  · -- addition, subtraction and conjunction of words of one width
    have hargs := (wellSorted_app.1 hws).2
    refine hasBits_of_sameWidth (fun r hr => constBvValue_sound (hargs _ (by simp)) hr)
      (fun r hr => constBvValue_sound (hargs _ (by simp)) hr) (fun w x y => ?_) h
    rw [BvBin.denote, BitVec.toNat_add, Nat.and_two_pow_sub_one_eq_mod]
  · have hargs := (wellSorted_app.1 hws).2
    exact hasBits_of_sameWidth (fun r hr => constBvValue_sound (hargs _ (by simp)) hr)
      (fun r hr => constBvValue_sound (hargs _ (by simp)) hr) (fun w x y => toNat_denote_sub x y) h
  · have hargs := (wellSorted_app.1 hws).2
    exact hasBits_of_sameWidth (fun r hr => constBvValue_sound (hargs _ (by simp)) hr)
      (fun r hr => constBvValue_sound (hargs _ (by simp)) hr) (fun w x y => BitVec.toNat_and x y) h
  · -- zero extension
    rename_i extra inner
    simp only [Option.bind_eq_bind, Option.bind_eq_some_iff, Prod.exists] at h
    obtain ⟨v, n, hv, h⟩ := h
    obtain ⟨_, x, hx, heq⟩ := constBvValue_sound ((wellSorted_app.1 hws).2 _ (by simp)) hv
    obtain ⟨rfl, rfl⟩ := Prod.mk.inj heq
    refine ⟨_, x.setWidth (n + extra), ?_, ?_⟩
    · rw [eval_bvZeroExtend (sort_of_ofBV hx), bits_of_ofBV hx]
    · rw [← Option.some.inj h, BitVec.toNat_setWidth_of_le (by omega)]
  · -- sign extension
    rename_i extra inner
    simp only [Option.bind_eq_bind, Option.bind_eq_some_iff, Prod.exists] at h
    obtain ⟨v, n, hv, h⟩ := h
    obtain ⟨_, x, hx, heq⟩ := constBvValue_sound ((wellSorted_app.1 hws).2 _ (by simp)) hv
    obtain ⟨rfl, rfl⟩ := Prod.mk.inj heq
    refine ⟨_, x.signExtend (n + extra), ?_, ?_⟩
    · rw [eval_bvSignExtend (sort_of_ofBV hx), bits_of_ofBV hx]
    · rw [toNat_signExtend_or]
      split_ifs at h ⊢
      · exact (Option.some.inj h).symm
      · exact (Option.some.inj h).symm
  · -- a lifted literal
    rename_i width z args
    refine ⟨width, BitVec.ofInt width z, by simp [Op.interp], ?_⟩
    rw [toNat_ofInt_masked]
    split_ifs at h ⊢
    · exact (Option.some.inj h).symm
    · exact (Option.some.inj h).symm
  · cases h
termination_by (sizeOf e, 0)

/-- **A lane that is found** is the term's. -/
theorem constExtractValue_sound {e : Expr} (hws : e.WellSorted) {high low w : ℕ} {x : BitVec w}
    (hx : e.eval ρ = ofBV x) (hhigh : high < w) {r : ℕ × ℕ}
    (h : constExtractValue e high low = some r) : r = laneOf x high low := by
  have hvalue : ∀ r, constBvValue e = some r → HasBits ρ e r :=
    fun r hr => constBvValue_sound hws hr
  rw [constExtractValue.eq_def] at h
  split_ifs at h with hle
  rw [not_lt] at hle
  split at h
  · obtain ⟨⟨hhi, n, y, -, hy⟩, hlo, m, z, hzs, hz⟩ := exists_lanes (ρ := ρ) hws
    obtain ⟨rfl, hnat⟩ := readings_agree hx (eval_concat_of hy hz)
    rw [laneOf_congr hnat]
    rw [hzs] at h
    change (if high < m then _ else _) = some r at h
    split_ifs at h with hbelow habove
    · rw [laneOf_append_low y z hbelow hle]
      exact constExtractValue_sound hlo hz hbelow h
    · rw [laneOf_append_high y z habove hle]
      exact constExtractValue_sound hhi hy (by omega) h
    · exact laneOf_of_fallback hvalue (eval_concat_of hy hz) h
  · rename_i innerHigh innerLow inner
    obtain ⟨hinner, m, y, hys, hy⟩ := exists_arg (ρ := ρ) hws fun s hs => by
      simp only [Op.accepts, Bool.and_eq_true] at hs
      exact hs.1
    obtain ⟨rfl, hnat⟩ := readings_agree hx (eval_extract_of hy)
    have hacc := (wellSorted_app.1 hws).1
    simp only [List.map_cons, List.map_nil, Op.accepts, Bool.and_eq_true, hys,
      SmtSort.width_bitvec] at hacc
    obtain ⟨hinnerLow, hinnerHigh⟩ := of_decide_eq_true hacc.2
    rw [laneOf_congr hnat, laneOf_extractLsb y hhigh hle]
    exact constExtractValue_sound hinner hy (by omega) h
  · rename_i extra inner
    obtain ⟨hinner, m, y, hys, hy⟩ := exists_arg (ρ := ρ) hws fun s hs => hs
    have hext : (app (.bvZeroExtend extra) [inner]).eval ρ = ofBV (y.setWidth (m + extra)) := by
      rw [eval_bvZeroExtend hys, bits_of_ofBV hy]
    obtain ⟨rfl, hnat⟩ := readings_agree hx hext
    rw [hys] at h
    change (if high < m then _ else _) = some r at h
    rw [laneOf_congr hnat]
    split_ifs at h with hbelow habove
    · rw [laneOf_congr (BitVec.toNat_setWidth_of_le (by omega))]
      exact constExtractValue_sound hinner hy hbelow h
    · rw [laneOf_setWidth_high y habove]
      exact (Option.some.inj h).symm
    · exact laneOf_of_fallback hvalue hext h
  · rename_i extra inner
    obtain ⟨hinner, m, y, hys, hy⟩ := exists_arg (ρ := ρ) hws fun s hs => hs
    have hext : (app (.bvSignExtend extra) [inner]).eval ρ = ofBV (y.signExtend (m + extra)) := by
      rw [eval_bvSignExtend hys, bits_of_ofBV hy]
    obtain ⟨rfl, hnat⟩ := readings_agree hx hext
    rw [hys] at h
    change (if high < m then _ else _) = some r at h
    rw [laneOf_congr hnat]
    split_ifs at h with hbelow
    · rw [laneOf_signExtend y hbelow hle]
      exact constExtractValue_sound hinner hy hbelow h
    · exact laneOf_of_fallback hvalue hext h
  · exact laneOf_of_fallback hvalue hx h
termination_by (sizeOf e, 2)

end

/-- A term with the bits has the width, and is the number. -/
theorem HasBits.eval_eq {e : Expr} {v w : ℕ} (h : HasBits ρ e (v, w)) :
    e.sort = .bitvec w ∧ v < 2 ^ w ∧ e.eval ρ = ofBV (BitVec.ofNat w v) := by
  obtain ⟨w, x, hx, hr⟩ := h
  obtain ⟨rfl, rfl⟩ := Prod.mk.inj hr
  exact ⟨sort_of_ofBV hx, x.isLt, by rw [hx, BitVec.ofNat_toNat, BitVec.setWidth_eq]⟩

/-- **Constant evaluation is sound**: what is found has the width, and is the value under every
assignment, for whole terms and for their lanes. -/
theorem constant_lanes_sound {e : Expr} (hws : e.WellSorted) (ρ : T.Env) {v w : ℕ} :
    (constBvValue e = some (v, w) →
      e.sort = .bitvec w ∧ v < 2 ^ w ∧ e.eval ρ = ofBV (BitVec.ofNat w v)) ∧
    ∀ high low, (app (.bvExtract high low) [e]).WellSorted →
      constExtractValue e high low = some (v, w) →
        (app (.bvExtract high low) [e]).sort = .bitvec w ∧ v < 2 ^ w ∧
          (app (.bvExtract high low) [e]).eval ρ = ofBV (BitVec.ofNat w v) := by
  refine ⟨fun h => (constBvValue_sound hws h).eval_eq, fun high low hextract h => ?_⟩
  -- the lane is what the extract of the term evaluates to
  have hvalue : constBvValue (app (.bvExtract high low) [e]) = some (v, w) := by
    rw [constBvValue, h]
  exact (constBvValue_sound hextract hvalue).eval_eq

/-- A lane that straddles a sign extension and a lane of a constant: `0xF9` and `0b101`. -/
theorem constant_lanes_sound_straddling :
    (app (.bvExtract 6 1) [app .bvConcat [app (.bvSignExtend 4) [.bitVecConst (9 : BitVec 4)],
      app (.bvExtract 3 1) [.bitVecConst (0xAB : BitVec 8)]]]).eval
        (fun _ _ => Inhabited.default : (default : Theory).Env) = ofBV (BitVec.ofNat 6 0b100110) := by
  refine ((constant_lanes_sound ?_ _).2 6 1 ?_ ?_).2.2
  · simp [wellSorted_app, Op.accepts, Op.resultSort]
  · simp [wellSorted_app, Op.accepts, Op.resultSort]
  · simp [constExtractValue, constExtractFallback, constBvValue, Op.resultSort,
      SmtSort.bitvecWidth]

end Pointer

end TrustMc
