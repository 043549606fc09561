import TrustMc.ConstProp.Positional
import TrustMc.Pointer.BvEval

/-!
# Pointer steps

A 64-bit address is an object number above a 32-bit offset. The split steps work on the offset
lane and report whether the step stays in it, the wrapping step works on the whole address, and
all three first try to fold constants.

* `pointer_step_exact`: what the steps compute. A split step reports exactly whether the sum or
  the difference stays in the lane, and is the step of the whole address when it does; folding
  agrees with the terms about what stays in the lane, and gives the whole address otherwise.
* `pointer_step_diverges`: where folding and the terms part, and the one offset, `-2^32`, that is
  taken for no step at all.
-/

namespace TrustMc

namespace Pointer

open Arithmetic Carriers Carriers.Val ConstProp TrustMc.Expr

/-! ### The steps -/

/-- `PointerStep`. -/
structure PointerStep where
  /-- The pointer after the step. -/
  result : Expr
  /-- Whether the step stayed in the offset lane; the fallback does not say. -/
  sameObjectOk : Option Expr

/-- `POINTER_WIDTH`. -/
def pointerWidth : ℕ := 64

/-- `e.extract(high, low)`. -/
def extract (e : Expr) (high low : ℕ) : Expr := .app (.bvExtract high low) [e]

/-- `high.concat(low)`. -/
def concat (high low : Expr) : Expr := .app .bvConcat [high, low]

/-- The lane arithmetic of `const_fold_step`: the new offset, and `same_object_ok`. -/
def foldLanes (isSub : Bool) (ptrV offV : ℕ) : ℕ × Bool :=
  let lane := 2 ^ 32
  let laneMask := lane - 1
  let lo := ptrV &&& laneMask
  let offHi := offV >>> 32
  let offLo := offV &&& laneMask
  if isSub then (wrapped ((lo : ℤ) - offLo) lane, decide (offLo ≤ lo ∧ offHi = 0))
  else
    let sum := lo + offLo
    let newLo := sum &&& laneMask
    let isNegative := offV >>> 63 = 1
    (newLo, if isNegative then decide (newLo ≤ lo ∧ offHi = laneMask)
      else decide (¬lane ≤ sum ∧ offHi = 0))

/-- `const_fold_step`. -/
def constFoldStep (ptr byteOffset : Expr) (isSub : Bool) : Option PointerStep := do
  let byteOffset := (tryEvalToConst byteOffset).getD byteOffset
  let ptr := (tryEvalToConst ptr).getD ptr
  let (offV, offW) ← constBvValue byteOffset
  if offW ≠ 64 then none
  -- a step by zero keeps the term itself
  else if offV = 0 then some ⟨ptr, some (.boolConst true)⟩
  else
    let (ptrV, ptrW) ← constBvValue ptr
    if ptrW ≠ 64 then none
    else
      let (newLo, sameObjectOk) := foldLanes isSub ptrV offV
      if !sameObjectOk then
        -- a step that leaves the lane wraps around the whole address space
        let full : ℤ := if isSub then (ptrV : ℤ) - offV else ptrV + offV
        some ⟨.bitVecConst (BitVec.ofNat 64 (wrapped full (2 ^ 64))), some (.boolConst false)⟩
      else
        let result := ptrV >>> 32 <<< 32 ||| newLo
        some ⟨.bitVecConst (BitVec.ofNat 64 result), some (.boolConst sameObjectOk)⟩

/-- The terms of `step_split_pointer`. -/
def symbolicStep (ptr byteOffset : Expr) : PointerStep :=
  let objId := extract ptr 63 32
  let offset := extract ptr 31 0
  let newOffset := .bv .add offset (extract byteOffset 31 0)
  let isNegative := .eq (extract byteOffset 63 63) (.bitVecConst 1#1)
  let noCarry := .bvCmp .uge newOffset offset
  let highZero := .eq (extract byteOffset 63 32) (.bitVecConst 0#32)
  let noUnderflow := .bvCmp .ule newOffset offset
  let highFfff := .eq (extract byteOffset 63 32) (.bitVecConst 0xFFFFFFFF#32)
  { result := concat objId newOffset
    sameObjectOk :=
      some (.ite isNegative (.and [noUnderflow, highFfff]) (.and [noCarry, highZero])) }

/-- The terms of `step_split_pointer_sub`. -/
def symbolicStepSub (ptr byteOffset : Expr) : PointerStep :=
  let objId := extract ptr 63 32
  let offset := extract ptr 31 0
  let newOffset := .bv .sub offset (extract byteOffset 31 0)
  let noUnderflow := .bvCmp .ule newOffset offset
  let highOffsetZero := .eq (extract byteOffset 63 32) (.bitVecConst 0#32)
  { result := concat objId newOffset
    sameObjectOk := some (.and [noUnderflow, highOffsetZero]) }

/-- `step_split_pointer`. -/
def stepSplitPointer (ptr byteOffset : Expr) : PointerStep :=
  if ptr.sort.bitvecWidth ≠ some pointerWidth then ⟨.bv .add ptr byteOffset, none⟩
  else (constFoldStep ptr byteOffset false).getD (symbolicStep ptr byteOffset)

/-- `step_split_pointer_sub`. -/
def stepSplitPointerSub (ptr byteOffset : Expr) : PointerStep :=
  if ptr.sort.bitvecWidth ≠ some pointerWidth then ⟨.bv .sub ptr byteOffset, none⟩
  else (constFoldStep ptr byteOffset true).getD (symbolicStepSub ptr byteOffset)

/-- `step_wrapping_pointer`. -/
def stepWrappingPointer (ptr byteOffset : Expr) (isSub : Bool) : Expr :=
  let whole := .bv (if isSub then .sub else .add) ptr byteOffset
  if ptr.sort.bitvecWidth = some pointerWidth then
    ((constFoldStep ptr byteOffset isSub).map (·.result)).getD whole
  else whole

/-! ### What a step means -/

/-- The exact sum or difference of the offset lane and the offset. -/
def exactOffset (isSub : Bool) (p o : BitVec 64) : ℤ :=
  if isSub then (p.toNat % 2 ^ 32 : ℕ) - (o.toNat : ℤ) else (p.toNat % 2 ^ 32 : ℕ) + o.toInt

/-- A number is an offset. -/
def InLane (z : ℤ) : Prop := 0 ≤ z ∧ z < 2 ^ 32

/-- The step of the whole address. -/
def wholeStep (isSub : Bool) (p o : BitVec 64) : BitVec 64 := if isSub then p - o else p + o

/-- The test of the lane that folding and the terms both make. -/
def LaneTest (isSub : Bool) (p o : ℕ) : Prop :=
  if isSub then o % 2 ^ 32 ≤ p % 2 ^ 32 ∧ o / 2 ^ 32 = 0
  else if o / 2 ^ 63 = 1 then
    (p % 2 ^ 32 + o % 2 ^ 32) % 2 ^ 32 ≤ p % 2 ^ 32 ∧ o / 2 ^ 32 = 2 ^ 32 - 1
  else p % 2 ^ 32 + o % 2 ^ 32 < 2 ^ 32 ∧ o / 2 ^ 32 = 0

/-- The address that keeps the object number. -/
def laneStep (isSub : Bool) (p o : ℕ) : ℕ :=
  p / 2 ^ 32 * 2 ^ 32 +
    if isSub then (p % 2 ^ 32 + 2 ^ 32 - o % 2 ^ 32) % 2 ^ 32
    else (p % 2 ^ 32 + o % 2 ^ 32) % 2 ^ 32

/-- The offset that the test of an addition takes for no step. -/
def minusLane : BitVec 64 := -4294967296#64

section Numbers

variable {isSub : Bool} {p o : BitVec 64}

theorem toNat_minusLane : minusLane.toNat = 2 ^ 64 - 2 ^ 32 := by decide

/-- The test is exact, apart from the one offset. -/
theorem laneTest_iff (h : isSub = true ∨ o ≠ minusLane) :
    LaneTest isSub p.toNat o.toNat ↔ InLane (exactOffset isSub p o) := by
  have hp := p.isLt
  have ho := o.isLt
  cases isSub with
  | true =>
    simp only [LaneTest, InLane, exactOffset, if_true]
    omega
  | false =>
    have hne : o.toNat ≠ 2 ^ 64 - 2 ^ 32 := fun heq =>
      (h.resolve_left (by decide)) (BitVec.eq_of_toNat_eq (heq.trans toNat_minusLane.symm))
    simp only [LaneTest, InLane, exactOffset, BitVec.toInt_eq_toNat_cond, if_false,
      Bool.false_eq_true]
    split_ifs <;> omega

/-- A step that stays in the lane is a step of the whole address. -/
theorem laneStep_eq (h : isSub = true ∨ o ≠ minusLane) (htest : LaneTest isSub p.toNat o.toNat) :
    laneStep isSub p.toNat o.toNat = (wholeStep isSub p o).toNat := by
  have hp := p.isLt
  have ho := o.isLt
  cases isSub with
  | true =>
    simp only [LaneTest, if_true] at htest
    simp only [laneStep, wholeStep, if_true, BitVec.toNat_sub]
    omega
  | false =>
    have hne : o.toNat ≠ 2 ^ 64 - 2 ^ 32 := fun heq =>
      (h.resolve_left (by decide)) (BitVec.eq_of_toNat_eq (heq.trans toNat_minusLane.symm))
    simp only [LaneTest, if_false, Bool.false_eq_true] at htest
    simp only [laneStep, wholeStep, if_false, Bool.false_eq_true, BitVec.toNat_add]
    split_ifs at htest <;> omega

end Numbers

/-! ### The terms -/

instance (isSub : Bool) (p o : ℕ) : Decidable (LaneTest isSub p o) := by
  unfold LaneTest
  infer_instance

variable {T : Theory} {ρ : T.Env} {ptr byteOffset : Expr} {p o : BitVec 64}

/-- The step reports the test, and its result is the address. -/
def StepIs (ρ : T.Env) (s : PointerStep) (test : Prop) (address : ℕ) : Prop :=
  ∃ ok, s.sameObjectOk = some ok ∧ (Holds ρ ok ↔ test) ∧
    s.result.eval ρ = ofBV (BitVec.ofNat 64 address)

theorem toNat_offset (x : BitVec 64) : (x.extractLsb 31 0).toNat = x.toNat % 2 ^ 32 := by
  rw [BitVec.extractLsb_toNat]
  rfl

theorem toNat_high (x : BitVec 64) : (x.extractLsb 63 32).toNat = x.toNat / 2 ^ 32 := by
  have hx := x.isLt
  rw [BitVec.extractLsb_toNat, Nat.shiftRight_eq_div_pow]
  omega

theorem toNat_sign (x : BitVec 64) : (x.extractLsb 63 63).toNat = x.toNat / 2 ^ 63 := by
  have hx := x.isLt
  rw [BitVec.extractLsb_toNat, Nat.shiftRight_eq_div_pow]
  omega

theorem eval_extract {e : Expr} {x : BitVec 64} (hx : e.eval ρ = ofBV x) (high low : ℕ) :
    (extract e high low).eval ρ = ofBV (x.extractLsb high low) := eval_extract_of hx

theorem eval_concat_offset {newOffset : Expr} {x : BitVec 32} {n : ℕ}
    (hp : ptr.eval ρ = ofBV p) (hx : newOffset.eval ρ = ofBV x) (hn : x.toNat = n) :
    (concat (extract ptr 63 32) newOffset).eval ρ =
      ofBV (BitVec.ofNat 64 (p.toNat / 2 ^ 32 * 2 ^ 32 + n)) := by
  have hlt := p.isLt
  have hxlt := x.isLt
  rw [concat, eval_concat_of (eval_extract hp 63 32) hx]
  refine ofBV_congr rfl ?_
  rw [BitVec.toNat_append, ← Nat.shiftLeft_add_eq_or_of_lt hxlt, toNat_high, Nat.shiftLeft_eq, hn,
    BitVec.toNat_ofNat, Nat.mod_eq_of_lt (by omega)]

theorem holds_extract_eq {e : Expr} {x : BitVec 64} {high low w : ℕ} {c : BitVec w}
    (hx : e.eval ρ = ofBV x) (hw : high - low + 1 = w) :
    Holds ρ (.eq (extract e high low) (.bitVecConst c)) ↔
      (x.extractLsb high low).toNat = c.toNat := by
  subst hw
  rw [holds_eq, eval_extract hx, eval_bitVecConst, ofBV_inj, BitVec.toNat_inj]

theorem holds_bvCmp_of {f : BvCmp} {a b : Expr} {w : ℕ} {x y : BitVec w}
    (ha : a.eval ρ = ofBV x) (hb : b.eval ρ = ofBV y) :
    Holds ρ (.bvCmp f a b) ↔ f.denote x y = true := by
  rw [holds_bvCmp (sort_of_ofBV ha), bits_of_ofBV ha, bits_of_ofBV hb]

theorem stepIs_symbolicStep (hp : ptr.eval ρ = ofBV p) (ho : byteOffset.eval ρ = ofBV o) :
    StepIs ρ (symbolicStep ptr byteOffset) (LaneTest false p.toNat o.toNat)
      (laneStep false p.toNat o.toNat) := by
  have hoffset := eval_extract hp 31 0
  have hnew := eval_bv_of (f := .add) hoffset (eval_extract ho 31 0)
  have hnat : (BvBin.add.denote (p.extractLsb 31 0) (o.extractLsb 31 0)).toNat =
      (p.toNat % 2 ^ 32 + o.toNat % 2 ^ 32) % 2 ^ 32 := by
    rw [BvBin.denote, BitVec.toNat_add, toNat_offset, toNat_offset]
  refine ⟨_, rfl, ?_, ?_⟩
  · refine Iff.trans (holds_ite ?_) ?_
    · rfl
    simp only [toNat_sign, holds_and, List.mem_cons, List.not_mem_nil, or_false,
      forall_eq_or_imp, forall_eq, holds_extract_eq ho rfl, holds_bvCmp_of hnew hoffset, toNat_high,
      BvCmp.denote, BitVec.ule, decide_eq_true_eq, hnat, toNat_offset, LaneTest, Bool.false_eq_true, if_false]
    have hone : (1#1).toNat = 1 := rfl
    have hzero : (0#32).toNat = 0 := rfl
    have hones : (0xFFFFFFFF#32).toNat = 2 ^ 32 - 1 := by decide
    rw [hone, hzero, hones]
    split_ifs <;> omega
  · rw [laneStep, if_neg Bool.false_ne_true]
    exact eval_concat_offset hp hnew hnat

theorem stepIs_symbolicStepSub (hp : ptr.eval ρ = ofBV p) (ho : byteOffset.eval ρ = ofBV o) :
    StepIs ρ (symbolicStepSub ptr byteOffset) (LaneTest true p.toNat o.toNat)
      (laneStep true p.toNat o.toNat) := by
  have hoffset := eval_extract hp 31 0
  have hnew := eval_bv_of (f := .sub) hoffset (eval_extract ho 31 0)
  have hnat : (BvBin.sub.denote (p.extractLsb 31 0) (o.extractLsb 31 0)).toNat =
      (p.toNat % 2 ^ 32 + 2 ^ 32 - o.toNat % 2 ^ 32) % 2 ^ 32 := by
    rw [BvBin.denote, BitVec.toNat_sub, toNat_offset, toNat_offset]
    have hwidth : 31 - 0 + 1 = 32 := rfl
    rw [hwidth]
    omega
  refine ⟨_, rfl, ?_, ?_⟩
  · simp only [holds_and, List.mem_cons, List.not_mem_nil, or_false, forall_eq_or_imp, forall_eq,
      holds_extract_eq ho rfl, holds_bvCmp_of hnew hoffset, toNat_high, BvCmp.denote, BitVec.ule,
      decide_eq_true_eq, hnat, toNat_offset, LaneTest, if_true]
    have hzero : (0#32).toNat = 0 := rfl
    rw [hzero]
    omega
  · rw [laneStep, if_pos rfl]
    exact eval_concat_offset hp hnew hnat

/-! ### Folding -/

variable {D : SmtSort → Prop}

/-- A folded term has the value of the term. -/
theorem folded_rewrites (hD : ∀ d, D d → Positional d) {e : Expr} (hws : e.WellSorted)
    (hfrom : SelectsFrom D e) :
    Rewrites (fun _ : T.Env => True) [] e ((tryEvalToConst e).getD e) := by
  cases hc : tryEvalToConst e with
  | none => exact .refl hws
  | some c => exact ((tryEvalAt_positional hD e.depth).2 e c hws hfrom hc).1

theorem hasBits_folded (hD : ∀ d, D d → Positional d) {e : Expr} (hws : e.WellSorted)
    (hfrom : SelectsFrom D e) {x : BitVec 64} (hx : e.eval ρ = ofBV x) {v w : ℕ}
    (h : constBvValue ((tryEvalToConst e).getD e) = some (v, w)) : w = 64 ∧ v = x.toNat := by
  have hr := folded_rewrites (T := T) hD hws hfrom
  obtain ⟨n, y, hy, hv⟩ := constBvValue_sound (ρ := ρ) hr.wellSorted h
  obtain ⟨rfl, rfl⟩ := Prod.mk.inj hv
  obtain ⟨rfl, hnat⟩ := readings_agree hx ((hr.eval ρ trivial).symm.trans hy)
  exact ⟨rfl, hnat.symm⟩

theorem laneTest_zero (isSub : Bool) (p : ℕ) : LaneTest isSub p 0 := by
  unfold LaneTest
  split_ifs with h h'
  · exact ⟨Nat.zero_le _, rfl⟩
  · exact absurd h' (by decide)
  · exact ⟨Nat.mod_lt _ (by decide), rfl⟩

theorem laneStep_zero (isSub : Bool) (p : ℕ) : laneStep isSub p 0 = p := by
  unfold laneStep
  split_ifs <;> omega

/-- The lanes of an address, put together. -/
theorem lanes_or (p n : ℕ) (h : n < 2 ^ 32) : p >>> 32 <<< 32 ||| n = p / 2 ^ 32 * 2 ^ 32 + n := by
  rw [← Nat.shiftLeft_add_eq_or_of_lt h, Nat.shiftLeft_eq, Nat.shiftRight_eq_div_pow]

theorem wrapped_whole (isSub : Bool) (p o : BitVec 64) :
    wrapped (if isSub then (p.toNat : ℤ) - o.toNat else p.toNat + o.toNat) (2 ^ 64) =
      (wholeStep isSub p o).toNat := by
  have hp := p.isLt
  have ho := o.isLt
  refine Int.ofNat_inj.1 ((wrapped_eq (by decide)).trans ?_)
  cases isSub with
  | true =>
    simp only [wholeStep, if_true, BitVec.toNat_sub]
    omega
  | false =>
    simp only [wholeStep, Bool.false_eq_true, if_false, BitVec.toNat_add]
    omega

theorem foldLanes_eq (isSub : Bool) (p o : ℕ) :
    foldLanes isSub p o =
      (if isSub then (p % 2 ^ 32 + 2 ^ 32 - o % 2 ^ 32) % 2 ^ 32
        else (p % 2 ^ 32 + o % 2 ^ 32) % 2 ^ 32, decide (LaneTest isSub p o)) := by
  have hsub : wrapped (((p % 2 ^ 32 : ℕ) : ℤ) - (o % 2 ^ 32 : ℕ)) (2 ^ 32) =
      (p % 2 ^ 32 + 2 ^ 32 - o % 2 ^ 32) % 2 ^ 32 := by
    refine Int.ofNat_inj.1 ((wrapped_eq (by decide)).trans ?_)
    omega
  cases isSub with
  | true =>
    simp only [foldLanes, LaneTest, if_true, Nat.and_two_pow_sub_one_eq_mod,
      Nat.shiftRight_eq_div_pow, hsub]
  | false =>
    simp only [foldLanes, LaneTest, Bool.false_eq_true, if_false, Nat.and_two_pow_sub_one_eq_mod,
      Nat.shiftRight_eq_div_pow, not_le]
    split_ifs <;> rfl

/-- **Folding makes the same test**, and keeps the object number where it holds. -/
theorem constFoldStep_spec (hD : ∀ d, D d → Positional d) (hpws : ptr.WellSorted)
    (hows : byteOffset.WellSorted) (hpfrom : SelectsFrom D ptr)
    (hofrom : SelectsFrom D byteOffset) (hp : ptr.eval ρ = ofBV p)
    (ho : byteOffset.eval ρ = ofBV o) {isSub : Bool} {s : PointerStep}
    (h : constFoldStep ptr byteOffset isSub = some s) :
    StepIs ρ s (LaneTest isSub p.toNat o.toNat)
      (if LaneTest isSub p.toNat o.toNat then laneStep isSub p.toNat o.toNat
        else (wholeStep isSub p o).toNat) := by
  simp only [constFoldStep, Option.bind_eq_bind, Option.bind_eq_some_iff, Prod.exists] at h
  obtain ⟨offV, offW, hoff, h⟩ := h
  obtain ⟨rfl, rfl⟩ := hasBits_folded hD hows hofrom ho hoff
  rw [if_neg (not_not.2 rfl)] at h
  by_cases hzero : o.toNat = 0
  · rw [if_pos hzero] at h
    obtain rfl := Option.some.inj h
    rw [hzero, if_pos (laneTest_zero isSub _), laneStep_zero]
    refine ⟨_, rfl, by simp [holds_boolConst, laneTest_zero], ?_⟩
    rw [(folded_rewrites hD hpws hpfrom).eval ρ trivial, hp, BitVec.ofNat_toNat, BitVec.setWidth_eq]
  · rw [if_neg hzero] at h
    simp only [Option.bind_eq_some_iff, Prod.exists] at h
    obtain ⟨ptrV, ptrW, hptr, h⟩ := h
    obtain ⟨rfl, rfl⟩ := hasBits_folded hD hpws hpfrom hp hptr
    rw [if_neg (not_not.2 rfl), foldLanes_eq] at h
    by_cases htest : LaneTest isSub p.toNat o.toNat
    · rw [if_pos htest]
      simp only [htest, decide_true, Bool.not_true, Bool.false_eq_true, if_false] at h
      obtain rfl := Option.some.inj h
      refine ⟨_, rfl, by simp [holds_boolConst, htest], ?_⟩
      rw [eval_bitVecConst, lanes_or, laneStep]
      split_ifs <;> exact Nat.mod_lt _ (by decide)
    · rw [if_neg htest]
      simp only [htest, decide_false, Bool.not_false, if_true] at h
      obtain rfl := Option.some.inj h
      refine ⟨_, rfl, by simp [holds_boolConst, htest], ?_⟩
      rw [eval_bitVecConst, wrapped_whole]

/-! ### Exactness -/

/-- The step reports exactly whether it stays in the lane, and is the step of the whole address
when it does. -/
def ReportsExactly (ρ : T.Env) (s : PointerStep) (isSub : Bool) (p o : BitVec 64) : Prop :=
  ∃ ok, s.sameObjectOk = some ok ∧ (Holds ρ ok ↔ InLane (exactOffset isSub p o)) ∧
    (Holds ρ ok → s.result.eval ρ = ofBV (wholeStep isSub p o))

/-- The folded step reports what the terms report, is what they are when it stays in the lane,
and is the step of the whole address when it does not. -/
def FoldsAs (ρ : T.Env) (s terms : PointerStep) (whole : BitVec 64) : Prop :=
  ∃ ok ok', s.sameObjectOk = some ok ∧ terms.sameObjectOk = some ok' ∧
    (Holds ρ ok ↔ Holds ρ ok') ∧ (Holds ρ ok → s.result.eval ρ = terms.result.eval ρ) ∧
      (¬Holds ρ ok → s.result.eval ρ = ofBV whole)

/-- The terms of the two split steps. -/
def splitTerms (isSub : Bool) (ptr byteOffset : Expr) : PointerStep :=
  if isSub then symbolicStepSub ptr byteOffset else symbolicStep ptr byteOffset

theorem stepIs_splitTerms (isSub : Bool) (hp : ptr.eval ρ = ofBV p)
    (ho : byteOffset.eval ρ = ofBV o) :
    StepIs ρ (splitTerms isSub ptr byteOffset) (LaneTest isSub p.toNat o.toNat)
      (laneStep isSub p.toNat o.toNat) := by
  cases isSub with
  | true => exact stepIs_symbolicStepSub hp ho
  | false => exact stepIs_symbolicStep hp ho

theorem reportsExactly_of_stepIs {s : PointerStep} {isSub : Bool} {address : ℕ}
    (h : isSub = true ∨ o ≠ minusLane) (hs : StepIs ρ s (LaneTest isSub p.toNat o.toNat) address)
    (haddress : LaneTest isSub p.toNat o.toNat → address = laneStep isSub p.toNat o.toNat) :
    ReportsExactly ρ s isSub p o := by
  obtain ⟨ok, hok, htest, hresult⟩ := hs
  refine ⟨ok, hok, htest.trans (laneTest_iff h), fun hholds => ?_⟩
  have hlane := htest.1 hholds
  rw [hresult, haddress hlane, laneStep_eq h hlane, BitVec.ofNat_toNat, BitVec.setWidth_eq]

/-- A split step, folded or not. -/
theorem reportsExactly_getD (hpws : ptr.WellSorted) (hows : byteOffset.WellSorted)
    (hpfrom : SelectsFrom Positional ptr) (hofrom : SelectsFrom Positional byteOffset)
    (hp : ptr.eval ρ = ofBV p) (ho : byteOffset.eval ρ = ofBV o) {isSub : Bool}
    (h : isSub = true ∨ o ≠ minusLane) :
    ReportsExactly ρ ((constFoldStep ptr byteOffset isSub).getD (splitTerms isSub ptr byteOffset))
      isSub p o := by
  cases hfold : constFoldStep ptr byteOffset isSub with
  | none => exact reportsExactly_of_stepIs h (stepIs_splitTerms isSub hp ho) fun _ => rfl
  | some s =>
    have hspec := constFoldStep_spec (fun _ hd => hd) hpws hows hpfrom hofrom hp ho hfold
    exact reportsExactly_of_stepIs h hspec fun htest => if_pos htest

theorem eval_stepWrappingPointer (hpws : ptr.WellSorted) (hows : byteOffset.WellSorted)
    (hps : ptr.sort = .bitvec 64) (hpfrom : SelectsFrom Positional ptr)
    (hofrom : SelectsFrom Positional byteOffset) (hp : ptr.eval ρ = ofBV p)
    (ho : byteOffset.eval ρ = ofBV o) {isSub : Bool}
    (h : constFoldStep ptr byteOffset isSub = none ∨ isSub = true ∨ o ≠ minusLane) :
    (stepWrappingPointer ptr byteOffset isSub).eval ρ = ofBV (wholeStep isSub p o) := by
  rw [stepWrappingPointer, hps]
  simp only [SmtSort.bitvecWidth, pointerWidth, if_true]
  cases hfold : constFoldStep ptr byteOffset isSub with
  | none =>
    rw [Option.map_none, Option.getD_none, eval_bv_of hp ho]
    cases isSub with
    | true => rfl
    | false => rfl
  | some s =>
    have hoff := h.resolve_left (by simp [hfold])
    obtain ⟨ok, hok, htest, hresult⟩ :=
      constFoldStep_spec (fun _ hd => hd) hpws hows hpfrom hofrom hp ho hfold
    rw [Option.map_some, Option.getD_some, hresult]
    split_ifs with hlane
    · rw [laneStep_eq hoff hlane, BitVec.ofNat_toNat, BitVec.setWidth_eq]
    · rw [BitVec.ofNat_toNat, BitVec.setWidth_eq]

/-- **Pointer steps are exact.** The wrapping step is the step of the whole address, unless it
folds an addition of `-2^32`; a split step, apart from that addition, reports exactly whether
the offset stays in the lane, and is the step of the whole address when it does; folding tests
what the terms test. -/
theorem pointer_step_exact (hpws : ptr.WellSorted) (hows : byteOffset.WellSorted)
    (hps : ptr.sort = .bitvec 64) (hos : byteOffset.sort = .bitvec 64)
    (hpfrom : SelectsFrom Positional ptr) (hofrom : SelectsFrom Positional byteOffset)
    (ρ : T.Env) :
    (∀ isSub, constFoldStep ptr byteOffset isSub = none ∨ isSub = true ∨
        bits 64 byteOffset ρ ≠ minusLane →
      (stepWrappingPointer ptr byteOffset isSub).eval ρ =
        ofBV (wholeStep isSub (bits 64 ptr ρ) (bits 64 byteOffset ρ))) ∧
    (bits 64 byteOffset ρ ≠ minusLane →
      ReportsExactly ρ (stepSplitPointer ptr byteOffset) false (bits 64 ptr ρ)
        (bits 64 byteOffset ρ)) ∧
    ReportsExactly ρ (stepSplitPointerSub ptr byteOffset) true (bits 64 ptr ρ)
      (bits 64 byteOffset ρ) ∧
    ∀ isSub s, constFoldStep ptr byteOffset isSub = some s →
      FoldsAs ρ s (splitTerms isSub ptr byteOffset)
        (wholeStep isSub (bits 64 ptr ρ) (bits 64 byteOffset ρ)) := by
  have hp := eval_eq_ofBV_bits (ρ := ρ) hps
  have ho := eval_eq_ofBV_bits (ρ := ρ) hos
  have hwidth : ¬ptr.sort.bitvecWidth ≠ some pointerWidth := by
    rw [hps]
    exact not_not.2 rfl
  refine ⟨fun isSub h => eval_stepWrappingPointer hpws hows hps hpfrom hofrom hp ho h,
    fun h => ?_, ?_, fun isSub s hfold => ?_⟩
  · rw [stepSplitPointer, if_neg hwidth]
    exact reportsExactly_getD hpws hows hpfrom hofrom hp ho (Or.inr h)
  · rw [stepSplitPointerSub, if_neg hwidth]
    exact reportsExactly_getD hpws hows hpfrom hofrom hp ho (Or.inl rfl)
  · obtain ⟨ok, hok, htest, hresult⟩ :=
      constFoldStep_spec (fun _ hd => hd) hpws hows hpfrom hofrom hp ho hfold
    obtain ⟨ok', hok', htest', hresult'⟩ := stepIs_splitTerms isSub hp ho
    refine ⟨ok, ok', hok, hok', htest.trans htest'.symm, fun hholds => ?_, fun hnot => ?_⟩
    · rw [hresult, if_pos (htest.1 hholds), hresult']
    · rw [hresult, if_neg (mt htest.2 hnot), BitVec.ofNat_toNat, BitVec.setWidth_eq]

/-- A pointer that is not constant. -/
def basePtr : Expr := .var "base" (.bitvec 64)

/-- Object `0x42`, offset `0x10`. -/
noncomputable def baseEnv (T : Theory) : T.Env := Theory.Env.ofVals fun _ => ofBV 0x4200000010#64

theorem pointer_step_exact_base :
    (stepWrappingPointer basePtr (.bitVecConst 8#64) true).eval (baseEnv default) =
      ofBV 0x4200000008#64 := by
  have hstep : (stepWrappingPointer basePtr (.bitVecConst 8#64) true).eval (baseEnv default) =
      ofBV (wholeStep true (bits 64 basePtr (baseEnv default))
        (bits 64 (.bitVecConst 8#64) (baseEnv default))) :=
    (pointer_step_exact (by simp [basePtr]) (by simp [Op.accepts]) rfl rfl
      (by simp [SelectsFrom, basePtr]) (by simp [SelectsFrom]) (baseEnv default)).1 true
      (Or.inr (Or.inl rfl))
  have hbase : basePtr.eval (baseEnv default) = ofBV 0x4200000010#64 := by
    rw [basePtr, baseEnv, eval_var_ofVals (by rw [fst_ofBV])]
  rw [hstep, bits_of_ofBV hbase, bits_bitVecConst]
  rfl

/-! ### Where folding and the terms part -/

/-- Steps between constants are folded. -/
theorem exists_constFoldStep (isSub : Bool) (p o : BitVec 64) :
    ∃ s, constFoldStep (.bitVecConst p) (.bitVecConst o) isSub = some s ∧
      ∀ (T : Theory) (ρ : T.Env), StepIs ρ s (LaneTest isSub p.toNat o.toNat)
        (if LaneTest isSub p.toNat o.toNat then laneStep isSub p.toNat o.toNat
          else (wholeStep isSub p o).toNat) := by
  have hconst : ∀ x : BitVec 64, tryEvalToConst (.bitVecConst x) = some (.bitVecConst x) :=
    fun _ => rfl
  have hsome : (constFoldStep (.bitVecConst p) (.bitVecConst o) isSub).isSome = true := by
    by_cases hzero : o.toNat = 0
    · simp [constFoldStep, hconst, hzero]
    · simp only [constFoldStep, hconst, Option.getD_some, constBvValue_bitVecConst,
        Option.bind_eq_bind, Option.bind_some, hzero, if_false]
      cases (foldLanes isSub p.toNat o.toNat).2 <;> simp
  obtain ⟨s, hs⟩ := Option.isSome_iff_exists.1 hsome
  exact ⟨s, hs, fun T ρ => constFoldStep_spec (D := Positional) (fun _ hd => hd)
    (by simp [Op.accepts]) (by simp [Op.accepts]) (by simp [SelectsFrom]) (by simp [SelectsFrom])
    (eval_bitVecConst p) (eval_bitVecConst o) hs⟩

/-- **Folding a step out of the lane** moves on to the next object, where the terms stay with
the object and lose the carry; and a step by `-2^32` is reported as a step within the object that
does not move, by the wrapping step as well. -/
theorem pointer_step_diverges :
    (∃ s, constFoldStep (.bitVecConst 0x42FFFFFFF0#64) (.bitVecConst 0x20#64) false = some s ∧
      ∀ (T : Theory) (ρ : T.Env), s.result.eval ρ = ofBV 0x4300000010#64 ∧
        (symbolicStep (.bitVecConst 0x42FFFFFFF0#64) (.bitVecConst 0x20#64)).result.eval ρ =
          ofBV 0x4200000010#64) ∧
    ∃ s, constFoldStep (.bitVecConst 0x4200000010#64) (.bitVecConst minusLane) false = some s ∧
      ∀ (T : Theory) (ρ : T.Env), (∃ ok, s.sameObjectOk = some ok ∧ Holds ρ ok) ∧
        ¬InLane (exactOffset false 0x4200000010#64 minusLane) ∧
        (stepWrappingPointer (.bitVecConst 0x4200000010#64) (.bitVecConst minusLane) false).eval ρ =
          ofBV 0x4200000010#64 ∧
        wholeStep false 0x4200000010#64 minusLane = 0x4100000010#64 := by
  constructor
  · obtain ⟨s, hs, hstep⟩ := exists_constFoldStep false 0x42FFFFFFF0#64 0x20#64
    refine ⟨s, hs, fun T ρ => ⟨?_, ?_⟩⟩
    · obtain ⟨-, -, -, hresult⟩ := hstep T ρ
      rw [hresult]
      exact ofBV_inj.2 (by decide)
    · obtain ⟨-, -, -, hresult⟩ := stepIs_symbolicStep (ρ := ρ)
        (eval_bitVecConst 0x42FFFFFFF0#64) (eval_bitVecConst 0x20#64)
      rw [hresult]
      exact ofBV_inj.2 (by decide)
  · obtain ⟨s, hs, hstep⟩ := exists_constFoldStep false 0x4200000010#64 minusLane
    refine ⟨s, hs, fun T ρ => ?_⟩
    obtain ⟨ok, hok, htest, hresult⟩ := hstep T ρ
    refine ⟨⟨ok, hok, htest.2 (by decide)⟩, ?_, ?_, by decide⟩
    · simp only [InLane]
      decide
    · have hwrapping :
          stepWrappingPointer (.bitVecConst 0x4200000010#64) (.bitVecConst minusLane) false =
            s.result := by
        have hwidth : (Expr.bitVecConst 0x4200000010#64).sort.bitvecWidth = some pointerWidth := rfl
        rw [stepWrappingPointer, if_pos hwidth, hs, Option.map_some, Option.getD_some]
      rw [hwrapping, hresult]
      exact ofBV_inj.2 (by decide)

end Pointer

end TrustMc
