import TrustMc.Arithmetic.Checked
import TrustMc.Smt.Numbers
import Mathlib.Data.Nat.Log
import Mathlib.Data.Nat.Size

/-!
# Bit intrinsics

The model of the terms of `bit_intrinsics.rs`: leading zeros, population count, reversal,
rotation and funnel shift. The loops over the bits are folds, the pairwise reduction of the
population count is `sumTree`.

* `denotes_ctlz`: the cascade tests the bits as `BitVec.clzAuxRec` does, the last test first.
* `sum_sumPairs`: a round of the reduction keeps the total, and `pair_le_total` keeps every sum
  of the round below it.
* `denotes_rotate`, `denotes_funnelShift`: the amount is cut or extended to the width of the
  operand, which a power of two does not notice.
-/

namespace TrustMc

namespace Arithmetic

open Carriers Carriers.Val TrustMc.Expr

/-! ### The terms -/

/-- `x.extract(i, i)`. -/
def bitAt (x : Expr) (i : ℕ) : Expr := .app (.bvExtract i i) [x]

/-- `compute_bitreverse`. -/
def computeBitreverse (x : Expr) : Option Expr := do
  let width ← x.sort.bitvecWidth
  (List.range width).foldl (fun result i =>
    some (match result with
      | none => bitAt x i
      | some acc => .app .bvConcat [acc, bitAt x i])) none

/-- `compute_ctlz`. -/
def computeCtlz (x : Expr) : Option Expr := do
  let width ← x.sort.bitvecWidth
  return (List.range width).foldl (fun result i =>
    .ite (.eq (bitAt x i) (.bitVecConst 1#1)) (.bitVecConst (BitVec.ofNat 32 (width - 1 - i)))
      result) (.bitVecConst (BitVec.ofNat 32 width))

/-- `bit_width_for_unsigned_max`: the bits of the number, rounded up to a power of two. -/
def bitWidthForUnsignedMax (max : ℕ) : ℕ := min (2 ^ Nat.clog 2 (Nat.max (Nat.size max) 1)) 32

/-- `ctpop_accumulator_width`. -/
def ctpopAccumulatorWidth (inputWidth outWidth : ℕ) : ℕ :=
  if inputWidth ≤ 32 then bitWidthForUnsignedMax inputWidth else outWidth

/-- A round of the reduction. -/
def sumPairs : List Expr → List Expr
  | a :: b :: bits => .bv .add a b :: sumPairs bits
  | bits => bits

theorem length_sumPairs : ∀ bits : List Expr, (sumPairs bits).length = (bits.length + 1) / 2
  | [] => rfl
  | [_] => by simp [sumPairs]
  | _ :: _ :: bits => by
    rw [sumPairs, List.length_cons, length_sumPairs bits, List.length_cons, List.length_cons]
    omega

/-- The reduction: `while bits.len() > 1`. -/
def sumTree (bits : List Expr) : List Expr :=
  if 1 < bits.length then sumTree (sumPairs bits) else bits
termination_by bits.length
decreasing_by
  rw [length_sumPairs]
  omega

/-- The bits, as wide as the accumulator. -/
def ctpopBits (x : Expr) (width accWidth : ℕ) : List Expr :=
  (List.range width).map fun i =>
    if accWidth = 1 then bitAt x i else .app (.bvZeroExtend (accWidth - 1)) [bitAt x i]

/-- `compute_ctpop`. -/
def computeCtpop (x : Expr) : Option Expr := do
  let width ← x.sort.bitvecWidth
  let accWidth := ctpopAccumulatorWidth width 32
  let result := (sumTree (ctpopBits x width accWidth)).headD (.bitVecConst (BitVec.ofNat accWidth 0))
  return if accWidth = 32 then result else .app (.bvZeroExtend (32 - accWidth)) [result]

/-- The amount at the width of the operand. -/
def coerceAmount (n : Expr) (width nWidth : ℕ) : Expr :=
  if nWidth < width then .app (.bvZeroExtend (width - nWidth)) [n]
  else if width < nWidth then .app (.bvExtract (width - 1) 0) [n]
  else n

/-- `compute_rotate`. -/
def computeRotate (x n : Expr) (left : Bool) : Option Expr := do
  let width ← x.sort.bitvecWidth
  let nWidth ← n.sort.bitvecWidth
  let n := coerceAmount n width nWidth
  let nMod : Expr := .bv .and n (.bitVecConst (BitVec.ofNat width (width - 1)))
  let widthMinusN : Expr := .bv .sub (.bitVecConst (BitVec.ofNat width width)) nMod
  return if left then .bv .or (.bv .shl x nMod) (.bv .lshr x widthMinusN)
    else .bv .or (.bv .lshr x nMod) (.bv .shl x widthMinusN)

/-- `compute_funnel_shift`. -/
def computeFunnelShift (a b n : Expr) (left : Bool) : Option Expr := do
  let width ← a.sort.bitvecWidth
  let nWidth ← n.sort.bitvecWidth
  let n := coerceAmount n width nWidth
  let widthMinusN : Expr := .bv .sub (.bitVecConst (BitVec.ofNat width width)) n
  return if left then .bv .or (.bv .shl a n) (.bv .lshr b widthMinusN)
    else .bv .or (.bv .shl a widthMinusN) (.bv .lshr b n)

/-! ### Bits of a term -/

variable {T : Theory} {ρ : T.Env} {x n a b e : Expr} {w : ℕ}

/-- The term is well-sorted and stands for the bits. -/
structure Denotes (ρ : T.Env) (e : Expr) {w : ℕ} (v : BitVec w) : Prop where
  /-- The term is well-sorted. -/
  wellSorted : e.WellSorted
  /-- The value of the term. -/
  value : e.eval ρ = ofBV v

theorem Denotes.sort {v : BitVec w} (h : Denotes ρ e v) : e.sort = .bitvec w := sort_of_ofBV h.value

theorem Denotes.bitvecWidth {v : BitVec w} (h : Denotes ρ e v) : e.sort.bitvecWidth = some w := by
  rw [h.sort]
  rfl

theorem denotes_const (v : BitVec w) : Denotes ρ (.bitVecConst v) v :=
  ⟨by simp [Op.accepts], eval_bitVecConst v⟩

theorem Denotes.bitAt {v : BitVec w} (h : Denotes ρ x v) {i : ℕ} (hi : i < w) :
    Denotes ρ (bitAt x i) (BitVec.ofBool (v.getLsbD i)) := by
  refine ⟨?_, ?_⟩
  · simp [Arithmetic.bitAt, Op.accepts, h.sort, h.wellSorted, SmtSort.isBitvec,
      SmtSort.bitvecWidth, hi]
  · rw [Arithmetic.bitAt, eval_extract_of h.value]
    refine ofBV_congr (by omega) ?_
    rw [BitVec.extractLsb_toNat, Nat.sub_self, BitVec.toNat_ofBool, ← BitVec.testBit_toNat,
      Nat.testBit_eq_decide_div_mod_eq, Nat.shiftRight_eq_div_pow]
    rcases Nat.mod_two_eq_zero_or_one (v.toNat / 2 ^ i) with hbit | hbit <;> simp [hbit]

theorem Denotes.bv {v u : BitVec w} (f : BvBin) (ha : Denotes ρ a v) (hb : Denotes ρ b u) :
    Denotes ρ (.bv f a b) (f.denote v u) :=
  ⟨by simp [Op.accepts, ha.sort, hb.sort, ha.wellSorted, hb.wellSorted, SmtSort.isBitvec,
    SmtSort.bitvecWidth], eval_bv_of ha.value hb.value⟩

theorem Denotes.or {v u : BitVec w} (ha : Denotes ρ a v) (hb : Denotes ρ b u) :
    Denotes ρ (.bv .or a b) (v ||| u) := ha.bv .or hb

theorem Denotes.shl {v d : BitVec w} {m : ℕ} (ha : Denotes ρ a v) (hn : Denotes ρ n d)
    (hd : d.toNat = m) : Denotes ρ (.bv .shl a n) (v <<< m) := by
  have h := ha.bv .shl hn
  rwa [BvBin.denote, BitVec.shiftLeft_eq', hd] at h

theorem Denotes.lshr {v d : BitVec w} {m : ℕ} (ha : Denotes ρ a v) (hn : Denotes ρ n d)
    (hd : d.toNat = m) : Denotes ρ (.bv .lshr a n) (v >>> m) := by
  have h := ha.bv .lshr hn
  rwa [BvBin.denote, BitVec.ushiftRight_eq', hd] at h

theorem Denotes.concat {u : ℕ} {v : BitVec w} {v' : BitVec u} (ha : Denotes ρ a v)
    (hb : Denotes ρ b v') : Denotes ρ (.app .bvConcat [a, b]) (v ++ v') := by
  refine ⟨?_, ?_⟩
  · simp [Op.accepts, ha.sort, hb.sort, ha.wellSorted, hb.wellSorted, SmtSort.isBitvec,
      SmtSort.bitvecWidth]
  · rw [eval_bvConcat ha.sort hb.sort, bits_of_ofBV ha.value, bits_of_ofBV hb.value]

/-- A term with the width and the number of some bits stands for them. -/
theorem denotes_of_hasNat {v : BitVec w} (hw : e.WellSorted) (h : HasNat ρ e w v.toNat) :
    Denotes ρ e v := by
  refine ⟨hw, ?_⟩
  rw [h.eval_eq, BitVec.ofNat_toNat, BitVec.setWidth_eq]

theorem Denotes.hasNat {v : BitVec w} (h : Denotes ρ e v) : HasNat ρ e w v.toNat :=
  hasNat_of_eval h.value

/-! ### Reversal -/

/-- The bits read so far, the first one on top. -/
theorem exists_reversed {v : BitVec w} (hx : Denotes ρ x v) {k : ℕ} (hk : k < w) :
    ∃ (e : Expr) (r : BitVec (k + 1)),
      (List.range (k + 1)).foldl (fun result i =>
        some (match result with
          | none => bitAt x i
          | some acc => .app .bvConcat [acc, bitAt x i])) none = some e ∧
      Denotes ρ e r ∧ ∀ i ≤ k, r.getLsbD i = v.getLsbD (k - i) := by
  induction k with
  | zero =>
    refine ⟨_, _, rfl, hx.bitAt hk, fun i hi => ?_⟩
    obtain rfl := Nat.le_zero.1 hi
    simp
  | succ k ih =>
    obtain ⟨e, r, he, hr, hbits⟩ := ih (by omega)
    rw [List.range_succ, List.foldl_append, he]
    refine ⟨_, _, rfl, hr.concat (hx.bitAt hk), fun i hi => ?_⟩
    rw [BitVec.getLsbD_append]
    rcases Nat.eq_zero_or_pos i with rfl | hpos
    · simp
    · rw [if_neg (by omega), hbits _ (by omega)]
      congr 1
      omega

theorem denotes_bitreverse {v : BitVec w} (hw : 0 < w) (hx : Denotes ρ x v) :
    ∃ e, computeBitreverse x = some e ∧ Denotes ρ e v.reverse := by
  obtain ⟨k, rfl⟩ : ∃ k, w = k + 1 := ⟨w - 1, by omega⟩
  obtain ⟨e, r, he, hr, hbits⟩ := exists_reversed hx (Nat.lt_succ_self k)
  have hrev : r = v.reverse := by
    refine BitVec.eq_of_getLsbD_eq fun i hi => ?_
    rw [hbits i (by omega), BitVec.getLsbD_reverse, BitVec.getMsbD_eq_getLsbD]
    simp [hi]
  refine ⟨e, ?_, hrev ▸ hr⟩
  rw [computeBitreverse, hx.bitvecWidth]
  exact he

/-! ### Leading zeros -/

/-- The tests made so far are those of `BitVec.clzAuxRec`. -/
theorem denotes_ctlz_fold {v : BitVec w} (hx : Denotes ρ x v) {k : ℕ} (hk : k < w) :
    Denotes ρ ((List.range (k + 1)).foldl (fun result i =>
      .ite (.eq (bitAt x i) (.bitVecConst 1#1)) (.bitVecConst (BitVec.ofNat 32 (w - 1 - i)))
        result) (.bitVecConst (BitVec.ofNat 32 w)))
      (BitVec.ofNat 32 (v.clzAuxRec k).toNat) := by
  have hlt : w < 2 ^ w := Nat.lt_two_pow_self
  -- one more test in front
  have hstep : ∀ {i : ℕ} {result : Expr} {c : BitVec 32}, i < w → Denotes ρ result c →
      Denotes ρ (.ite (.eq (bitAt x i) (.bitVecConst 1#1))
        (.bitVecConst (BitVec.ofNat 32 (w - 1 - i))) result)
        (if v.getLsbD i then BitVec.ofNat 32 (w - 1 - i) else c) := by
    intro i result c hi hresult
    have hbit := hx.bitAt hi
    have htest := eval_eq_ofBV hbit.value (eval_bitVecConst (ρ := ρ) 1#1)
    refine ⟨?_, ?_⟩
    · simp [Op.accepts, Op.resultSort, hbit.sort, hbit.wellSorted, hresult.sort,
        hresult.wellSorted, SmtSort.isBool]
    · rw [eval_ite_of htest (by simp [Op.resultSort, hresult.sort]), eval_bitVecConst,
        hresult.value]
      cases v.getLsbD i <;> simp
  induction k with
  | zero =>
    have h := hstep hk (denotes_const (BitVec.ofNat 32 w))
    rw [BitVec.clzAuxRec]
    split_ifs at h ⊢ with hbit
    · rwa [BitVec.toNat_ofNat, Nat.mod_eq_of_lt (by omega)]
    · rwa [BitVec.toNat_ofNat, Nat.mod_eq_of_lt hlt]
  | succ k ih =>
    have h := hstep hk (ih (by omega))
    rw [List.range_succ, List.foldl_append]
    rw [BitVec.clzAuxRec]
    split_ifs at h ⊢ with hbit
    · rwa [BitVec.toNat_ofNat, Nat.mod_eq_of_lt (by omega)]
    · exact h

theorem denotes_ctlz {v : BitVec w} (hw : 0 < w) (hx : Denotes ρ x v) :
    ∃ e, computeCtlz x = some e ∧ Denotes ρ e (BitVec.ofNat 32 v.clz.toNat) := by
  obtain ⟨k, rfl⟩ : ∃ k, w = k + 1 := ⟨w - 1, by omega⟩
  rw [computeCtlz, hx.bitvecWidth]
  exact ⟨_, rfl, denotes_ctlz_fold hx (Nat.lt_succ_self k)⟩

/-! ### Population count -/

/-- The operands of the additions of a round. -/
def addedPairs : List Expr → List (Expr × Expr)
  | a :: b :: bits => (a, b) :: addedPairs bits
  | _ => []

/-- The operands of all additions of the reduction. -/
def partialSums (bits : List Expr) : List (Expr × Expr) :=
  if 1 < bits.length then addedPairs bits ++ partialSums (sumPairs bits) else []
termination_by bits.length
decreasing_by
  rw [length_sumPairs]
  omega

/-- The number a term of the accumulator's width stands for. -/
noncomputable def count (ρ : T.Env) (acc : ℕ) (e : Expr) : ℕ := (bits acc e ρ).toNat

/-- Terms of the accumulator's width. -/
def Counts (acc : ℕ) (bits : List Expr) : Prop :=
  ∀ e ∈ bits, e.WellSorted ∧ e.sort = .bitvec acc

/-- The sum of the counts. -/
noncomputable def total (ρ : T.Env) (acc : ℕ) (bits : List Expr) : ℕ :=
  (bits.map (count ρ acc)).sum

section Sums

variable {acc : ℕ}

theorem total_cons (bits : List Expr) :
    total ρ acc (e :: bits) = count ρ acc e + total ρ acc bits := by
  rw [total, List.map_cons, List.sum_cons, total]

/-- An addition of a round stays below the total. -/
theorem pair_le_total : ∀ {bits : List Expr} {p : Expr × Expr}, p ∈ addedPairs bits →
    count ρ acc p.1 + count ρ acc p.2 ≤ total ρ acc bits
  | [], p, hp => absurd hp (by simp [addedPairs])
  | [_], p, hp => absurd hp (by simp [addedPairs])
  | a :: b :: bits, p, hp => by
    rw [total_cons, total_cons]
    rw [addedPairs, List.mem_cons] at hp
    rcases hp with rfl | hp
    · exact Nat.add_le_add_left (Nat.le_add_right _ _) _
    · have hle := pair_le_total hp
      omega

theorem mem_of_mem_addedPairs : ∀ {bits : List Expr} {p : Expr × Expr}, p ∈ addedPairs bits →
    p.1 ∈ bits ∧ p.2 ∈ bits
  | [], p, hp => absurd hp (by simp [addedPairs])
  | [_], p, hp => absurd hp (by simp [addedPairs])
  | a :: b :: bits, p, hp => by
    rw [addedPairs, List.mem_cons] at hp
    rcases hp with rfl | hp
    · simp
    · obtain ⟨h₁, h₂⟩ := mem_of_mem_addedPairs hp
      simp [h₁, h₂]

/-- An addition that does not overflow. -/
theorem count_add (ha : a.sort = .bitvec acc)
    (h : count ρ acc a + count ρ acc b < 2 ^ acc) :
    count ρ acc (.bv .add a b) = count ρ acc a + count ρ acc b := by
  rw [count, bits, eval_bv ha, toBV_ofBV, BvBin.denote, BitVec.toNat_add]
  exact Nat.mod_eq_of_lt h

/-- A round keeps the total. -/
theorem sum_sumPairs : ∀ {bits : List Expr}, Counts acc bits → total ρ acc bits < 2 ^ acc →
    Counts acc (sumPairs bits) ∧ total ρ acc (sumPairs bits) = total ρ acc bits
  | [], h, _ => ⟨h, rfl⟩
  | [_], h, _ => ⟨by simpa [sumPairs] using h, by simp [sumPairs]⟩
  | a :: b :: bits, h, hlt => by
    obtain ⟨haw, has⟩ := h a (by simp)
    obtain ⟨hbw, hbs⟩ := h b (by simp)
    have hpair : count ρ acc a + count ρ acc b ≤ total ρ acc (a :: b :: bits) :=
      pair_le_total (p := (a, b)) (by simp [addedPairs])
    rw [total_cons, total_cons] at hlt hpair
    have hcounts : Counts acc bits := fun e he =>
      h e (List.mem_cons_of_mem _ (List.mem_cons_of_mem _ he))
    obtain ⟨hrest, htotal⟩ := sum_sumPairs hcounts (by omega)
    rw [sumPairs]
    refine ⟨fun e he => ?_, ?_⟩
    · rcases List.mem_cons.1 he with rfl | he
      · simp [Op.accepts, Op.resultSort, haw, has, hbw, hbs, SmtSort.isBitvec,
          SmtSort.bitvecWidth]
      · exact hrest e he
    · rw [total_cons, total_cons, total_cons, htotal, count_add has (by omega), add_assoc]

/-- The reduction ends in one term, which stands for the total. -/
theorem sumTree_spec {bits : List Expr} (h : Counts acc bits) (hlt : total ρ acc bits < 2 ^ acc)
    (hne : 0 < bits.length) : ∃ e, sumTree bits = [e] ∧ e.WellSorted ∧
      e.sort = .bitvec acc ∧ count ρ acc e = total ρ acc bits := by
  induction hn : bits.length using Nat.strong_induction_on generalizing bits with
  | _ n ih =>
    rw [sumTree]
    split_ifs with hlen
    · obtain ⟨hcounts, htotal⟩ := sum_sumPairs h hlt
      have hhalf := length_sumPairs bits
      rw [← htotal]
      exact ih _ (by omega) hcounts (by omega) (by omega) rfl
    · obtain ⟨e, rfl⟩ := List.length_eq_one_iff.1 (by omega : bits.length = 1)
      obtain ⟨hw, hs⟩ := h e (by simp)
      exact ⟨e, rfl, hw, hs, by simp [total]⟩

/-- No addition of the reduction overflows. -/
theorem partialSums_lt {bits : List Expr} (h : Counts acc bits)
    (hlt : total ρ acc bits < 2 ^ acc) {p : Expr × Expr} (hp : p ∈ partialSums bits) :
    p.1.sort = .bitvec acc ∧ p.2.sort = .bitvec acc ∧
      count ρ acc p.1 + count ρ acc p.2 < 2 ^ acc := by
  induction hn : bits.length using Nat.strong_induction_on generalizing bits with
  | _ n ih =>
    rw [partialSums] at hp
    split_ifs at hp with hlen
    · rcases List.mem_append.1 hp with hp | hp
      · obtain ⟨h₁, h₂⟩ := mem_of_mem_addedPairs hp
        exact ⟨(h _ h₁).2, (h _ h₂).2, (pair_le_total hp).trans_lt hlt⟩
      · obtain ⟨hcounts, htotal⟩ := sum_sumPairs h hlt
        have hhalf := length_sumPairs bits
        exact ih _ (by omega) hcounts (by omega) hp rfl
    · simp at hp

end Sums

/-- The accumulator holds the number of bits. -/
theorem lt_accumulator {w : ℕ} (hw : w < 2 ^ 32) : w < 2 ^ ctpopAccumulatorWidth w 32 := by
  rw [ctpopAccumulatorWidth]
  split_ifs with hle
  · rw [bitWidthForUnsignedMax]
    have hclog := Nat.le_pow_clog (b := 2) (by decide) (Nat.max (Nat.size w) 1)
    have hsize : Nat.size w ≤ 32 := Nat.size_le.2 hw
    refine Nat.lt_of_lt_of_le (Nat.lt_size_self w) (Nat.pow_le_pow_right (by decide) ?_)
    exact le_min ((Nat.le_max_left _ _).trans hclog) hsize
  · exact hw

theorem accumulator_pos (w : ℕ) : 0 < ctpopAccumulatorWidth w 32 ∧
    ctpopAccumulatorWidth w 32 ≤ 32 := by
  rw [ctpopAccumulatorWidth]
  split_ifs
  · rw [bitWidthForUnsignedMax]
    exact ⟨lt_min (by positivity) (by decide), min_le_right _ _⟩
  · decide

/-- The number of ones, bit by bit. -/
theorem cpopNatRec_eq_sum (v : BitVec w) (k : ℕ) :
    v.cpopNatRec k 0 = ((List.range k).map fun i => (v.getLsbD i).toNat).sum := by
  induction k with
  | zero => rfl
  | succ k ih =>
    rw [BitVec.cpopNatRec_succ, BitVec.cpopNatRec_eq, ih, List.range_succ, List.map_append,
      List.sum_append]
    simp [add_comm]

section Ctpop

variable {v : BitVec w}

/-- A bit at the width of the accumulator. -/
theorem hasNat_ctpopBit (hx : Denotes ρ x v) {acc i : ℕ} (hacc : 0 < acc) (hi : i < w) :
    (if acc = 1 then bitAt x i else .app (.bvZeroExtend (acc - 1)) [bitAt x i] : Expr).WellSorted ∧
      HasNat ρ (if acc = 1 then bitAt x i else .app (.bvZeroExtend (acc - 1)) [bitAt x i]) acc
        (v.getLsbD i).toNat := by
  have hbit := hx.bitAt hi
  have hnat := hbit.hasNat
  rw [BitVec.toNat_ofBool] at hnat
  split_ifs with h
  · exact ⟨hbit.wellSorted, hnat.cast h.symm rfl⟩
  · refine ⟨?_, (hnat.zeroExtend (acc - 1)).cast (by omega) rfl⟩
    simp [Op.accepts, hbit.sort, hbit.wellSorted, SmtSort.isBitvec, SmtSort.bitvecWidth]

theorem counts_ctpopBits (hx : Denotes ρ x v) {acc : ℕ} (hacc : 0 < acc) :
    Counts acc (ctpopBits x w acc) ∧ total ρ acc (ctpopBits x w acc) = v.cpop.toNat := by
  refine ⟨fun e he => ?_, ?_⟩
  · obtain ⟨i, hi, rfl⟩ := List.mem_map.1 he
    obtain ⟨hw, hnat⟩ := hasNat_ctpopBit hx hacc (List.mem_range.1 hi)
    exact ⟨hw, hnat.sort⟩
  · rw [total, ctpopBits, List.map_map, BitVec.toNat_cpop, cpopNatRec_eq_sum]
    refine congrArg List.sum (List.map_congr_left fun i hi => ?_)
    exact (hasNat_ctpopBit hx hacc (List.mem_range.1 hi)).2.toNat

theorem total_ctpopBits_lt (hx : Denotes ρ x v) (hw : w < 2 ^ 32) :
    total ρ (ctpopAccumulatorWidth w 32) (ctpopBits x w (ctpopAccumulatorWidth w 32)) <
      2 ^ ctpopAccumulatorWidth w 32 := by
  rw [(counts_ctpopBits hx (accumulator_pos w).1).2]
  exact (BitVec.toNat_cpop_le v).trans_lt (lt_accumulator hw)

theorem denotes_ctpop (hx : Denotes ρ x v) (hpos : 0 < w) (hw : w < 2 ^ 32) :
    ∃ e, computeCtpop x = some e ∧ Denotes ρ e (BitVec.ofNat 32 v.cpop.toNat) := by
  obtain ⟨hacc, hle⟩ := accumulator_pos w
  set acc := ctpopAccumulatorWidth w 32 with haccEq
  obtain ⟨hcounts, htotal⟩ := counts_ctpopBits hx hacc
  obtain ⟨e, he, hew, hes, hcount⟩ := sumTree_spec hcounts (total_ctpopBits_lt hx hw)
    (by simpa [ctpopBits] using hpos)
  have hnat : HasNat ρ e acc v.cpop.toNat := ⟨hes, hcount.trans htotal⟩
  have hlt : v.cpop.toNat < 2 ^ 32 := (BitVec.toNat_cpop_le v).trans_lt hw
  have hvalue : (BitVec.ofNat 32 v.cpop.toNat).toNat = v.cpop.toNat := by
    rw [BitVec.toNat_ofNat, Nat.mod_eq_of_lt hlt]
  rw [computeCtpop, hx.bitvecWidth]
  simp only [Option.bind_eq_bind, Option.bind_some, ← haccEq, he, List.headD_cons]
  refine ⟨_, rfl, ?_⟩
  split_ifs with h32
  · exact denotes_of_hasNat hew (hnat.cast h32 hvalue.symm)
  · refine denotes_of_hasNat ?_ ((hnat.zeroExtend (32 - acc)).cast (by omega) hvalue.symm)
    simp [Op.accepts, hes, hew, SmtSort.isBitvec, SmtSort.bitvecWidth]

end Ctpop

/-! ### Rotation -/

/-- The amount is reduced to the width of the operand. -/
theorem exists_coerceAmount {u : ℕ} {m : BitVec u} (hn : Denotes ρ n m) (hw : 0 < w) :
    ∃ d : BitVec w, Denotes ρ (coerceAmount n w u) d ∧ d.toNat = m.toNat % 2 ^ w := by
  have hnat := hn.hasNat
  have hmod : (BitVec.ofNat w (m.toNat % 2 ^ w)).toNat = m.toNat % 2 ^ w := by
    rw [BitVec.toNat_ofNat, Nat.mod_mod]
  refine ⟨BitVec.ofNat w (m.toNat % 2 ^ w), ?_, hmod⟩
  rw [coerceAmount]
  split_ifs with hlt hgt
  · have hle : m.toNat < 2 ^ w := m.isLt.trans (Nat.pow_lt_pow_right (by decide) hlt)
    refine denotes_of_hasNat ?_ ((hnat.zeroExtend (w - u)).cast (by omega) ?_)
    · simp [Op.accepts, hn.sort, hn.wellSorted, SmtSort.isBitvec, SmtSort.bitvecWidth]
    · rw [hmod, Nat.mod_eq_of_lt hle]
  · refine denotes_of_hasNat ?_ ((hnat.extract (w - 1) 0).cast (by omega) ?_)
    · simp [Op.accepts, hn.sort, hn.wellSorted, SmtSort.isBitvec, SmtSort.bitvecWidth]
      omega
    · rw [hmod, pow_zero, Nat.div_one, Nat.sub_zero, Nat.sub_add_cancel hw]
  · obtain rfl : u = w := by omega
    refine denotes_of_hasNat hn.wellSorted (hnat.cast rfl ?_)
    rw [hmod, Nat.mod_eq_of_lt m.isLt]

/-- The mask takes the amount modulo a power of two. -/
theorem toNat_masked {k : ℕ} (hk : w = 2 ^ k) {d : BitVec w} {m : ℕ} (hd : d.toNat = m % 2 ^ w) :
    (BvBin.and.denote d (BitVec.ofNat w (w - 1))).toNat = m % w := by
  have hlt : w < 2 ^ w := Nat.lt_two_pow_self
  have hkw : k ≤ w := hk ▸ (Nat.lt_two_pow_self (n := k)).le
  rw [BvBin.denote, BitVec.toNat_and, BitVec.toNat_ofNat, Nat.mod_eq_of_lt (by omega), hd]
  conv_lhs => rw [show w - 1 = 2 ^ k - 1 by rw [← hk]]
  conv_rhs => rw [hk]
  rw [Nat.and_two_pow_sub_one_eq_mod, Nat.mod_mod_of_dvd _ (Nat.pow_dvd_pow 2 hkw)]

/-- The rest of the width. -/
theorem toNat_rest {d : BitVec w} (hd : d.toNat ≤ w) :
    (BvBin.sub.denote (BitVec.ofNat w w) d).toNat = w - d.toNat := by
  have hlt : w < 2 ^ w := Nat.lt_two_pow_self
  have hw : (BitVec.ofNat w w).toNat = w := by rw [BitVec.toNat_ofNat, Nat.mod_eq_of_lt hlt]
  rw [BvBin.denote, BitVec.toNat_sub_of_le (by rw [BitVec.le_def, hw]; exact hd), hw]

theorem denotes_rotate {v : BitVec w} {u : ℕ} {m : BitVec u} (hx : Denotes ρ x v)
    (hn : Denotes ρ n m) {k : ℕ} (hk : w = 2 ^ k) (left : Bool) :
    ∃ e, computeRotate x n left = some e ∧
      Denotes ρ e (if left then v.rotateLeft m.toNat else v.rotateRight m.toNat) := by
  have hw : 0 < w := hk ▸ Nat.two_pow_pos k
  obtain ⟨d, hd, hdnat⟩ := exists_coerceAmount (w := w) hn hw
  have hmod := hd.bv .and (denotes_const (BitVec.ofNat w (w - 1)))
  have hmodNat := toNat_masked hk hdnat
  have hrest := (denotes_const (ρ := ρ) (BitVec.ofNat w w)).bv .sub hmod
  have hrestNat := toNat_rest (hmodNat.trans_le (Nat.mod_lt _ hw).le)
  rw [hmodNat] at hrestNat
  rw [computeRotate, hx.bitvecWidth, hn.bitvecWidth]
  cases left with
  | true =>
    refine ⟨_, rfl, ?_⟩
    rw [if_pos rfl, if_pos rfl, BitVec.rotateLeft_def]
    exact (hx.shl hmod hmodNat).or (hx.lshr hrest hrestNat)
  | false =>
    refine ⟨_, rfl, ?_⟩
    rw [if_neg (by decide), if_neg (by decide), BitVec.rotateRight_def]
    exact (hx.lshr hmod hmodNat).or (hx.shl hrest hrestNat)

/-! ### Funnel shifts -/

/-- The upper half of a double word shifted to the left. -/
theorem upper_half_shiftLeft (a b : BitVec w) {n : ℕ} (hn : n < w) :
    ((a ++ b) <<< n).extractLsb' w w = a <<< n ||| b >>> (w - n) := by
  refine BitVec.eq_of_getLsbD_eq fun i hi => ?_
  rw [BitVec.getLsbD_extractLsb', BitVec.getLsbD_shiftLeft, BitVec.getLsbD_append,
    BitVec.getLsbD_or, BitVec.getLsbD_shiftLeft, BitVec.getLsbD_ushiftRight]
  by_cases h : i < n
  · simp [h, hi, show w + i - n < w by omega, show ¬ w + i < n by omega,
      show w - n + i = w + i - n by omega]
  · simp [h, hi, show ¬ w + i - n < w by omega, show ¬ w + i < n by omega,
      show w + i - n - w = i - n by omega, BitVec.getLsbD_of_ge b (w - n + i) (by omega)]

/-- The lower half of a double word shifted to the right. -/
theorem lower_half_shiftRight (a b : BitVec w) {n : ℕ} (hn : n < w) :
    ((a ++ b) >>> n).extractLsb' 0 w = a <<< (w - n) ||| b >>> n := by
  refine BitVec.eq_of_getLsbD_eq fun i hi => ?_
  rw [BitVec.getLsbD_extractLsb', BitVec.getLsbD_ushiftRight, BitVec.getLsbD_append,
    BitVec.getLsbD_or, BitVec.getLsbD_shiftLeft, BitVec.getLsbD_ushiftRight]
  by_cases h : n + i < w
  · simp [h, hi, show i < w - n by omega]
  · simp [h, hi, show ¬ i < w - n by omega, show n + i - w = i - (w - n) by omega,
      BitVec.getLsbD_of_ge b (n + i) (by omega)]

theorem denotes_funnelShift {v v' : BitVec w} {u : ℕ} {m : BitVec u} (ha : Denotes ρ a v)
    (hb : Denotes ρ b v') (hn : Denotes ρ n m) (hm : m.toNat < w) (left : Bool) :
    ∃ e, computeFunnelShift a b n left = some e ∧
      Denotes ρ e (if left then ((v ++ v') <<< m.toNat).extractLsb' w w
        else ((v ++ v') >>> m.toNat).extractLsb' 0 w) := by
  obtain ⟨d, hd, hdnat⟩ := exists_coerceAmount (w := w) hn (by omega)
  rw [Nat.mod_eq_of_lt (hm.trans Nat.lt_two_pow_self)] at hdnat
  have hrest := (denotes_const (ρ := ρ) (BitVec.ofNat w w)).bv .sub hd
  have hrestNat := toNat_rest (hdnat.trans_le hm.le)
  rw [hdnat] at hrestNat
  rw [computeFunnelShift, ha.bitvecWidth, hn.bitvecWidth, upper_half_shiftLeft v v' hm,
    lower_half_shiftRight v v' hm]
  cases left with
  | true => exact ⟨_, rfl, (ha.shl hd hdnat).or (hb.lshr hrest hrestNat)⟩
  | false => exact ⟨_, rfl, (ha.shl hrest hrestNat).or (hb.lshr hd hdnat)⟩

/-! ### All intrinsics -/

/-- The terms of the bit intrinsics are exact: at every width that is a power of two from eight
up to the largest `u32`, for every value and every amount of 32 bits, and no addition of the
population count overflows its accumulator. -/
theorem bit_intrinsics_exact {k : ℕ} (hk : w = 2 ^ k) (hmin : 8 ≤ w) (hmax : w < 2 ^ 32)
    {v : BitVec w} (hx : Denotes ρ x v) :
    (∃ e, computeCtlz x = some e ∧ Denotes ρ e (BitVec.ofNat 32 v.clz.toNat)) ∧
      (∃ e, computeCtpop x = some e ∧ Denotes ρ e (BitVec.ofNat 32 v.cpop.toNat)) ∧
      (∃ e, computeBitreverse x = some e ∧ Denotes ρ e v.reverse) ∧
      (∀ p ∈ partialSums (ctpopBits x w (ctpopAccumulatorWidth w 32)),
        count ρ (ctpopAccumulatorWidth w 32) p.1 + count ρ (ctpopAccumulatorWidth w 32) p.2 <
          2 ^ ctpopAccumulatorWidth w 32) ∧
      ∀ {n : Expr} {m : BitVec 32}, Denotes ρ n m →
        (∀ left, ∃ e, computeRotate x n left = some e ∧
          Denotes ρ e (if left then v.rotateLeft m.toNat else v.rotateRight m.toNat)) ∧
        ∀ {b : Expr} {v' : BitVec w}, Denotes ρ b v' → m.toNat < w →
          ∀ left, ∃ e, computeFunnelShift x b n left = some e ∧
            Denotes ρ e (if left then ((v ++ v') <<< m.toNat).extractLsb' w w
              else ((v ++ v') >>> m.toNat).extractLsb' 0 w) := by
  have hpos : 0 < w := by omega
  refine ⟨denotes_ctlz hpos hx, denotes_ctpop hx hpos hmax, denotes_bitreverse hpos hx,
    fun p hp => ?_, fun hn => ⟨denotes_rotate hx hn hk, fun hb hm => ?_⟩⟩
  · exact (partialSums_lt (counts_ctpopBits hx (accumulator_pos w).1).1
      (total_ctpopBits_lt hx hmax) hp).2.2
  · exact denotes_funnelShift hx hb hn hm

/-- The byte 22 has three leading zeros and three ones, and 44 is its rotation by nine. -/
theorem bit_intrinsics_exact_byte :
    (∃ e, computeCtlz (.bitVecConst 22#8) = some e ∧ Denotes (minusOneEnv default) e 3#32) ∧
      (∃ e, computeCtpop (.bitVecConst 22#8) = some e ∧ Denotes (minusOneEnv default) e 3#32) ∧
      ∃ e, computeRotate (.bitVecConst 22#8) (.bitVecConst 9#32) true = some e ∧
        Denotes (minusOneEnv default) e 44#8 := by
  have h := bit_intrinsics_exact (k := 3) (ρ := minusOneEnv default) rfl (by decide) (by decide)
    (denotes_const 22#8)
  exact ⟨h.1, h.2.1, (h.2.2.2.2 (denotes_const 9#32)).1 true⟩

end Arithmetic

end TrustMc
