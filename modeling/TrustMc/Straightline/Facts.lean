import TrustMc.Smt.Rewrite
import TrustMc.Straightline.Simplify
import Mathlib.Data.Nat.Bitwise

/-!
# The meaning of path facts and of folded constants

* `PathFacts.Holds`: the facts are true under an assignment; what a lookup in the facts
  returns is then true as well (`eval_ne_of_areDisequal`, `Holds.lt_of_unsignedUpperBound`), and
  contradicting bounds are impossible (`boundsContradict_eq_false`).
* Constants are read at their width (`bvConstU128_spec`); the `u128` foldings compute the
  bit-vector operations (`ofNat_foldBvBin`, `fold_signedBvOrder`).
-/

namespace TrustMc

namespace Straightline

open Budget Carriers Carriers.Val TrustMc.Expr

variable {T : Theory} {ρ ρ' : T.Env} {facts : PathFacts}

/-! ### Constants -/

theorem and_bvMask {w : ℕ} (hw : w ≤ 128) (n : ℕ) : n &&& bvMask w = n % 2 ^ w := by
  have hmask : bvMask w = 2 ^ w - 1 := by
    unfold bvMask
    split_ifs with h₀ h₁
    · simp [h₀]
    · obtain rfl : w = 128 := by omega
      rfl
    · rfl
  rw [hmask, Nat.and_two_pow_sub_one_eq_mod]

theorem le_bvMask_iff {w : ℕ} (hw : w ≤ 128) (n : ℕ) : n ≤ bvMask w ↔ n < 2 ^ w := by
  have hmask : bvMask w = 2 ^ w - 1 := by
    unfold bvMask
    split_ifs with h₀ h₁
    · simp [h₀]
    · obtain rfl : w = 128 := by omega
      rfl
    · rfl
  have hpos : 0 < 2 ^ w := Nat.two_pow_pos w
  omega

/-- What a constant of at most 128 bits is. -/
theorem bvConstU128_spec {e : Expr} {l w : ℕ} (h : bvConstU128 e = some (l, w)) :
    e.sort = .bitvec w ∧ w ≤ 128 ∧ l < 2 ^ w ∧
      ∀ {T : Theory} (ρ : T.Env), bits w e ρ = BitVec.ofNat w l := by
  unfold bvConstU128 at h
  split at h
  · rename_i w' x args
    split_ifs at h with hw
    obtain ⟨rfl, rfl⟩ := Prod.mk.inj (Option.some.inj h)
    have hlt : x.toNat &&& bvMask w' = x.toNat := by
      rw [and_bvMask (by omega), Nat.mod_eq_of_lt x.isLt]
    refine ⟨by simp [Op.resultSort], by omega, ?_, fun ρ => ?_⟩
    · rw [hlt]
      exact x.isLt
    · rw [bits_bitVecConst, hlt, BitVec.ofNat_toNat, BitVec.setWidth_eq]
  · cases h

theorem toNat_bits_of_const {e : Expr} {l w : ℕ} (h : bvConstU128 e = some (l, w)) (ρ : T.Env) :
    (bits w e ρ).toNat = l := by
  obtain ⟨-, -, hl, hbits⟩ := bvConstU128_spec h
  rw [hbits ρ, BitVec.toNat_ofNat, Nat.mod_eq_of_lt hl]

/-- Folding computes the bit-vector function. -/
theorem ofNat_foldBvBin {f : BvBin} {l r w v : ℕ} (hw : w ≤ 128) (hl : l < 2 ^ w)
    (hr : r < 2 ^ w) (h : foldBvBin l r w f = some v) :
    BitVec.ofNat w v = f.denote (BitVec.ofNat w l) (BitVec.ofNat w r) := by
  have hdvd : 2 ^ w ∣ 2 ^ 128 := pow_dvd_pow 2 hw
  cases f with
  | add =>
    obtain rfl := Option.some.inj h
    rw [and_bvMask hw, Nat.mod_mod_of_dvd _ hdvd]
    apply BitVec.eq_of_toNat_eq
    simp [BvBin.denote]
  | sub =>
    obtain rfl := Option.some.inj h
    rw [and_bvMask hw, Nat.mod_mod_of_dvd _ hdvd]
    obtain ⟨k, hk⟩ := hdvd
    have hk₀ : 0 < k := by
      rcases Nat.eq_zero_or_pos k with rfl | hk₀
      · simp at hk
      · exact hk₀
    have hsplit : 2 ^ 128 + l - r = (2 ^ w - r + l) + 2 ^ w * (k - 1) := by
      have : 2 ^ w * (k - 1) + 2 ^ w = 2 ^ 128 := by
        rw [hk, ← Nat.mul_succ, Nat.succ_eq_add_one, Nat.sub_add_cancel hk₀]
      omega
    rw [hsplit, Nat.add_mul_mod_self_left]
    apply BitVec.eq_of_toNat_eq
    simp [BvBin.denote, BitVec.toNat_sub, Nat.mod_eq_of_lt hl, Nat.mod_eq_of_lt hr]
  | mul =>
    simp only [foldBvBin] at h
    split_ifs at h with hlt
    obtain rfl := Option.some.inj h
    rw [and_bvMask hw]
    apply BitVec.eq_of_toNat_eq
    simp [BvBin.denote]
  | urem =>
    simp only [foldBvBin] at h
    split_ifs at h with hne
    obtain rfl := Option.some.inj h
    apply BitVec.eq_of_toNat_eq
    have hlt : l % r < 2 ^ w := lt_of_le_of_lt (Nat.mod_le l r) hl
    simp [BvBin.denote, Nat.mod_eq_of_lt hl, Nat.mod_eq_of_lt hr, Nat.mod_eq_of_lt hlt]
  | and =>
    obtain rfl := Option.some.inj h
    apply BitVec.eq_of_toNat_eq
    simp [BvBin.denote]
  | or =>
    obtain rfl := Option.some.inj h
    apply BitVec.eq_of_toNat_eq
    simp [BvBin.denote]
  | xor =>
    obtain rfl := Option.some.inj h
    apply BitVec.eq_of_toNat_eq
    simp [BvBin.denote]
  | udiv => cases h
  | sdiv => cases h
  | srem => cases h
  | shl => cases h
  | lshr => cases h
  | ashr => cases h

namespace UnsignedCmp

theorem denote_toBvCmp (kind : UnsignedCmp) {w : ℕ} (x y : BitVec w) :
    kind.toBvCmp.denote x y = kind.fold x.toNat y.toNat := by
  cases kind <;> rfl

theorem fold_negated (kind : UnsignedCmp) (l r : ℕ) : kind.negated.fold l r = !kind.fold l r := by
  cases kind <;> simp [negated, fold, ← decide_not]

theorem fold_swapped (kind : UnsignedCmp) (l r : ℕ) : kind.swapped.fold r l = kind.fold l r := by
  cases kind <;> simp [swapped, fold]

end UnsignedCmp

/-- The sign bit that `signed_bv_order` tests. -/
private theorem and_signBit_ne_zero {l w : ℕ} (hw : 0 < w) (hl : l < 2 ^ w) :
    l &&& 2 ^ (w - 1) ≠ 0 ↔ 2 ^ (w - 1) ≤ l := by
  have hbit : l.testBit (w - 1) = decide (2 ^ (w - 1) ≤ l) := by
    have hmsb := BitVec.msb_eq_decide (BitVec.ofNat w l)
    rw [BitVec.msb_eq_getLsbD_last, BitVec.getLsbD_ofNat, BitVec.toNat_ofNat,
      Nat.mod_eq_of_lt hl] at hmsb
    simpa [show w - 1 < w by omega] using hmsb
  have hpos : 2 ^ (w - 1) ≠ 0 := (Nat.two_pow_pos _).ne'
  rw [Nat.and_two_pow, hbit]
  by_cases h : 2 ^ (w - 1) ≤ l <;> simp [h]

private theorem toInt_ofNat_cond {l w : ℕ} (hw : 0 < w) (hl : l < 2 ^ w) :
    (BitVec.ofNat w l).toInt = if 2 ^ (w - 1) ≤ l then (l : ℤ) - 2 ^ w else l := by
  have hpow : 2 ^ w = 2 * 2 ^ (w - 1) := by
    rw [← Nat.pow_succ', Nat.succ_eq_add_one, Nat.sub_add_cancel hw]
  rw [BitVec.toInt_eq_toNat_cond, BitVec.toNat_ofNat, Nat.mod_eq_of_lt hl]
  split_ifs with h₁ h₂ h₂
  · omega
  · rfl
  · simp
  · omega

/-- The order of constants of width `w` is the order of their signed values. -/
theorem signedBvOrder_spec {l r w : ℕ} (hw : 0 < w) (hl : l < 2 ^ w) (hr : r < 2 ^ w) :
    (signedBvOrder l r w < 0 ↔ (BitVec.ofNat w l).toInt < (BitVec.ofNat w r).toInt) ∧
      (0 < signedBvOrder l r w ↔ (BitVec.ofNat w r).toInt < (BitVec.ofNat w l).toInt) := by
  have hpow : (2 : ℤ) ^ w = (2 ^ w : ℕ) := by norm_cast
  rw [toInt_ofNat_cond hw hl, toInt_ofNat_cond hw hr, hpow]
  have hl' := and_signBit_ne_zero hw hl
  have hr' := and_signBit_ne_zero hw hr
  unfold signedBvOrder
  simp only [hl', hr', Bool.and_eq_true, Bool.not_eq_true', decide_eq_true_eq,
    decide_eq_false_iff_not]
  split_ifs <;> omega

/-- Folding a signed comparison computes it. -/
theorem fold_signedBvOrder {f : BvCmp} {l r w : ℕ} {b : Bool} (hw : 0 < w) (hl : l < 2 ^ w)
    (hr : r < 2 ^ w) (h : foldSigned (signedBvOrder l r w) f = some b) :
    f.denote (BitVec.ofNat w l) (BitVec.ofNat w r) = b := by
  obtain ⟨hlt, hgt⟩ := signedBvOrder_spec hw hl hr
  cases f with
  | ult => cases h
  | ule => cases h
  | ugt => cases h
  | uge => cases h
  | slt =>
    obtain rfl := Option.some.inj h
    rw [BvCmp.denote, BitVec.slt_eq_decide, decide_eq_decide, hlt]
  | sle =>
    obtain rfl := Option.some.inj h
    rw [BvCmp.denote, BitVec.sle_eq_decide, decide_eq_decide]
    omega
  | sgt =>
    obtain rfl := Option.some.inj h
    rw [BvCmp.denote, BitVec.slt_eq_decide, decide_eq_decide, hgt]
  | sge =>
    obtain rfl := Option.some.inj h
    rw [BvCmp.denote, BitVec.sle_eq_decide, decide_eq_decide]
    omega

theorem unsignedMulFitsWidth_iff {l r w : ℕ} (hw : w ≤ 128) :
    unsignedMulFitsWidth l r w = true ↔ l * r < 2 ^ w := by
  have hle : 2 ^ w ≤ 2 ^ 128 := Nat.pow_le_pow_right (by decide) hw
  rw [unsignedMulFitsWidth, Bool.and_eq_true, decide_eq_true_eq, decide_eq_true_eq,
    le_bvMask_iff hw]
  omega

/-! ### Facts -/

namespace PathFacts

/-- The facts are true under the assignment. -/
structure Holds (facts : PathFacts) (ρ : T.Env) : Prop where
  /-- The terms differ. -/
  ne : ∀ p ∈ facts.disequalities, p.1.eval ρ ≠ p.2.eval ρ
  /-- Terms are below their upper bounds. -/
  upper : ∀ b ∈ facts.unsignedUpperBounds,
    b.1.sort = .bitvec b.2.2 ∧ (bits b.2.2 b.1 ρ).toNat < b.2.1
  /-- Terms are at least their lower bounds. -/
  lower : ∀ b ∈ facts.unsignedLowerBounds,
    b.1.sort = .bitvec b.2.2 ∧ b.2.1 ≤ (bits b.2.2 b.1 ρ).toNat

/-- The terms the facts are about. -/
def terms (facts : PathFacts) : List Expr :=
  facts.disequalities.map (·.1) ++ facts.disequalities.map (·.2) ++
    facts.unsignedUpperBounds.map (·.1) ++ facts.unsignedLowerBounds.map (·.1)

@[simp]
theorem terms_none : PathFacts.none.terms = [] := rfl

theorem holds_none : PathFacts.none.Holds ρ := ⟨by simp [none], by simp [none], by simp [none]⟩

private theorem mem_terms {facts : PathFacts} {e : Expr} :
    e ∈ facts.terms ↔ (∃ p ∈ facts.disequalities, e = p.1 ∨ e = p.2) ∨
      (∃ b ∈ facts.unsignedUpperBounds, e = b.1) ∨ ∃ b ∈ facts.unsignedLowerBounds, e = b.1 := by
  simp only [terms, List.mem_append, List.mem_map]
  grind

/-- Facts depend on the values of their terms only. -/
theorem Holds.congr (h : facts.Holds ρ) (heq : ∀ e ∈ facts.terms, e.eval ρ' = e.eval ρ) :
    facts.Holds ρ' where
  ne p hp := by
    rw [heq p.1 (mem_terms.2 (Or.inl ⟨p, hp, Or.inl rfl⟩)),
      heq p.2 (mem_terms.2 (Or.inl ⟨p, hp, Or.inr rfl⟩))]
    exact h.ne p hp
  upper b hb := by
    rw [bits, heq b.1 (mem_terms.2 (Or.inr (Or.inl ⟨b, hb, rfl⟩)))]
    exact h.upper b hb
  lower b hb := by
    rw [bits, heq b.1 (mem_terms.2 (Or.inr (Or.inr ⟨b, hb, rfl⟩)))]
    exact h.lower b hb

/-- Facts about terms without reserved free names do not depend on the reserved names. -/
theorem stableOff {reserved : Set String}
    (h : ∀ e ∈ facts.terms, ∀ o ∈ e.freeOccs, o.1 ∉ reserved) :
    StableOff reserved (facts.Holds (T := T)) := by
  intro ρ ρ' hagree hρ
  refine hρ.congr fun e he => eval_congr_occs fun o ho => ?_
  rw [hagree o.1 (h e he o ho)]

theorem eval_ne_of_areDisequal (h : facts.Holds ρ) {lhs rhs : Expr}
    (hd : facts.areDisequal lhs rhs = true) : lhs.eval ρ ≠ rhs.eval ρ := by
  have hlisted : ∀ {l r : Expr}, (facts.disequalities.any fun p =>
      (p.1 == l && p.2 == r) || (p.1 == r && p.2 == l)) = true → l.eval ρ ≠ r.eval ρ := by
    intro l r hany
    simp only [List.any_eq_true, Bool.or_eq_true, Bool.and_eq_true, beq_iff_eq] at hany
    obtain ⟨p, hp, ⟨rfl, rfl⟩ | ⟨rfl, rfl⟩⟩ := hany
    · exact h.ne p hp
    · exact (h.ne p hp).symm
  induction lhs generalizing rhs with
  | var n s =>
    rw [areDisequal.eq_def, Bool.or_eq_true] at hd
    exact hd.elim hlisted (by simp)
  | quant q vs b _ =>
    rw [areDisequal.eq_def, Bool.or_eq_true] at hd
    exact hd.elim hlisted (by simp)
  | app op args ih =>
    rw [areDisequal.eq_def, Bool.or_eq_true] at hd
    rcases hd with hd | hd
    · exact hlisted hd
    · split at hd
      · rename_i l r heq
        obtain ⟨rfl, rfl⟩ := Expr.app.inj heq
        simp only [Bool.and_eq_true, beq_iff_eq] at hd
        obtain ⟨⟨hsort, hbv⟩, hd⟩ := hd
        obtain ⟨w, hw⟩ := SmtSort.isBitvec_iff.1 hbv
        have hne := ih l (List.mem_singleton_self l) hd
        rw [eval_bv2Int hw, eval_bv2Int (hsort ▸ hw), Ne, ofInt_inj, Nat.cast_inj]
        intro heq
        exact hne ((bits_inj hw (hsort ▸ hw)).2 (BitVec.eq_of_toNat_eq heq))
      · cases hd

private theorem mem_of_foldl_min {l : List (Expr × ℕ × ℕ)} {best : Option (ℕ × ℕ)} {b w : ℕ}
    (h : l.foldl
      (fun best (_, b, w) =>
        match best with
        | some (b', w') => if b < b' then some (b, w) else some (b', w')
        | Option.none => some (b, w)) best = some (b, w)) :
    best = some (b, w) ∨ ∃ e, (e, b, w) ∈ l := by
  induction l generalizing best with
  | nil => exact Or.inl h
  | cons x l ih =>
    obtain ⟨e, b', w'⟩ := x
    rcases ih h with h | ⟨e', he'⟩
    · cases best with
      | none =>
        obtain ⟨rfl, rfl⟩ := Prod.mk.inj (Option.some.inj h)
        exact Or.inr ⟨e, List.mem_cons_self⟩
      | some p =>
        obtain ⟨b'', w''⟩ := p
        dsimp only at h
        split_ifs at h
        · obtain ⟨rfl, rfl⟩ := Prod.mk.inj (Option.some.inj h)
          exact Or.inr ⟨e, List.mem_cons_self⟩
        · exact Or.inl h
    · exact Or.inr ⟨e', List.mem_cons_of_mem _ he'⟩

/-- The bound that is looked up is one that was recorded for the term. -/
theorem mem_of_unsignedUpperBound {e : Expr} {b w : ℕ}
    (h : facts.unsignedUpperBound e = some (b, w)) : (e, b, w) ∈ facts.unsignedUpperBounds := by
  obtain h | ⟨e', he'⟩ := mem_of_foldl_min h
  · cases h
  · obtain ⟨hmem, heq⟩ := List.mem_filter.1 he'
    obtain rfl : e' = e := by simpa using heq
    exact hmem

theorem Holds.lt_of_unsignedUpperBound (h : facts.Holds ρ) {e : Expr} {b w : ℕ}
    (hb : facts.unsignedUpperBound e = some (b, w)) : (bits w e ρ).toNat < b :=
  (h.upper _ (mem_of_unsignedUpperBound hb)).2

/-- Bounds that hold do not contradict each other. -/
theorem boundsContradict_eq_false (h : facts.Holds ρ) : facts.boundsContradict = false := by
  rw [boundsContradict, List.any_eq_false]
  rintro ⟨e, lower, w⟩ hl
  rw [Bool.not_eq_true, List.any_eq_false]
  rintro ⟨e', upper, w'⟩ hu
  simp only [Bool.and_eq_true, beq_iff_eq, decide_eq_true_eq, not_and, and_imp]
  rintro rfl rfl
  have hlower := (h.lower _ hl).2
  have hupper := (h.upper _ hu).2
  dsimp only at hlower hupper
  omega

/-! ### Recording -/

private theorem mem_tighten {pick : ℕ → ℕ → ℕ} {e : Expr} {bound w : ℕ}
    {l : List (Expr × ℕ × ℕ)} {x : Expr × ℕ × ℕ} (h : x ∈ tighten pick e bound w l) :
    x ∈ l ∨ x = (e, bound, w) ∨ ∃ b, (e, b, w) ∈ l ∧ x = (e, pick b bound, w) := by
  induction l with
  | nil => exact Or.inr (Or.inl (List.mem_singleton.1 h))
  | cons y l ih =>
    obtain ⟨e', b, w'⟩ := y
    rw [tighten] at h
    split_ifs at h with hc
    · obtain ⟨rfl, rfl⟩ := hc
      rcases List.mem_cons.1 h with rfl | h
      · exact Or.inr (Or.inr ⟨b, List.mem_cons_self, rfl⟩)
      · exact Or.inl (List.mem_cons_of_mem _ h)
    · rcases List.mem_cons.1 h with rfl | h
      · exact Or.inl List.mem_cons_self
      · rcases ih h with h | h | ⟨b', hb', hx⟩
        · exact Or.inl (List.mem_cons_of_mem _ h)
        · exact Or.inr (Or.inl h)
        · exact Or.inr (Or.inr ⟨b', List.mem_cons_of_mem _ hb', hx⟩)

theorem Holds.addDisequality (h : facts.Holds ρ) {lhs rhs : Expr}
    (hne : lhs.eval ρ ≠ rhs.eval ρ) : (facts.addDisequality lhs rhs).Holds ρ := by
  unfold PathFacts.addDisequality
  split_ifs
  · exact h
  · refine ⟨fun p hp => ?_, h.upper, h.lower⟩
    rcases List.mem_append.1 hp with hp | hp
    · exact h.ne p hp
    · obtain rfl := List.mem_singleton.1 hp
      exact hne

theorem Holds.addUnsignedUpperBound (h : facts.Holds ρ) {e : Expr} {b w : ℕ}
    (hs : e.sort = .bitvec w) (hb : (bits w e ρ).toNat < b) :
    (facts.addUnsignedUpperBound e b w).Holds ρ := by
  refine ⟨h.ne, fun x hx => ?_, h.lower⟩
  rcases mem_tighten hx with hx | rfl | ⟨b', hb', rfl⟩
  · exact h.upper x hx
  · exact ⟨hs, hb⟩
  · exact ⟨hs, lt_min (h.upper _ hb').2 hb⟩

theorem Holds.addUnsignedLowerBound (h : facts.Holds ρ) {e : Expr} {b w : ℕ}
    (hs : e.sort = .bitvec w) (hb : b ≤ (bits w e ρ).toNat) :
    (facts.addUnsignedLowerBound e b w).Holds ρ := by
  refine ⟨h.ne, h.upper, fun x hx => ?_⟩
  rcases mem_tighten hx with hx | rfl | ⟨b', hb', rfl⟩
  · exact h.lower x hx
  · exact ⟨hs, hb⟩
  · exact ⟨hs, max_le (h.lower _ hb').2 hb⟩

theorem terms_addDisequality {lhs rhs e : Expr} (h : e ∈ (facts.addDisequality lhs rhs).terms) :
    e ∈ facts.terms ∨ e = lhs ∨ e = rhs := by
  unfold PathFacts.addDisequality at h
  split_ifs at h
  · exact Or.inl h
  · simp only [mem_terms, List.mem_append, List.mem_singleton] at h ⊢
    grind

theorem terms_addUnsignedUpperBound {e e' : Expr} {b w : ℕ}
    (h : e ∈ (facts.addUnsignedUpperBound e' b w).terms) : e ∈ facts.terms ∨ e = e' := by
  rw [mem_terms] at h ⊢
  rcases h with h | ⟨x, hx, rfl⟩ | h
  · exact Or.inl (Or.inl h)
  · rcases mem_tighten hx with hx | rfl | ⟨b', -, rfl⟩
    · exact Or.inl (Or.inr (Or.inl ⟨x, hx, rfl⟩))
    · exact Or.inr rfl
    · exact Or.inr rfl
  · exact Or.inl (Or.inr (Or.inr h))

theorem terms_addUnsignedLowerBound {e e' : Expr} {b w : ℕ}
    (h : e ∈ (facts.addUnsignedLowerBound e' b w).terms) : e ∈ facts.terms ∨ e = e' := by
  rw [mem_terms] at h ⊢
  rcases h with h | h | ⟨x, hx, rfl⟩
  · exact Or.inl (Or.inl h)
  · exact Or.inl (Or.inr (Or.inl h))
  · rcases mem_tighten hx with hx | rfl | ⟨b', -, rfl⟩
    · exact Or.inl (Or.inr (Or.inr ⟨x, hx, rfl⟩))
    · exact Or.inr rfl
    · exact Or.inr rfl

end PathFacts

/-! ### Comparisons with constants -/

/-- Orienting a comparison keeps what it says. -/
theorem orient_spec {lhs rhs e : Expr} {kind kind' : UnsignedCmp} {c w : ℕ}
    (hl : lhs.sort = .bitvec w) (hr : rhs.sort = .bitvec w)
    (h : orient lhs rhs kind = some (e, c, kind')) :
    e.sort = .bitvec w ∧ (e = lhs ∨ e = rhs) ∧ c < 2 ^ w ∧ w ≤ 128 ∧
      ∀ ρ : T.Env, kind'.fold (bits w e ρ).toNat c =
        kind.fold (bits w lhs ρ).toNat (bits w rhs ρ).toNat := by
  unfold orient at h
  split at h
  · rename_i c' w' _ hc
    obtain ⟨rfl, rfl, rfl⟩ : lhs = e ∧ c' = c ∧ kind = kind' := by simpa using h
    obtain ⟨hsort, hw, hlt, -⟩ := bvConstU128_spec hc
    obtain rfl : w = w' := by simpa [hr] using hsort
    exact ⟨hl, Or.inl rfl, hlt, hw, fun ρ => by rw [toNat_bits_of_const hc ρ]⟩
  · rename_i c' w' hc _
    obtain ⟨rfl, rfl, rfl⟩ : rhs = e ∧ c' = c ∧ kind.swapped = kind' := by simpa using h
    obtain ⟨hsort, hw, hlt, -⟩ := bvConstU128_spec hc
    obtain rfl : w = w' := by simpa [hl] using hsort
    refine ⟨hr, Or.inr rfl, hlt, hw, fun ρ => ?_⟩
    rw [toNat_bits_of_const hc ρ, UnsignedCmp.fold_swapped]
  · cases h

/-- A comparison that the facts decide has the value they decide. -/
theorem fold_of_unsignedBoundDecidesCmp (hρ : facts.Holds ρ) {lhs rhs : Expr}
    {kind : UnsignedCmp} {b : Bool} {w : ℕ} (hl : lhs.sort = .bitvec w)
    (hr : rhs.sort = .bitvec w) (h : unsignedBoundDecidesCmp facts lhs rhs kind = some b) :
    kind.fold (bits w lhs ρ).toNat (bits w rhs ρ).toNat = b := by
  unfold unsignedBoundDecidesCmp at h
  simp only [Option.bind_eq_bind, Option.bind_eq_some_iff] at h
  obtain ⟨w', hw', ⟨e, c, kind'⟩, horient, ⟨bound, boundWidth⟩, hbound, h⟩ := h
  obtain rfl : w = w' := by simpa [hl] using hw'
  obtain ⟨-, -, -, -, hfold⟩ := orient_spec (T := T) hl hr horient
  rw [← hfold ρ]
  split at h
  · cases h
  · rename_i hcond
    obtain ⟨hwidth, hpos⟩ := not_or.1 hcond
    obtain rfl : boundWidth = w := not_not.1 hwidth
    have hlt : (bits boundWidth e ρ).toNat < bound := hρ.lt_of_unsignedUpperBound hbound
    cases kind' <;> dsimp only at h hpos <;> split_ifs at h <;>
      obtain rfl := Option.some.inj h <;>
      simp only [UnsignedCmp.fold, decide_eq_true_eq, decide_eq_false_iff_not] <;> omega

end Straightline

end TrustMc
