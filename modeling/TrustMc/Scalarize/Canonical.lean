import TrustMc.ConstProp.EvalSound
import TrustMc.Scalarize.Chains

/-!
# When constant indices are canonical

A read goes past a store when the constants extracted from the two indices differ. That is
right when equal constants are equal values, which fails for sums: `tryExtractConstIdx` adds
the constants of the operands and keeps the carry out of the width.

* `PartExact e`: what the extraction of one term presupposes. A sum does not reach `2 ^ width`,
  and a term that is left to constant evaluation is evaluated to its value.
* `constIdx_canonical_iff`: among index terms, their parts and the constants, extraction is
  canonical exactly when every part is exact.
* `simplifyStoreSelectChains_eval`: a term is simplified to one of its value when every two
  indices that the simplifier compares are equal just when their constants are.
-/

namespace TrustMc

namespace Scalarize

open Carriers Carriers.Val TrustMc.Expr

/-! ### Comparing indices -/

/-- The extracted constants of the two terms are equal exactly when the values are. -/
def ComparesRight (a b : Expr) : Prop :=
  ∀ i j, tryExtractConstIdx a = some i → tryExtractConstIdx b = some j →
    ∀ (T : Theory) (ρ : T.Env), i = j ↔ a.eval ρ = b.eval ρ

/-- The index and the terms that its constant is extracted from. -/
def indexParts : Expr → List Expr
  | .app .bvConcat [high, low] =>
    .app .bvConcat [high, low] :: (indexParts high ++ indexParts low)
  | .app (.bvExtract high low) [inner] => .app (.bvExtract high low) [inner] :: indexParts inner
  | .app (.bvBin .add) [lhs, rhs] =>
    .app (.bvBin .add) [lhs, rhs] :: (indexParts lhs ++ indexParts rhs)
  | e => [e]

/-- What extracting the constant of one term presupposes. -/
def PartExact : Expr → Prop
  | .app .bvConcat [_, _] | .app (.bvExtract _ _) [_] => True
  | .app (.bvBin .add) [lhs, rhs] => ∀ (T : Theory) (ρ : T.Env),
    (bits lhs.sort.width lhs ρ).toNat + (bits lhs.sort.width rhs ρ).toNat < 2 ^ lhs.sort.width
  | e => ∀ c, ConstProp.tryEvalToConst e = some c → ∀ (T : Theory) (ρ : T.Env), e.eval ρ = c.eval ρ

/-- The constant is the value of the term under every assignment. -/
structure Denotes (e : Expr) (i : ConstIdx) : Prop where
  sort : e.sort = .bitvec i.width
  value : ∀ (T : Theory) (ρ : T.Env), (bits i.width e ρ).toNat = i.value

theorem self_mem_indexParts (e : Expr) : e ∈ indexParts e := by
  unfold indexParts
  split <;> simp

/-- Constants that denote the terms are canonical. -/
theorem Denotes.comparesRight {a b : Expr}
    (ha : ∀ i, tryExtractConstIdx a = some i → Denotes a i)
    (hb : ∀ j, tryExtractConstIdx b = some j → Denotes b j) (hs : a.sort = b.sort) :
    ComparesRight a b := by
  intro i j hi hj T ρ
  obtain ⟨hsa, hva⟩ := ha i hi
  obtain ⟨hsb, hvb⟩ := hb j hj
  obtain ⟨v, w⟩ := i
  obtain ⟨v', w'⟩ := j
  obtain rfl : w = w' := by simpa [hsa, hsb] using hs
  rw [bits_inj hsa hsb, ← BitVec.toNat_inj, hva T ρ, hvb T ρ]
  simp

/-! ### Extraction -/

theorem tryExtractConstIdx_bitVecConst {w : ℕ} (x : BitVec w) :
    tryExtractConstIdx (.bitVecConst x) = some ⟨x.toNat, w⟩ := rfl

/-- A term that is compared with every constant of its sort rightly is denoted by its
constant. -/
theorem denotes_of_comparesRight {e : Expr} {w : ℕ} (hs : e.sort = .bitvec w) {i : ConstIdx}
    (hi : tryExtractConstIdx e = some i)
    (h : ∀ x : BitVec w, ComparesRight e (.bitVecConst x)) : Denotes e i := by
  have hval : ∀ (T : Theory) (ρ : T.Env), i = ⟨(bits w e ρ).toNat, w⟩ := fun T ρ => by
    refine (h (bits w e ρ) i _ hi (tryExtractConstIdx_bitVecConst _) T ρ).2 ?_
    rw [eval_eq_ofBV_bits hs, eval_app, Op.interp]
  obtain rfl : i.width = w := by rw [hval default fun _ _ => default]
  exact ⟨hs, fun T ρ => by rw [hval T ρ]⟩

/-- A term with one value. -/
theorem denotes_of_eval {e : Expr} {w : ℕ} {x : BitVec w}
    (hval : ∀ (T : Theory) (ρ : T.Env), e.eval ρ = ofBV x) : Denotes e ⟨x.toNat, w⟩ := by
  refine ⟨?_, fun T ρ => by rw [bits, hval T ρ, toBV_ofBV]⟩
  rw [← eval_sort e (fun _ _ => default : (default : Theory).Env), hval, fst_ofBV]

section Denotes

variable {a b : Expr} {i j : ConstIdx}

theorem Denotes.concat (ha : Denotes a i) (hb : Denotes b j) :
    Denotes (.app .bvConcat [a, b]) ⟨i.value <<< j.width ||| j.value, i.width + j.width⟩ := by
  refine ⟨by simp [Op.resultSort, ha.sort, hb.sort], fun T ρ => ?_⟩
  rw [bits, eval_bvConcat ha.sort hb.sort, toBV_ofBV, BitVec.toNat_append, ha.value, hb.value]

theorem Denotes.extract {high low : ℕ} (ha : Denotes a i) :
    Denotes (.app (.bvExtract high low) [a])
      ⟨i.value >>> low &&& (2 ^ (high - low + 1) - 1), high - low + 1⟩ := by
  refine ⟨by simp [Op.resultSort], fun T ρ => ?_⟩
  rw [bits, eval_bvExtract ha.sort, toBV_ofBV, BitVec.extractLsb_toNat, ha.value,
    Nat.and_two_pow_sub_one_eq_mod]

/-- The value of a sum. -/
theorem toNat_bits_add {w : ℕ} (ha : a.sort = .bitvec w) (T : Theory) (ρ : T.Env) :
    (bits w (.bv .add a b) ρ).toNat =
      ((bits w a ρ).toNat + (bits w b ρ).toNat) % 2 ^ w := by
  rw [bits, eval_bv ha, toBV_ofBV, BvBin.denote, BitVec.toNat_add]

/-- A sum is denoted by the sum of the constants exactly when it does not overflow. -/
theorem Denotes.add_iff (ha : Denotes a i) (hb : Denotes b j) (hw : i.width = j.width) :
    Denotes (.bv .add a b) ⟨i.value + j.value, i.width⟩ ↔ PartExact (.bv .add a b) := by
  have hsort : a.sort.width = i.width := by simp [ha.sort]
  have hvb : ∀ (T : Theory) (ρ : T.Env), (bits i.width b ρ).toNat = j.value :=
    fun T ρ => by rw [hw, hb.value]
  rw [PartExact, hsort]
  constructor
  · rintro ⟨-, hvalue⟩ T ρ
    have hlt := (bits i.width (.bv .add a b) ρ).isLt
    rw [ha.value, hvb]
    exact (hvalue T ρ).symm.trans_lt hlt
  · intro hlt
    refine ⟨by simp [Op.resultSort, ha.sort], fun T ρ => ?_⟩
    rw [toNat_bits_add ha.sort, Nat.mod_eq_of_lt (hlt T ρ), ha.value, hvb]

end Denotes

/-- **Extraction from exact parts** denotes the term. -/
theorem denotes_of_partExact {e : Expr} (h : ∀ s ∈ indexParts e, PartExact s) {i : ConstIdx}
    (hi : tryExtractConstIdx e = some i) : Denotes e i := by
  induction e generalizing i with
  | var n s => cases hi
  | quant q vs b => cases hi
  | app op args ih =>
    unfold tryExtractConstIdx at hi
    unfold indexParts at h
    split at hi
    · rename_i w x args' heq
      obtain rfl := Option.some.inj hi
      obtain ⟨rfl, rfl⟩ := Expr.app.inj heq
      exact denotes_of_eval fun T ρ => by rw [eval_app, Op.interp]
    · rename_i high low heq
      obtain ⟨rfl, rfl⟩ := Expr.app.inj heq
      simp only [Option.bind_eq_bind, Option.bind_eq_some_iff] at hi
      obtain ⟨k, hk, l, hl, hi⟩ := hi
      obtain rfl := Option.some.inj hi
      simp only [List.mem_cons, List.mem_append] at h
      exact (ih high (by simp) (fun s hs => h s (Or.inr (Or.inl hs))) hk).concat
        (ih low (by simp) (fun s hs => h s (Or.inr (Or.inr hs))) hl)
    · rename_i high low inner heq
      obtain ⟨rfl, rfl⟩ := Expr.app.inj heq
      simp only [Option.bind_eq_bind, Option.bind_eq_some_iff] at hi
      obtain ⟨base, hbase, hi⟩ := hi
      obtain rfl := Option.some.inj hi
      simp only [List.mem_cons] at h
      exact (ih inner (by simp) (fun s hs => h s (Or.inr hs)) hbase).extract
    · rename_i lhs rhs heq
      obtain ⟨rfl, rfl⟩ := Expr.app.inj heq
      simp only [Option.bind_eq_bind, Option.bind_eq_some_iff] at hi
      obtain ⟨l, hl, r, hr, hi⟩ := hi
      split_ifs at hi with hw
      obtain rfl := Option.some.inj hi
      simp only [List.mem_cons, List.mem_append] at h
      have hdl := ih lhs (by simp) (fun s hs => h s (Or.inr (Or.inl hs))) hl
      have hdr := ih rhs (by simp) (fun s hs => h s (Or.inr (Or.inr hs))) hr
      exact (hdl.add_iff hdr (not_not.1 hw)).2 (h _ (Or.inl rfl))
    · -- no operator of its own: the term is its only part
      rename_i hconst hconcat hextract hadd
      have hpart : PartExact (.app op args) := by
        refine h _ ?_
        split <;> simp_all
      rw [PartExact.eq_def] at hpart
      split at hi
      · rename_i w x args' heval
        obtain rfl := Option.some.inj hi
        refine denotes_of_eval fun T ρ => ?_
        split at hpart
        · rename_i heq
          exact (hconcat _ _ heq).elim
        · rename_i heq
          exact (hextract _ _ _ heq).elim
        · rename_i heq
          exact (hadd _ _ heq).elim
        · rw [hpart _ heval T ρ, eval_app, Op.interp]
      · cases hi

/-! ### Parts -/

/-- A constant index of a bit-vector sort that extraction gives a constant. -/
structure IsIndex (e : Expr) : Prop where
  wellSorted : e.WellSorted
  bitvec : ∃ w, e.sort = .bitvec w
  extracted : ∃ i, tryExtractConstIdx e = some i

/-- What passes from an index to the terms its constant is extracted from holds of its parts. -/
theorem indexParts_induction {P : Expr → Prop}
    (hconcat : ∀ a b, P (.app .bvConcat [a, b]) → P a ∧ P b)
    (hextract : ∀ high low a, P (.app (.bvExtract high low) [a]) → P a)
    (hadd : ∀ a b, P (.bv .add a b) → P a ∧ P b) {e : Expr} (he : P e) {s : Expr}
    (hs : s ∈ indexParts e) : P s := by
  induction e with
  | var n s => exact (List.mem_singleton.1 hs) ▸ he
  | quant q vs b => exact (List.mem_singleton.1 hs) ▸ he
  | app op args ih =>
    unfold indexParts at hs
    split at hs
    · rename_i a b heq
      obtain ⟨rfl, rfl⟩ := Expr.app.inj heq
      simp only [List.mem_cons, List.mem_append] at hs
      rcases hs with rfl | hs | hs
      · exact he
      · exact ih a (by simp) (hconcat a b he).1 hs
      · exact ih b (by simp) (hconcat a b he).2 hs
    · rename_i high low a heq
      obtain ⟨rfl, rfl⟩ := Expr.app.inj heq
      rcases List.mem_cons.1 hs with rfl | hs
      · exact he
      · exact ih a (by simp) (hextract high low a he) hs
    · rename_i a b heq
      obtain ⟨rfl, rfl⟩ := Expr.app.inj heq
      simp only [List.mem_cons, List.mem_append] at hs
      rcases hs with rfl | hs | hs
      · exact he
      · exact ih a (by simp) (hadd a b he).1 hs
      · exact ih b (by simp) (hadd a b he).2 hs
    · exact (List.mem_singleton.1 hs) ▸ he

/-- The parts of an index are indices. -/
theorem IsIndex.part {e s : Expr} (he : IsIndex e) (hs : s ∈ indexParts e) : IsIndex s := by
  refine indexParts_induction (P := IsIndex) (fun a b h => ?_) (fun high low a h => ?_)
    (fun a b h => ?_) he hs
  · obtain ⟨i, hi⟩ := h.extracted
    rw [tryExtractConstIdx] at hi
    simp only [Option.bind_eq_bind, Option.bind_eq_some_iff] at hi
    obtain ⟨k, hk, l, hl, -⟩ := hi
    obtain ⟨hacc, hargs⟩ := wellSorted_app.1 h.wellSorted
    obtain ⟨⟨w, hw⟩, w', hw'⟩ : (∃ w, a.sort = .bitvec w) ∧ ∃ w, b.sort = .bitvec w := by
      simpa [Op.accepts] using hacc
    exact ⟨⟨hargs a (by simp), ⟨w, hw⟩, k, hk⟩, hargs b (by simp), ⟨w', hw'⟩, l, hl⟩
  · obtain ⟨i, hi⟩ := h.extracted
    rw [tryExtractConstIdx] at hi
    simp only [Option.bind_eq_bind, Option.bind_eq_some_iff] at hi
    obtain ⟨k, hk, -⟩ := hi
    obtain ⟨hacc, hargs⟩ := wellSorted_app.1 h.wellSorted
    obtain ⟨⟨w, hw⟩, -⟩ : (∃ w, a.sort = .bitvec w) ∧ low ≤ high ∧ high < a.sort.width := by
      simpa [Op.accepts] using hacc
    exact ⟨hargs a (by simp), ⟨w, hw⟩, k, hk⟩
  · obtain ⟨i, hi⟩ := h.extracted
    rw [tryExtractConstIdx] at hi
    simp only [Option.bind_eq_bind, Option.bind_eq_some_iff] at hi
    obtain ⟨l, hl, r, hr, -⟩ := hi
    obtain ⟨hacc, hargs⟩ := wellSorted_app.1 h.wellSorted
    obtain ⟨⟨w, hw⟩, hsame⟩ : (∃ w, a.sort = .bitvec w) ∧ a.sort = b.sort := by
      simpa [Op.accepts] using hacc
    exact ⟨⟨hargs a (by simp), ⟨w, hw⟩, l, hl⟩, hargs b (by simp), ⟨w, hsame ▸ hw⟩, r, hr⟩

/-- The parts of a part are parts. -/
theorem indexParts_subset {e s : Expr} (hs : s ∈ indexParts e) : indexParts s ⊆ indexParts e := by
  refine indexParts_induction (P := fun s => indexParts s ⊆ indexParts e) (fun a b h => ?_)
    (fun high low a h => ?_) (fun a b h => ?_) (List.Subset.refl _) hs
  · rw [indexParts, List.cons_subset, List.append_subset] at h
    exact h.2
  · rw [indexParts, List.cons_subset] at h
    exact h.2
  · rw [indexParts, List.cons_subset, List.append_subset] at h
    exact h.2

/-- A part that its constant denotes, as the parts below do, is exact. -/
theorem partExact_of_denotes {e : Expr}
    (h : ∀ s ∈ indexParts e, ∀ i, tryExtractConstIdx s = some i → Denotes s i) (he : IsIndex e) :
    PartExact e := by
  obtain ⟨i, hi⟩ := he.extracted
  have hself := h e (self_mem_indexParts e) i hi
  rw [PartExact.eq_def]
  split
  · trivial
  · trivial
  · rename_i lhs rhs
    have hl := he.part (s := lhs) (by simp [indexParts, self_mem_indexParts])
    have hr := he.part (s := rhs) (by simp [indexParts, self_mem_indexParts])
    obtain ⟨l, hl⟩ := hl.extracted
    obtain ⟨r, hr⟩ := hr.extracted
    rw [tryExtractConstIdx, hl, hr] at hi
    simp only [Option.bind_eq_bind, Option.bind_some] at hi
    split_ifs at hi with hw
    obtain rfl := Option.some.inj hi
    have hdl := h lhs (by simp [indexParts, self_mem_indexParts]) l hl
    have hdr := h rhs (by simp [indexParts, self_mem_indexParts]) r hr
    exact (hdl.add_iff hdr (not_not.1 hw)).1 hself
  · rename_i hconcat hextract hadd
    intro c hc T ρ
    -- the constant is the folded one
    have hfold : ∃ w, ∃ x : BitVec w, ∃ args, c = .app (.bitVecConst w x) args ∧
        i = ⟨x.toNat, w⟩ := by
      rw [tryExtractConstIdx.eq_def] at hi
      split at hi
      · rename_i w x args
        obtain rfl := Option.some.inj hi
        rw [ConstProp.tryEvalToConst_eq] at hc
        exact ⟨w, x, args, (Option.some.inj hc).symm, rfl⟩
      · exact (hconcat _ _ rfl).elim
      · exact (hextract _ _ _ rfl).elim
      · exact (hadd _ _ rfl).elim
      · rw [hc] at hi
        split at hi
        · rename_i w x args heq
          obtain rfl := Option.some.inj heq
          exact ⟨w, x, args, rfl, (Option.some.inj hi).symm⟩
        · cases hi
    obtain ⟨w, x, args, rfl, rfl⟩ := hfold
    have hx : bits w e ρ = x := BitVec.eq_of_toNat_eq (hself.value T ρ)
    rw [eval_eq_ofBV_bits hself.sort, hx, eval_app, Op.interp]

/-! ### Reads of store chains -/

/-- Reading through the stores, every two indices whose constants are compared are compared
rightly. -/
def ReadsCanonically (selectIndex : Expr) : Expr → Prop
  | .store inner storeIndex _ =>
    selectIndex ≠ storeIndex → (tryExtractConstIdx storeIndex).isSome = true →
      ComparesRight selectIndex storeIndex ∧
        (tryExtractConstIdx selectIndex ≠ tryExtractConstIdx storeIndex →
          ReadsCanonically selectIndex inner)
  | _ => True

/-- Simplifying one level, every comparison is right; `reads` says so of the recursive calls. -/
def StepCanonical (simplify : Expr → Expr) (reads : Expr → Prop) : Expr → Prop
  | .var _ _ => True
  | .app .select [array, index] =>
    reads array ∧ reads index ∧ ReadsCanonically (simplify index) (simplify array) ∧
      ∀ resolved, simplifySelectFromArray (simplify index) (simplify array) = some resolved →
        reads resolved
  | .app _ args => ∀ a ∈ args, reads a
  | .quant _ _ body => reads body

/-- Simplifying to a nesting depth, every comparison is right. -/
def CanonicalAt : ℕ → Expr → Prop
  | 0, _ => True
  | n + 1, e => StepCanonical (simplifyAt n) (CanonicalAt n) e

/-- In the run of `simplify_store_select_chains` on the term, every comparison is right. -/
def SimplifiesCanonically (e : Expr) : Prop := CanonicalAt (chainWeight e) e

section Sound

variable {T : Theory} {H : T.Env → Prop}

/-- What a read of a store may be resolved to: the stored value where the indices are equal,
and the read of the array below where they are not. -/
theorem rewrites_select_store {inner idx val sel e : Expr}
    (hws : ((inner.store idx val).select sel).WellSorted) (hs : e.sort = val.sort)
    (he : e.WellSorted) (hocc : ∀ o ∈ e.freeOccs, o ∈ ((inner.store idx val).select sel).freeOccs)
    (hbound : ∀ n ∈ e.boundVars, n ∈ ((inner.store idx val).select sel).boundVars)
    (heq : ∀ ρ, H ρ → sel.eval ρ = idx.eval ρ → e.eval ρ = val.eval ρ)
    (hne : ∀ ρ, H ρ → sel.eval ρ ≠ idx.eval ρ → e.eval ρ = (inner.select sel).eval ρ) :
    Rewrites H [] ((inner.store idx val).select sel) e := by
  obtain ⟨hsort, hsels, -, -, -, -⟩ := ConstProp.parts_of_select_store hws
  refine .of_eval ?_ he hocc hbound fun ρ hρ => ?_
  · simp [Op.resultSort, hsort, SmtSort.arraySort, hs]
  · by_cases hsame : sel.eval ρ = idx.eval ρ
    · rw [heq ρ hρ hsame, eval_select_store_eq hsort rfl hsame.symm]
    · rw [hne ρ hρ hsame, eval_select_store_ne hsort rfl hsels (Ne.symm hsame)]

/-- **Reading through stores** whose indices are compared rightly. -/
theorem simplifySelectFromArray_rewrites {arr sel e : Expr} (hws : (arr.select sel).WellSorted)
    (hr : ReadsCanonically sel arr) (h : simplifySelectFromArray sel arr = some e) :
    Rewrites H [] (arr.select sel) e := by
  induction arr generalizing e with
  | var n s => cases h
  | quant q vs b => cases h
  | app op args ih =>
    rw [simplifySelectFromArray.eq_def] at h
    split at h
    case h_3 => cases h
    · -- a constant array
      rename_i s value heq
      obtain ⟨rfl, rfl⟩ := Expr.app.inj heq
      obtain rfl := Option.some.inj h
      have hvalue := (wellSorted_app.1 ((wellSorted_app.1 hws).2 _ List.mem_cons_self)).2 value
        (by simp)
      refine .of_eval ?_ hvalue ?_ ?_ fun ρ _ => (eval_select_constArray s).symm
      · simp [Op.resultSort, SmtSort.arraySort]
      · simp +contextual
      · simp +contextual
    rename_i inner idx val heq
    obtain ⟨rfl, rfl⟩ := Expr.app.inj heq
    obtain ⟨hsort, hsels, hinner, hidx, hval, hsel⟩ := ConstProp.parts_of_select_store hws
    have hstored : (∀ ρ : T.Env, sel.eval ρ = idx.eval ρ) →
        Rewrites H [] ((inner.store idx val).select sel) val := fun hsame =>
      rewrites_select_store hws rfl hval (by simp +contextual) (by simp +contextual)
        (fun _ _ _ => rfl) fun ρ _ hne => absurd (hsame ρ) hne
    split_ifs at h with hsame
    · obtain rfl := Option.some.inj h
      exact hstored fun ρ => by rw [hsame]
    · obtain ⟨storeConst, hstore, h⟩ := Option.bind_eq_some_iff.1 h
      rw [ReadsCanonically.eq_def] at hr
      obtain ⟨hcompare, hbelow⟩ := hr hsame (by rw [hstore]; rfl)
      by_cases hconst : tryExtractConstIdx sel = some storeConst
      · rw [hconst] at h
        simp only [if_true] at h
        obtain rfl := Option.some.inj h
        exact hstored fun ρ => (hcompare _ _ hconst hstore T ρ).1 rfl
      replace hbelow := hbelow (by rwa [hstore])
      -- what the read of the array below is resolved to
      have hfallback : Rewrites H [] (inner.select sel)
          ((simplifySelectFromArray sel inner).getD (inner.select sel)) := by
        cases hres : simplifySelectFromArray sel inner with
        | none => exact .refl hinner
        | some e' => exact ih inner (by simp) hinner hbelow hres
      have hfsort : ((simplifySelectFromArray sel inner).getD (inner.select sel)).sort =
          val.sort := by
        rw [hfallback.sort]
        simp [Op.resultSort, hsort, SmtSort.arraySort]
      have hfocc : ∀ o ∈ ((simplifySelectFromArray sel inner).getD (inner.select sel)).freeOccs,
          o ∈ inner.freeOccs ∨ o ∈ sel.freeOccs := fun o ho => by
        simpa using hfallback.occs o ho
      have hfbound : ∀ n ∈ ((simplifySelectFromArray sel inner).getD
          (inner.select sel)).boundVars, n ∈ inner.boundVars ∨ n ∈ sel.boundVars := fun n hn => by
        simpa using hfallback.bound n hn
      split at h
      · rename_i selectConst hselect
        have hne : selectConst ≠ storeConst := fun he => hconst (hselect.trans (by rw [he]))
        rw [if_neg hne] at h
        obtain rfl := Option.some.inj h
        refine rewrites_select_store hws hfsort hfallback.wellSorted (fun o ho => ?_)
          (fun n hn => ?_)
          (fun ρ _ heq => absurd ((hcompare _ _ hselect hstore T ρ).2 heq) hne)
          fun ρ hρ _ => hfallback.eval ρ hρ
        · rcases hfocc o ho with ho | ho <;> simp [ho]
        · rcases hfbound n hn with hn | hn <;> simp [hn]
      · -- a symbolic index: both cases are kept
        obtain rfl := Option.some.inj h
        have hcond : (sel.eq idx).WellSorted :=
          wellSorted_app.2 ⟨by simp [Op.accepts, hsels], by simp [hsel, hidx]⟩
        refine rewrites_select_store hws (by simp [Op.resultSort]) ?_ (fun o ho => ?_)
          (fun n hn => ?_) (fun ρ _ heq => ?_) fun ρ hρ hne => ?_
        · refine wellSorted_app.2 ⟨by simp [Op.accepts, Op.resultSort, hfsort], ?_⟩
          exact List.forall_mem_cons.2 ⟨hcond, List.forall_mem_cons.2 ⟨hval,
            List.forall_mem_singleton.2 hfallback.wellSorted⟩⟩
        · simp only [freeOccs_app, List.flatMap_cons, List.flatMap_nil, List.append_nil,
            List.mem_append] at ho ⊢
          rcases ho with (ho | ho) | ho | ho
          · exact Or.inr ho
          · exact Or.inl (Or.inr (Or.inl ho))
          · exact Or.inl (Or.inr (Or.inr ho))
          · exact (hfocc o ho).imp_left Or.inl
        · simp only [boundVars_app, List.flatMap_cons, List.flatMap_nil, List.append_nil,
            List.mem_append] at hn ⊢
          rcases hn with (hn | hn) | hn | hn
          · exact Or.inr hn
          · exact Or.inl (Or.inr (Or.inl hn))
          · exact Or.inl (Or.inr (Or.inr hn))
          · exact (hfbound n hn).imp_left Or.inl
        · rw [eval_ite hfsort.symm, if_pos (holds_eq.2 heq)]
        · rw [eval_ite hfsort.symm, if_neg fun hh => hne (holds_eq.1 hh), hfallback.eval ρ hρ]

/-- Stores that change nothing are dropped. -/
theorem simplifyStore_rewrites {a i v : Expr} (hws : (a.store i v).WellSorted) :
    Rewrites H [] (a.store i v) (simplifyStore a i v) := by
  obtain ⟨hacc, hargs⟩ := wellSorted_app.1 hws
  have hsort : a.sort = .array i.sort v.sort := ConstProp.sorts_of_store hws
  -- the store has the value of the array below
  have hdrop : (∀ ρ : T.Env, a.eval ρ = (a.store i v).eval ρ) →
      Rewrites H [] (a.store i v) a := fun heval =>
    .to_arg (by simp) hws (by simp [Op.resultSort]) fun ρ _ => heval ρ
  rw [simplifyStore]
  split_ifs with hnoop
  · refine hdrop fun ρ => ?_
    rcases Bool.or_eq_true_iff.1 hnoop with hdefault | hread
    · unfold isDefault at hdefault
      split at hdefault
      · rename_i s default
        obtain rfl := beq_iff_eq.1 hdefault
        have hs : s = i.sort := by
          simpa [Op.resultSort, SmtSort.arraySort] using
            congrArg (fun s => s.arraySort.map (·.1)) hsort
        exact (eval_constArray_eq_store hs.symm rfl).2 rfl
      · cases hdefault
    · unfold isReadAt at hread
      split at hread
      · simp only [Bool.and_eq_true, beq_iff_eq] at hread
        obtain ⟨rfl, rfl⟩ := hread
        exact (eval_store_select hsort rfl rfl rfl).symm
      · cases hread
  · exact .refl hws

/-- **One level of simplification** keeps the value. -/
theorem simplifyStep_rewrites {f : Expr → Expr} {reads : Expr → Prop}
    (hf : ∀ e, e.WellSorted → reads e → Rewrites (T := T) (fun _ => True) [] e (f e)) {e : Expr}
    (hws : e.WellSorted) (hr : StepCanonical f reads e) :
    Rewrites (T := T) (fun _ => True) [] e (simplifyStep f e) := by
  rw [StepCanonical.eq_def] at hr
  unfold simplifyStep
  split
  · exact .refl hws
  · rename_i array index
    obtain ⟨hra, hri, hread, hres⟩ := hr
    obtain ⟨hacc, hargs⟩ := wellSorted_app.1 hws
    have happ := Rewrites.app₂ (hf array (hargs _ (by simp)) hra)
      (hf index (hargs _ (by simp)) hri) hacc
    dsimp only
    split
    · rename_i resolved hresolved
      have hsel := simplifySelectFromArray_rewrites (H := fun _ : T.Env => True) happ.wellSorted
        hread hresolved
      exact happ.trans (hsel.trans (hf resolved hsel.wellSorted (hres resolved hresolved)))
    · exact happ
  · rename_i array index value
    obtain ⟨hacc, hargs⟩ := wellSorted_app.1 hws
    have happ := Rewrites.app₃ (hf array (hargs _ (by simp)) (hr array (by simp)))
      (hf index (hargs _ (by simp)) (hr index (by simp)))
      (hf value (hargs _ (by simp)) (hr value (by simp))) hacc
    exact happ.trans (simplifyStore_rewrites happ.wellSorted)
  · rename_i op args hselect hstore
    obtain ⟨hacc, hargs⟩ := wellSorted_app.1 hws
    refine .app ?_ hacc
    rw [List.forall₂_map_right_iff, List.forall₂_same]
    refine fun a ha => hf a (hargs a ha) ?_
    split at hr
    · rename_i heq
      cases heq
    · rename_i array index heq
      obtain ⟨rfl, rfl⟩ := Expr.app.inj heq
      exact (hselect _ _ rfl rfl).elim
    · rename_i heq
      obtain ⟨rfl, rfl⟩ := Expr.app.inj heq
      exact hr a ha
    · rename_i heq
      cases heq
  · exact (hf _ (wellSorted_quant.1 hws).2 hr).binder (wellSorted_quant.1 hws).1
      fun _ _ _ _ => trivial

theorem simplifyAt_rewrites {n : ℕ} {e : Expr} (hws : e.WellSorted) (hr : CanonicalAt n e) :
    Rewrites (T := T) (fun _ => True) [] e (simplifyAt n e) := by
  induction n generalizing e with
  | zero => exact .refl hws
  | succ n ih => exact simplifyStep_rewrites (fun e hws hr => ih hws hr) hws hr

end Sound

/-! ### When extraction is canonical -/

/-- Among index terms, their parts and the constants, extracted constants are compared rightly. -/
def CanonicalAmong (es : List Expr) : Prop :=
  ∀ a ∈ es.flatMap indexParts, ∀ b,
    (b ∈ es.flatMap indexParts ∨ ∃ w, ∃ x : BitVec w, b = .bitVecConst x) → a.sort = b.sort →
      ComparesRight a b

/-- **Extraction is canonical** exactly when every part of the indices is exact; and terms are
simplified to terms of their values when the comparisons on the way are right. -/
theorem constIdx_canonical_iff {es : List Expr} (hes : ∀ e ∈ es, IsIndex e) :
    (CanonicalAmong es ↔ ∀ e ∈ es.flatMap indexParts, PartExact e) ∧
      (∀ arr sel e : Expr, (arr.select sel).WellSorted → ReadsCanonically sel arr →
        simplifySelectFromArray sel arr = some e →
        ∀ (T : Theory) (ρ : T.Env), e.eval ρ = (arr.select sel).eval ρ) ∧
      ∀ e : Expr, e.WellSorted → SimplifiesCanonically e →
        ∀ (T : Theory) (ρ : T.Env), (simplifyStoreSelectChains e).eval ρ = e.eval ρ := by
  have hindex : ∀ s ∈ es.flatMap indexParts, IsIndex s := fun s hs => by
    obtain ⟨e, he, hs⟩ := List.mem_flatMap.1 hs
    exact (hes e he).part hs
  have hclosed : ∀ s ∈ es.flatMap indexParts, indexParts s ⊆ es.flatMap indexParts := by
    intro s hs t ht
    obtain ⟨e, he, hs⟩ := List.mem_flatMap.1 hs
    exact List.mem_flatMap.2 ⟨e, he, indexParts_subset hs ht⟩
  refine ⟨⟨fun h s hs => ?_, fun h => ?_⟩, fun arr sel e hws hr hres T ρ => ?_,
    fun e hws hr T ρ => (simplifyAt_rewrites hws hr).eval ρ trivial⟩
  · refine partExact_of_denotes (fun t ht i hi => ?_) (hindex s hs)
    obtain ⟨w, hw⟩ := (hindex t (hclosed s hs ht)).bitvec
    exact denotes_of_comparesRight hw hi fun x =>
      h t (hclosed s hs ht) _ (Or.inr ⟨w, x, rfl⟩) (by simp [hw, Op.resultSort])
  · have hdenotes : ∀ s ∈ es.flatMap indexParts, ∀ i, tryExtractConstIdx s = some i →
        Denotes s i := fun s hs i hi =>
      denotes_of_partExact (fun t ht => h t (hclosed s hs ht)) hi
    rintro a ha b (hb | ⟨w, x, rfl⟩) hs
    · exact Denotes.comparesRight (hdenotes a ha) (hdenotes b hb) hs
    · refine Denotes.comparesRight (hdenotes a ha) (fun j hj => ?_) hs
      obtain rfl := Option.some.inj hj
      exact denotes_of_eval fun T ρ => by rw [eval_app, Op.interp]
  · exact (simplifySelectFromArray_rewrites (H := fun _ : T.Env => True) hws hr hres).eval ρ
      trivial

/-- A byte. -/
private abbrev indexByte (n : ℕ) : Expr := .bitVecConst (BitVec.ofNat 8 n)

/-- `4 + 4` and `8` have one constant. -/
theorem constIdx_canonical_sum :
    CanonicalAmong [.bv .add (indexByte 4) (indexByte 4), indexByte 8] ∧
      tryExtractConstIdx (.bv .add (indexByte 4) (indexByte 4)) =
        tryExtractConstIdx (indexByte 8) := by
  have hes : ∀ e ∈ [Expr.bv .add (indexByte 4) (indexByte 4), indexByte 8], IsIndex e := by
    refine List.forall_mem_cons.2 ⟨⟨?_, ⟨8, rfl⟩, _, rfl⟩,
      List.forall_mem_singleton.2 ⟨?_, ⟨8, rfl⟩, _, rfl⟩⟩
    · simp [Op.accepts, Op.resultSort]
    · simp [Op.accepts]
  have hconst : ∀ n, PartExact (indexByte n) := fun n c hc T ρ => by
    rw [ConstProp.tryEvalToConst_eq] at hc
    obtain rfl := Option.some.inj hc
    rfl
  refine ⟨(constIdx_canonical_iff hes).1.2 ?_, by decide +kernel⟩
  have hsum : PartExact (.bv .add (indexByte 4) (indexByte 4)) := fun T ρ => by
    have h4 : bits 8 (indexByte 4) ρ = 4#8 := bits_bitVecConst _ _
    change (bits 8 (indexByte 4) ρ).toNat + (bits 8 (indexByte 4) ρ).toNat < 2 ^ 8
    rw [h4]
    decide
  simpa [indexParts] using ⟨hsum, hconst 4, hconst 8⟩

/-- **A sum that overflows**: `255 + 1` is zero, with another constant, and the read of what
was stored at it goes past the store. -/
theorem constIdx_not_canonical :
    ¬ComparesRight (.bv .add (indexByte 255) (indexByte 1)) (indexByte 0) ∧
      simplifyStoreSelectChains
          (((Expr.var "a" (.array (.bitvec 8) (.bitvec 8))).store
            (.bv .add (indexByte 255) (indexByte 1)) (indexByte 7)).select (indexByte 0)) =
        (Expr.var "a" (.array (.bitvec 8) (.bitvec 8))).select (indexByte 0) ∧
      ∃ ρ : (default : Theory).Env,
        ((Expr.var "a" (.array (.bitvec 8) (.bitvec 8))).select (indexByte 0)).eval ρ ≠
          (((Expr.var "a" (.array (.bitvec 8) (.bitvec 8))).store
            (.bv .add (indexByte 255) (indexByte 1)) (indexByte 7)).select (indexByte 0)).eval ρ := by
  have hzero : ∀ (T : Theory) (ρ : T.Env),
      (Expr.bv .add (indexByte 255) (indexByte 1)).eval ρ = (indexByte 0).eval ρ := by
    intro T ρ
    have hbits : bits 8 (.bv .add (indexByte 255) (indexByte 1)) ρ = 0#8 := by
      rw [bits, eval_bv rfl, toBV_ofBV, bits_bitVecConst, bits_bitVecConst]
      decide
    have hsort : (Expr.bv .add (indexByte 255) (indexByte 1)).sort = .bitvec 8 := rfl
    rw [eval_eq_ofBV_bits hsort, hbits, eval_app, Op.interp]
  refine ⟨fun h => ?_, by decide +kernel, ?_⟩
  · have hsame := (h ⟨256, 8⟩ ⟨0, 8⟩ (by decide +kernel) (by decide +kernel) default
      fun _ _ => default).2 (hzero _ _)
    exact absurd hsame (by decide)
  · -- everywhere zero, the array does not hold what was stored
    let ρ : (default : Theory).Env := .ofVals fun _ =>
      (Expr.app (.constArray (.bitvec 8)) [indexByte 0]).eval fun _ _ => default
    have ha : (Expr.var "a" (.array (.bitvec 8) (.bitvec 8))).eval ρ =
        (Expr.app (.constArray (.bitvec 8)) [indexByte 0]).eval ρ := by
      rw [eval_var_ofVals (eval_sort _ _)]
      exact eval_congr_occs (by simp)
    refine ⟨ρ, ?_⟩
    rw [eval_select_store_eq rfl rfl (hzero _ ρ), eval_select, ha, ← eval_select,
      eval_select_constArray, eval_app, eval_app, Op.interp, Op.interp, ne_eq, ofBV_inj]
    decide

end Scalarize

end TrustMc
