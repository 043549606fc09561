import Mathlib.Algebra.Order.BigOperators.Group.List
import Mathlib.Tactic.Linarith
import TrustMc.Scalarize.ConstIdx

/-!
# Reads of store chains

`simplifyStoreSelectChains` resolves a read of a chain of stores: a read at the index of a store
is its value, a read at another constant index goes past it. What a read is resolved to is
simplified again. It weighs less than the read (`chainWeight`), so the weight of a term bounds
the nesting of these calls, and the simplifier satisfies the recursion it is written as
(`simplifyStoreSelectChains_eq`).
-/

namespace TrustMc

namespace Scalarize

/-- `simplify_select_from_array`. -/
def simplifySelectFromArray (selectIndex : Expr) : Expr → Option Expr
  | .app (.constArray _) [value] => some value
  | .store inner storeIndex value =>
    if selectIndex = storeIndex then some value
    else do
      let storeConst ← tryExtractConstIdx storeIndex
      let fallback := (simplifySelectFromArray selectIndex inner).getD (inner.select selectIndex)
      match tryExtractConstIdx selectIndex with
      | some selectConst => if selectConst = storeConst then some value else some fallback
      | none => some (.ite (selectIndex.eq storeIndex) value fallback)
  | _ => none

/-- The value is the default of the constant array. -/
def isDefault (value : Expr) : Expr → Bool
  | .app (.constArray _) [default] => default == value
  | _ => false

/-- The value is what the array has at the index. -/
def isReadAt (array index : Expr) : Expr → Bool
  | .app .select [selectedArray, selectedIndex] =>
    selectedArray == array && selectedIndex == index
  | _ => false

/-- The `Store` arm of `simplify_store_select_chains`: some stores change nothing. -/
def simplifyStore (newArray newIndex newValue : Expr) : Expr :=
  if isDefault newValue newArray || isReadAt newArray newIndex newValue then newArray
  else newArray.store newIndex newValue

/-- One level of `simplify_store_select_chains`; `simplify` is the recursive call. -/
def simplifyStep (simplify : Expr → Expr) : Expr → Expr
  | .var name sort => .var name sort
  | .app .select [array, index] =>
    let newArray := simplify array
    let newIndex := simplify index
    match simplifySelectFromArray newIndex newArray with
    | some resolved => simplify resolved
    | none => newArray.select newIndex
  | .store array index value => simplifyStore (simplify array) (simplify index) (simplify value)
  | .app op args => .app op (args.map simplify)
  | .quant q vars body => .quant q vars (simplify body)

/-- `simplify_store_select_chains`, to a nesting depth. -/
def simplifyAt : ℕ → Expr → Expr
  | 0, e => e
  | n + 1, e => simplifyStep (simplifyAt n) e

/-- The weight of an application: a read weighs as much as the product of the array and the
index. -/
def nodeWeight : Op → List ℕ → ℕ
  | .select, [array, index] => array * index
  | _, weights => weights.sum + 2

mutual

/-- A weight that resolving a read decreases. -/
def chainWeight : Expr → ℕ
  | .var _ _ => 2
  | .app op args => nodeWeight op (chainWeightList args)
  | .quant _ _ body => chainWeight body + 2

/-- The weights of a list of terms. -/
def chainWeightList : List Expr → List ℕ
  | [] => []
  | e :: es => chainWeight e :: chainWeightList es

end

/-- `simplify_store_select_chains`. -/
def simplifyStoreSelectChains (e : Expr) : Expr := simplifyAt (chainWeight e) e

/-- `simplify_store_select_chains_in_vc`. -/
def simplifyStoreSelectChainsInVc (vc : ChcVc) : ChcVc :=
  { vc with
    rules := vc.rules.map fun rule =>
      { rule with
        body := { rule.body with
          constraints := rule.body.constraints.map simplifyStoreSelectChains } } }

/-! ### The recursion -/

section Recursion

@[simp]
theorem chainWeightList_eq (es : List Expr) : chainWeightList es = es.map chainWeight := by
  induction es with
  | nil => rfl
  | cons e es ih => simp [chainWeightList, ih]

theorem chainWeight_app (op : Op) (args : List Expr) :
    chainWeight (.app op args) = nodeWeight op (args.map chainWeight) := by
  rw [chainWeight, chainWeightList_eq]

theorem chainWeight_select (a i : Expr) :
    chainWeight (a.select i) = chainWeight a * chainWeight i := by
  rw [chainWeight_app]
  rfl

theorem chainWeight_store (a i v : Expr) :
    chainWeight (a.store i v) = chainWeight a + chainWeight i + chainWeight v + 2 := by
  rw [chainWeight_app]
  simp only [nodeWeight, List.map_cons, List.map_nil, List.sum_cons, List.sum_nil]
  omega

/-- An application weighs more than its arguments. -/
theorem lt_nodeWeight {op : Op} {weights : List ℕ} (h : ∀ w ∈ weights, 2 ≤ w) {w : ℕ}
    (hw : w ∈ weights) : w < nodeWeight op weights := by
  unfold nodeWeight
  split
  · rename_i array index
    have ha := h array (by simp)
    have hi := h index (by simp)
    rcases List.mem_pair.1 hw with rfl | rfl <;> nlinarith only [ha, hi]
  · have hsum := List.single_le_sum (fun _ _ => Nat.zero_le _) _ hw
    exact Nat.lt_succ_of_le (hsum.trans (Nat.le_succ _))

theorem two_le_nodeWeight {op : Op} {weights : List ℕ} (h : ∀ w ∈ weights, 2 ≤ w) :
    2 ≤ nodeWeight op weights := by
  unfold nodeWeight
  split
  · rename_i array index
    have ha := h array (by simp)
    have hi := h index (by simp)
    nlinarith only [ha, hi]
  · exact Nat.le_add_left _ _

theorem nodeWeight_mono {α : Type} {op : Op} {as : List α} {f g : α → ℕ}
    (h : ∀ a ∈ as, f a ≤ g a) : nodeWeight op (as.map f) ≤ nodeWeight op (as.map g) := by
  by_cases hselect : op = .select ∧ ∃ a i, as = [a, i]
  · obtain ⟨rfl, a, i, rfl⟩ := hselect
    exact Nat.mul_le_mul (h a (by simp)) (h i (by simp))
  · have hsum : ∀ k : α → ℕ, nodeWeight op (as.map k) = (as.map k).sum + 2 := by
      intro k
      unfold nodeWeight
      split
      · rename_i heq
        match as, heq with
        | [a, i], _ => exact absurd ⟨rfl, a, i, rfl⟩ hselect
      · rfl
    rw [hsum, hsum]
    exact Nat.add_le_add_right (List.sum_le_sum h) 2

theorem two_le_chainWeight (e : Expr) : 2 ≤ chainWeight e := by
  induction e with
  | var n s => exact le_rfl
  | app op args ih =>
    rw [chainWeight_app]
    exact two_le_nodeWeight (List.forall_mem_map.2 ih)
  | quant q vs b ih => exact Nat.le_add_left _ _

theorem chainWeight_arg_lt {op : Op} {args : List Expr} {e : Expr} (h : e ∈ args) :
    chainWeight e < chainWeight (.app op args) := by
  rw [chainWeight_app]
  exact lt_nodeWeight (List.forall_mem_map.2 fun e _ => two_le_chainWeight e)
    (List.mem_map_of_mem h)

/-- **Resolving a read** gives a term that weighs less. -/
theorem chainWeight_simplifySelectFromArray {i : Expr} : ∀ {a e : Expr},
    simplifySelectFromArray i a = some e → chainWeight e < chainWeight a * chainWeight i
  | .app (.constArray s) [value], e, h => by
    obtain rfl := Option.some.inj h
    have hlt : chainWeight value < chainWeight (.app (.constArray s) [value]) :=
      chainWeight_arg_lt (by simp)
    exact hlt.trans_le (Nat.le_mul_of_pos_right _ (Nat.zero_lt_of_lt (two_le_chainWeight i)))
  | .store inner j v, e, h => by
    have hi := two_le_chainWeight i
    have hj := two_le_chainWeight j
    have hv := two_le_chainWeight v
    have hinner := two_le_chainWeight inner
    have hfallback : chainWeight ((simplifySelectFromArray i inner).getD (inner.select i)) ≤
        chainWeight inner * chainWeight i := by
      cases hres : simplifySelectFromArray i inner with
      | none => exact (chainWeight_select inner i).le
      | some e' => exact (chainWeight_simplifySelectFromArray hres).le
    rw [chainWeight_store]
    rw [simplifySelectFromArray] at h
    split_ifs at h
    · obtain rfl := Option.some.inj h
      nlinarith only [hi, hj, hv, hinner]
    · obtain ⟨storeConst, -, h⟩ := Option.bind_eq_some_iff.1 h
      split at h
      · split_ifs at h
        · obtain rfl := Option.some.inj h
          nlinarith only [hi, hj, hv, hinner]
        · obtain rfl := Option.some.inj h
          nlinarith only [hi, hj, hv, hinner, hfallback]
      · obtain rfl := Option.some.inj h
        simp only [chainWeight_app, nodeWeight, List.map_cons, List.map_nil, List.sum_cons,
          List.sum_nil]
        nlinarith only [hi, hj, hv, hinner, hfallback]

theorem chainWeight_simplifyStore (a i v : Expr) :
    chainWeight (simplifyStore a i v) ≤ chainWeight (a.store i v) := by
  rw [simplifyStore]
  split_ifs
  · exact (chainWeight_arg_lt (by simp)).le
  · exact le_rfl

/-- One level of simplification does not add weight if the recursive calls do not. -/
theorem chainWeight_simplifyStep {f : Expr → Expr} (h : ∀ e, chainWeight (f e) ≤ chainWeight e)
    (e : Expr) : chainWeight (simplifyStep f e) ≤ chainWeight e := by
  unfold simplifyStep
  split
  · exact le_rfl
  · rename_i array index
    have hread : chainWeight (f array) * chainWeight (f index) ≤
        chainWeight (array.select index) := by
      rw [chainWeight_select]
      exact Nat.mul_le_mul (h array) (h index)
    dsimp only
    split
    · exact (h _).trans ((chainWeight_simplifySelectFromArray ‹_›).le.trans hread)
    · rwa [chainWeight_select]
  · rename_i array index value
    refine (chainWeight_simplifyStore _ _ _).trans ?_
    rw [chainWeight_store, chainWeight_store]
    exact Nat.add_le_add_right (Nat.add_le_add (Nat.add_le_add (h _) (h _)) (h _)) 2
  · rw [chainWeight_app, chainWeight_app, List.map_map]
    exact nodeWeight_mono fun a _ => h a
  · exact Nat.add_le_add_right (h _) 2

theorem chainWeight_simplifyAt (n : ℕ) (e : Expr) :
    chainWeight (simplifyAt n e) ≤ chainWeight e := by
  induction n generalizing e with
  | zero => exact le_rfl
  | succ n ih => exact chainWeight_simplifyStep ih e

/-- One level of simplification only asks for terms that weigh less. -/
theorem simplifyStep_congr {f g : Expr → Expr} {e : Expr}
    (hf : ∀ e, chainWeight (f e) ≤ chainWeight e)
    (h : ∀ a, chainWeight a < chainWeight e → f a = g a) :
    simplifyStep f e = simplifyStep g e := by
  unfold simplifyStep
  split
  · rfl
  · rename_i array index
    have harray := h array (chainWeight_arg_lt (by simp))
    have hindex := h index (chainWeight_arg_lt (by simp))
    rw [← harray, ← hindex]
    dsimp only
    split
    · refine h _ ((chainWeight_simplifySelectFromArray ‹_›).trans_le ?_)
      rw [chainWeight_select]
      exact Nat.mul_le_mul (hf array) (hf index)
    · rfl
  · rename_i array index value
    rw [h array (chainWeight_arg_lt (by simp)), h index (chainWeight_arg_lt (by simp)),
      h value (chainWeight_arg_lt (by simp))]
  · rw [List.map_congr_left fun a ha => h a (chainWeight_arg_lt ha)]
  · rw [h _ (Nat.lt_add_of_pos_right (Nat.zero_lt_two))]

/-- The weight is depth enough. -/
theorem simplifyAt_of_weight_le {m n : ℕ} {e : Expr} (hm : chainWeight e ≤ m)
    (hn : chainWeight e ≤ n) : simplifyAt m e = simplifyAt n e := by
  induction m generalizing n e with
  | zero => exact absurd (hm.trans (Nat.zero_le 1)) (Nat.not_le.2 (two_le_chainWeight e))
  | succ m ih =>
    cases n with
    | zero => exact absurd (hn.trans (Nat.zero_le 1)) (Nat.not_le.2 (two_le_chainWeight e))
    | succ n =>
      exact simplifyStep_congr (chainWeight_simplifyAt m) fun a ha =>
        ih (Nat.le_of_lt_succ (ha.trans_le hm)) (Nat.le_of_lt_succ (ha.trans_le hn))

/-- **The recursion** of `simplify_store_select_chains`. -/
theorem simplifyStoreSelectChains_eq (e : Expr) :
    simplifyStoreSelectChains e = simplifyStep simplifyStoreSelectChains e := by
  have hstep : simplifyStoreSelectChains e = simplifyAt (chainWeight e + 1) e :=
    simplifyAt_of_weight_le le_rfl (Nat.le_succ _)
  rw [hstep]
  exact simplifyStep_congr (chainWeight_simplifyAt _) fun a ha =>
    simplifyAt_of_weight_le ha.le le_rfl

end Recursion

end Scalarize

end TrustMc
