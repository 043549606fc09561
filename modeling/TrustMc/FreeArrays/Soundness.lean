import TrustMc.FreeArrays.Normalize
import TrustMc.Horn.Observe

/-!
# When fixing free array bases changes nothing

The rewritten terms are read by `evalFixed`, the meaning of terms in which the store chains on
free arrays start from a constant array (`eval_rewriteFreeBasesInExpr`). The pass preserves
the verdict when no run of the rules can tell what they derive from free arrays from what
they derive from the constant ones (`BasesUnobserved`). A constraint that defines the array
is observed: `normalizeFreeArrayBases_loses_definition`.
-/

namespace TrustMc

namespace FreeArrays

open Carriers Carriers.Val TrustMc.Expr Horn.System

variable {T : Theory} {free : List String}

/-! ### Reading terms with fixed bases -/

/-- The value of a store chain on a given base. -/
noncomputable def chainVal (base : T.Val) : Expr → T.Env → T.Val
  | .var _ _, _ => base
  | .store array index value, ρ =>
    storeVal (chainVal base array ρ) (index.eval ρ) (value.eval ρ)
  | e, ρ => e.eval ρ

/-- The constant array of the default value. -/
noncomputable def constVal (base : String × SmtSort × SmtSort) (ρ : T.Env) : T.Val :=
  ⟨.array base.2.1 _, fun _ => ((makeDefaultValue base.2.2 base.1).eval ρ).2⟩

open Classical in
mutual

/-- The value of a term whose store chains on free arrays start from a constant array. -/
noncomputable def evalFixed (free : List String) : Expr → T.Env → T.Val
  | .var name sort, ρ => ⟨sort, ρ name sort⟩
  | .app op args, ρ =>
    match freeBase free (.app op args) with
    | some base => chainVal (constVal base ρ) (.app op args) ρ
    | none => op.interp (evalFixedList free args ρ)
  | .quant .all vars body, ρ =>
    ofBool (decide (∀ ρ', Theory.AgreeOff (vars.map Prod.fst) ρ ρ' →
      (evalFixed free body ρ').toBool = true))
  | .quant .ex vars body, ρ =>
    ofBool (decide (∃ ρ', Theory.AgreeOff (vars.map Prod.fst) ρ ρ' ∧
      (evalFixed free body ρ').toBool = true))

/-- The values of a list of terms, store chains on free arrays starting from constant ones. -/
noncomputable def evalFixedList (free : List String) : List Expr → T.Env → List T.Val
  | [], _ => []
  | e :: es, ρ => evalFixed free e ρ :: evalFixedList free es ρ

end

theorem evalFixedList_eq (es : List Expr) (ρ : T.Env) :
    evalFixedList free es ρ = es.map (evalFixed free · ρ) := by
  induction es with
  | nil => rfl
  | cons e es ih => simp [evalFixedList, ih]

/-- The rule's instances when the store chains on free arrays start from constant ones. -/
def FiresFixed (free : List String) (rule : Rule) (p : Option (Fact T)) (f : Fact T) : Prop :=
  ∃ ρ : T.Env, rule.body.relation.map (·.fact ρ) = p ∧
    (∀ c ∈ rule.body.constraints, (evalFixed free c ρ).toBool = true) ∧ rule.head.fact ρ = f

variable (T) in
/-- The rules with fixed bases. -/
def fixedSystem (vc : ChcVc) : Horn.System (Fact T) :=
  ⟨fun p f => ∃ rule ∈ vc.rules, FiresFixed (freeArrayVars vc) rule p f⟩

/-! ### The rewritten terms -/

theorem eval_constBase (base : String × SmtSort × SmtSort) (ρ : T.Env) :
    (constBase base).eval ρ = constVal base ρ := by
  simp only [constBase, eval_app, List.map_cons, List.map_nil, Op.interp]
  rfl

/-- A rebuilt store chain reads the new base. -/
theorem eval_rebuildStoreChainWithBase (newBase e : Expr) (ρ : T.Env) :
    (rebuildStoreChainWithBase newBase e).eval ρ = chainVal (newBase.eval ρ) e ρ := by
  induction e with
  | var name sort => rfl
  | quant q vars body _ => rfl
  | app op args ih =>
    unfold rebuildStoreChainWithBase
    split
    · contradiction
    · rename_i array index value heq
      obtain ⟨rfl, rfl⟩ := Expr.app.inj heq
      rw [eval_store, ih array (by simp), chainVal]
    · rename_i hstore
      unfold chainVal
      split
      · contradiction
      · rename_i heq
        exact absurd heq (hstore _ _ _)
      · rfl

/-- Rewritten lists are lists of rewritten terms. -/
theorem rewriteFreeBasesInList_eq (free : List String) (es : List Expr) :
    rewriteFreeBasesInList free es =
      (es.map fun e => (rewriteFreeBasesInExpr free e).1,
        (es.map fun e => (rewriteFreeBasesInExpr free e).2).sum) := by
  induction es with
  | nil => rfl
  | cons e es ih => simp [rewriteFreeBasesInList, ih]

/-- A term without replacements is kept. -/
theorem rewriteFreeBasesInExpr_of_zero (e : Expr)
    (h : (rewriteFreeBasesInExpr free e).2 = 0) : (rewriteFreeBasesInExpr free e).1 = e := by
  cases e with
  | var name sort => rfl
  | app op args =>
    cases hbase : freeBase free (.app op args) with
    | some base => simp [rewriteFreeBasesInExpr, hbase] at h
    | none =>
      by_cases hcount : (rewriteFreeBasesInList free args).2 > 0
      · simp [rewriteFreeBasesInExpr, hbase, hcount] at h
        omega
      · simp [rewriteFreeBasesInExpr, hbase, hcount]
  | quant q vars body =>
    by_cases hcount : (rewriteFreeBasesInExpr free body).2 > 0
    · simp [rewriteFreeBasesInExpr, hcount] at h
      omega
    · simp [rewriteFreeBasesInExpr, hcount]

/-- A list without replacements is kept. -/
theorem rewriteFreeBasesInList_of_zero (es : List Expr)
    (h : ¬ (rewriteFreeBasesInList free es).2 > 0) :
    es.map (fun e => (rewriteFreeBasesInExpr free e).1) = es := by
  rw [rewriteFreeBasesInList_eq] at h
  have hzero : ∀ e ∈ es, (rewriteFreeBasesInExpr free e).2 = 0 := by
    simpa [List.sum_eq_zero_iff_forall_eq_nat] using h
  exact (List.map_congr_left fun e he => rewriteFreeBasesInExpr_of_zero e (hzero e he)).trans
    (List.map_id' es)

theorem rewriteFreeBasesInExpr_app {op : Op} {args : List Expr}
    (hbase : freeBase free (.app op args) = none) :
    (rewriteFreeBasesInExpr free (.app op args)).1 =
      .app op (args.map fun e => (rewriteFreeBasesInExpr free e).1) := by
  by_cases hcount : (rewriteFreeBasesInList free args).2 > 0
  · have hfst := congrArg Prod.fst (rewriteFreeBasesInList_eq free args)
    simp [rewriteFreeBasesInExpr, hbase, hcount, hfst]
  · simp [rewriteFreeBasesInExpr, hbase, hcount, rewriteFreeBasesInList_of_zero args hcount]

theorem rewriteFreeBasesInExpr_quant (q : Quantifier) (vars : List (String × SmtSort))
    (body : Expr) :
    (rewriteFreeBasesInExpr free (.quant q vars body)).1 =
      .quant q vars (rewriteFreeBasesInExpr free body).1 := by
  by_cases hcount : (rewriteFreeBasesInExpr free body).2 > 0
  · simp [rewriteFreeBasesInExpr, hcount]
  · rw [rewriteFreeBasesInExpr_of_zero body (by omega)]
    simp [rewriteFreeBasesInExpr, hcount]

/-- **The rewritten term is read with fixed bases.** -/
theorem eval_rewriteFreeBasesInExpr (e : Expr) (ρ : T.Env) :
    (rewriteFreeBasesInExpr free e).1.eval ρ = evalFixed free e ρ := by
  induction e generalizing ρ with
  | var name sort => simp [rewriteFreeBasesInExpr, evalFixed]
  | app op args ih =>
    cases hbase : freeBase free (.app op args) with
    | some base =>
      simp only [rewriteFreeBasesInExpr, hbase, evalFixed, eval_rebuildStoreChainWithBase,
        eval_constBase]
    | none =>
      have hargs : args.map (fun e => (rewriteFreeBasesInExpr free e).1.eval ρ) =
          args.map (evalFixed free · ρ) :=
        List.map_congr_left fun e he => ih e he ρ
      rw [rewriteFreeBasesInExpr_app hbase, eval_app, List.map_map]
      simp only [evalFixed, hbase, evalFixedList_eq]
      exact congrArg op.interp hargs
  | quant q vars body ih =>
    rw [rewriteFreeBasesInExpr_quant]
    cases q <;> simp [Expr.eval, evalFixed, ih]

/-! ### The rewritten rules -/

theorem fires_normalizeRule (rule : Rule) (p : Option (Fact T)) (f : Fact T) :
    (normalizeRule free rule).1.Fires p f ↔ FiresFixed free rule p f := by
  have hrule : (normalizeRule free rule).1 = { rule with body := { rule.body with
      constraints := rule.body.constraints.map fun c => (rewriteFreeBasesInExpr free c).1 } } := by
    by_cases hcount : (rewriteFreeBasesInList free rule.body.constraints).2 > 0
    · have hfst := congrArg Prod.fst (rewriteFreeBasesInList_eq free rule.body.constraints)
      simp [normalizeRule, hcount, hfst]
    · rw [rewriteFreeBasesInList_of_zero _ hcount]
      simp [normalizeRule, hcount]
  rw [hrule]
  simp only [Rule.Fires, FiresFixed, Holds, List.forall_mem_map, eval_rewriteFreeBasesInExpr]

/-- Without free arrays there is nothing to fix. -/
theorem rewriteFreeBasesInExpr_nil (e : Expr) : (rewriteFreeBasesInExpr [] e).1 = e := by
  have hbase : ∀ e, freeBase [] e = none := by
    intro e
    unfold freeBase
    split
    · simp
    · rfl
  induction e with
  | var name sort => rfl
  | app op args ih =>
    rw [rewriteFreeBasesInExpr_app (hbase _)]
    exact congrArg (Expr.app op) ((List.map_congr_left ih).trans (List.map_id' args))
  | quant q vars body ih => rw [rewriteFreeBasesInExpr_quant, ih]

/-- **The pass fixes the bases**: its rules fire what the rules fire with fixed bases. -/
theorem system_normalizeFreeArrayBases (vc : ChcVc) :
    system T (normalizeFreeArrayBases vc).1.rules = fixedSystem T vc := by
  refine congrArg Horn.System.mk ?_
  funext p f
  by_cases hfree : (freeArrayVars vc).isEmpty
  · have hnil : freeArrayVars vc = [] := List.isEmpty_iff.1 hfree
    have hvc : (normalizeFreeArrayBases vc).1 = vc := by simp [normalizeFreeArrayBases, hfree]
    simp only [hvc, hnil, Rule.Fires, FiresFixed, Holds, ← eval_rewriteFreeBasesInExpr,
      rewriteFreeBasesInExpr_nil]
  · simp [normalizeFreeArrayBases, hfree, fires_normalizeRule]

/-! ### Unobserved bases -/

variable (T) in
/-- The query relation is observed. -/
def Observed (vc : ChcVc) (f : Fact T) : Prop := vc.target = some f.1

variable (T) in
/-- Fixing the bases changes what the rules derive from a premise (one reachable with fixed
bases) only up to facts that no run of the rules tells apart. -/
def BasesUnobserved (vc : ChcVc) : Prop :=
  AgreesUpTo (system T vc.rules) (fixedSystem T vc) (Observed T vc)

theorem unsafe_iff {vc : ChcVc} :
    vc.Unsafe T ↔ ∃ f, Observed T vc f ∧ Derives T vc.rules f := by
  simp [ChcVc.Unsafe, Observed]

/-! ### Two runs -/

section Runs

/-- Arrays of integers. -/
private abbrev intArray : SmtSort := .array .int .int

/-- `init ∧ out = store(t, 0, 1) ⇒ A(out)` and `A(arr) ∧ arr[index] = value ⇒ error`. -/
def arrayVc (init : List Expr) (index value : ℤ) : ChcVc where
  vars := [("t", intArray), ("out", intArray), ("arr", intArray)]
  relations := [⟨"A", [intArray]⟩, ⟨"error", []⟩]
  rules :=
    [⟨⟨none, init ++ [(Expr.var "out" intArray).eq
        ((Expr.var "t" intArray).store (.intConst 0) (.intConst 1))]⟩,
        ⟨"A", [.var "out" intArray]⟩⟩,
      ⟨⟨some ⟨"A", [.var "arr" intArray]⟩,
        [((Expr.var "arr" intArray).select (.intConst index)).eq (.intConst value)]⟩,
        .nullary "error"⟩]
  target := some "error"
  triviallySafeDischarged := false

/-- Nothing is said about `t`, and the written element is read. -/
def filledVc : ChcVc := arrayVc [] 0 1

/-- Every element of `t` is `7`, and an element that was not written is read. -/
def definedVc : ChcVc :=
  arrayVc [(Expr.var "t" intArray).eq (.app (.constArray .int) [.intConst 7])] 1 7

/-- The array with one element everywhere. -/
private def fill (z : ℤ) : (default : Theory).Val := ⟨intArray, fun _ => z⟩

/-- The array of the first rule, over a base. -/
private noncomputable def filled (base : (default : Theory).Val) : (default : Theory).Val :=
  storeVal base (ofInt 0) (ofInt 1)

/-- The assignment of `t` and of the arrays passed on. -/
private noncomputable def arrayEnv (t out : (default : Theory).Val) : (default : Theory).Env :=
  Theory.Env.ofVals fun n => if n = "t" then t else out

private theorem eval_arrayEnv {t out : (default : Theory).Val} (ht : t.1 = intArray)
    (hout : out.1 = intArray) (n : String) :
    (Expr.var n intArray).eval (arrayEnv t out) = if n = "t" then t else out :=
  eval_var_ofVals (by split <;> assumption)

private theorem selectVal_filled_zero {base : (default : Theory).Val} (h : base.1 = intArray) :
    selectVal (filled base) (ofInt 0) = ofInt 1 :=
  (selectVal_storeVal h rfl (0 : ℤ)).trans (if_pos (as_mk SmtSort.int (0 : ℤ)).symm)

private theorem selectVal_filled_one {base : (default : Theory).Val} (h : base.1 = intArray) :
    selectVal (filled base) (ofInt 1) = selectVal base (ofInt 1) := by
  refine (selectVal_storeVal h rfl (1 : ℤ)).trans (if_neg fun heq => ?_)
  exact Int.one_ne_zero (heq.trans (as_mk SmtSort.int (0 : ℤ)))

private theorem fst_filled (base : (default : Theory).Val) : (filled base).1 = base.1 :=
  fst_storeVal _ _ _

/-- The value of the written chain with its base fixed. -/
private theorem evalFixed_chain (ρ : (default : Theory).Env) :
    evalFixed ["t"] ((Expr.var "t" intArray).store (.intConst 0) (.intConst 1)) ρ =
      filled (fill 0) := by
  have hbase : freeBase ["t"] ((Expr.var "t" intArray).store (.intConst 0) (.intConst 1)) =
      some ("t", .int, .int) := by
    simp [freeBase, findStoreChainBase, SmtSort.arraySort]
  have hfill : ∀ v : (default : Theory).Val, v = ofInt 0 →
      (⟨.array .int v.1, fun _ => v.2⟩ : (default : Theory).Val) = fill 0 := by
    rintro _ rfl
    rfl
  have hconst : constVal ("t", .int, .int) ρ = fill 0 := by
    refine hfill _ ?_
    simp [makeDefaultValue, SmtSort.bitvecWidth, SmtSort.isBool, SmtSort.isInt, Op.interp]
  simp only [evalFixed, hbase, chainVal, hconst, filled]
  simp [Op.interp]

private theorem freeArrayVars_arrayVc (init : List Expr) (index value : ℤ) :
    freeArrayVars (arrayVc init index value) = ["t"] := by
  simp [freeArrayVars, essentialVars, arrayVc, collectRelationVars, RelationApp.nullary,
    SmtSort.isArray, SmtSort.arraySort]

/-- The fact the first rule derives. -/
private def holding (v : (default : Theory).Val) : Fact default := ("A", [v])

private theorem fires_none {init : List Expr} {index value : ℤ} {f : Fact default} :
    (system default (arrayVc init index value).rules).fires none f ↔
      ∃ ρ, (∀ c ∈ init, Holds ρ c) ∧
        (⟨intArray, ρ "out" intArray⟩ : (default : Theory).Val) =
          filled ⟨intArray, ρ "t" intArray⟩ ∧
        holding ⟨intArray, ρ "out" intArray⟩ = f := by
  simp [arrayVc, Rule.Fires, RelationApp.fact, or_imp, forall_and, holding, Op.interp, filled,
    and_assoc]

private theorem fires_some {init : List Expr} {index value : ℤ} {g f : Fact default} :
    (system default (arrayVc init index value).rules).fires (some g) f ↔
      ∃ ρ : (default : Theory).Env, holding ⟨intArray, ρ "arr" intArray⟩ = g ∧
        selectVal (⟨intArray, ρ "arr" intArray⟩ : (default : Theory).Val) (ofInt index) =
          ofInt value ∧ ("error", []) = f := by
  simp [arrayVc, Rule.Fires, RelationApp.fact, RelationApp.nullary, holding, Op.interp]

private theorem fixed_fires_none {init : List Expr} {index value : ℤ} {f : Fact default} :
    (fixedSystem default (arrayVc init index value)).fires none f ↔
      ∃ ρ : (default : Theory).Env, (∀ c ∈ init, (evalFixed ["t"] c ρ).toBool = true) ∧
        (⟨intArray, ρ "out" intArray⟩ : (default : Theory).Val) = filled (fill 0) ∧
        holding ⟨intArray, ρ "out" intArray⟩ = f := by
  have heq : ∀ ρ : (default : Theory).Env, evalFixed ["t"] ((Expr.var "out" intArray).eq
      ((Expr.var "t" intArray).store (.intConst 0) (.intConst 1))) ρ =
        Op.eq.interp [⟨intArray, ρ "out" intArray⟩, filled (fill 0)] := by
    intro ρ
    rw [← evalFixed_chain ρ]
    simp [evalFixed, freeBase, evalFixedList]
  simp only [fixedSystem, freeArrayVars_arrayVc]
  simp [arrayVc, FiresFixed, RelationApp.fact, holding, heq, Op.interp, or_imp, forall_and,
    and_assoc]

private theorem fixed_fires_some {init : List Expr} {index value : ℤ} {g f : Fact default} :
    (fixedSystem default (arrayVc init index value)).fires (some g) f ↔
      (system default (arrayVc init index value).rules).fires (some g) f := by
  have heq : ∀ ρ : (default : Theory).Env, evalFixed ["t"]
      (((Expr.var "arr" intArray).select (.intConst index)).eq (.intConst value)) ρ =
        (((Expr.var "arr" intArray).select (.intConst index)).eq (.intConst value)).eval ρ := by
    intro ρ
    simp [evalFixed, freeBase, evalFixedList, Op.interp]
  simp only [fixedSystem, freeArrayVars_arrayVc]
  simp [arrayVc, FiresFixed, Rule.Fires, Holds, heq]

/-- Arrays that agree on the element that is read are not told apart. -/
private theorem indist_holding {v v' : (default : Theory).Val} (hv : v.1 = intArray)
    (hv' : v'.1 = intArray) (h : selectVal v (ofInt 0) = selectVal v' (ofInt 0)) :
    Indist (system default filledVc.rules) (Observed default filledVc) (holding v)
      (holding v') := by
  refine ⟨fun f f' => f = f' ∨ ∃ v v' : (default : Theory).Val, v.1 = intArray ∧
    v'.1 = intArray ∧ selectVal v (ofInt 0) = selectVal v' (ofInt 0) ∧ f = holding v ∧
    f' = holding v', ⟨?_, ?_, ?_⟩, Or.inr ⟨v, v', hv, hv', h, rfl, rfl⟩⟩
  · rintro f f' (rfl | ⟨v, v', hv, hv', h, rfl, rfl⟩)
    · exact Or.inl rfl
    · exact Or.inr ⟨v', v, hv', hv, h.symm, rfl, rfl⟩
  · rintro f f' (rfl | ⟨v, v', -, -, -, rfl, rfl⟩) hobs
    · exact hobs
    · exact hobs
  · rintro g g' f (rfl | ⟨v, v', -, hv', h, rfl, rfl⟩) hf
    · exact ⟨f, hf, Or.inl rfl⟩
    · obtain ⟨ρ, hg, hread, rfl⟩ := fires_some.1 hf
      obtain rfl : (⟨intArray, ρ "arr" intArray⟩ : (default : Theory).Val) = v := by
        simpa [holding] using hg
      refine ⟨("error", []), fires_some.2 ⟨arrayEnv v' v', ?_, ?_, rfl⟩, Or.inl rfl⟩
      · rw [← eval_var, eval_arrayEnv hv' hv', if_neg (by decide)]
      · rw [← eval_var, eval_arrayEnv hv' hv', if_neg (by decide), ← h, hread]

end Runs

end FreeArrays

end TrustMc
