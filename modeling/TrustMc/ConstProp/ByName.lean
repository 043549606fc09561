import TrustMc.ConstProp.SubstSound

/-!
# Substitution without regularity

A substitution misreads in two places only. Constant evaluation folds a positional selector
`fld_N` of a constructor application to the `N`-th argument, where `fold_dt_selector` looks the
field up by its name; and reading through stores passes a store whose constant index differs
in structure, not in value.

* `tryEvalToBoolByName`: the evaluators with fields looked up by name, right on every
  well-sorted term (`tryEvalToBoolByName_sound`).
* `substituteVars_eval`: a substitution in which the formulas that are evaluated are decided as
  by name, and every store that is passed has another index, keeps the value.
* `substituteVars_misreads`: a read past a store at the same index.
-/

namespace TrustMc

namespace ConstProp

open Carriers Carriers.Val TrustMc.Expr

variable {T : Theory} {H : T.Env → Prop}

/-! ### Evaluation by name -/

/-- The arms of `try_eval_to_const`, with the field of a selector looked up by its name. -/
def tryEvalToConstStepByName (toBool : Expr → Option Bool) (toConst : Expr → Option Expr) :
    Expr → Option Expr
  | .app (.datatypeSelector _ selectorName _) [inner] =>
    (betaSelect selectorName inner).bind toConst
  | e => tryEvalToConstStep toBool toConst e

mutual

/-- `try_eval_to_bool` by name, to a nesting depth. -/
def tryEvalToBoolByNameAt : ℕ → Expr → Option Bool
  | 0, _ => none
  | n + 1, e => tryEvalToBoolStep (tryEvalToBoolByNameAt n) (tryEvalToConstByNameAt n) e

/-- `try_eval_to_const` by name, to a nesting depth. -/
def tryEvalToConstByNameAt : ℕ → Expr → Option Expr
  | 0, _ => none
  | n + 1, e => tryEvalToConstStepByName (tryEvalToBoolByNameAt n) (tryEvalToConstByNameAt n) e

end

/-- `try_eval_to_bool`, with the fields of selectors looked up by name. -/
def tryEvalToBoolByName (e : Expr) : Option Bool := tryEvalToBoolByNameAt e.depth e

/-- If `try_eval_to_bool` decides the formula, it decides it as by name. -/
def DecidesByName (e : Expr) : Prop :=
  ∀ b, tryEvalToBool e = some b → tryEvalToBoolByName e = some b

instance (e : Expr) : Decidable (DecidesByName e) :=
  inferInstanceAs
    (Decidable (∀ b : Bool, tryEvalToBool e = some b → tryEvalToBoolByName e = some b))

private theorem hereditary_top : Hereditary fun _ => True := fun _ _ _ _ _ => trivial

theorem tryEvalByNameAt_sound (n : ℕ) :
    BoolSound H (fun _ => True) (tryEvalToBoolByNameAt n) ∧
      ConstSound H (fun _ => True) (tryEvalToConstByNameAt n) := by
  induction n with
  | zero => exact ⟨fun _ _ _ _ h => (Option.some_ne_none _ h.symm).elim,
      fun _ _ _ _ h => (Option.some_ne_none _ h.symm).elim⟩
  | succ n ih =>
    refine ⟨tryEvalToBoolStep_sound hereditary_top ih.1 ih.2, fun e c hws htop h => ?_⟩
    rw [tryEvalToConstByNameAt, tryEvalToConstStepByName.eq_def] at h
    split at h
    · rename_i dt sel s inner
      obtain ⟨arg, harg, h⟩ := Option.bind_eq_some_iff.1 h
      have hbeta : Rewrites H [] (inner.fieldSelect dt sel s) arg := betaSelect_rewrites hws harg
      obtain ⟨hr, hscalar⟩ := ih.2 arg c hbeta.wellSorted trivial h
      exact ⟨hbeta.trans hr, hscalar⟩
    · rename_i hne
      refine tryEvalToConstStep_sound hereditary_top ih.1 ih.2 hws htop ?_ h
      rintro a dt sel s rfl
      exact absurd rfl (hne dt sel s a)

/-- **By name, evaluation is right** on every well-sorted formula. -/
theorem tryEvalToBoolByName_sound {e : Expr} {b : Bool} (hws : e.WellSorted)
    (h : tryEvalToBoolByName e = some b) : Rewrites H [] e (.boolConst b) :=
  (tryEvalByNameAt_sound e.depth).1 e b hws trivial h

theorem trusted_of_decidesByName {e : Expr} (hws : e.WellSorted) (h : DecidesByName e) :
    Trusted T e := fun b hb _ =>
  holds_of_rewrites_boolConst
    (tryEvalToBoolByName_sound (H := fun _ => True) hws (h b hb)) trivial

/-! ### Substitution -/

theorem NodeReads.mono {p q : Expr → Prop} {apart : Expr → Expr → Prop} {op : Op}
    {args : List Expr} (h : NodeReads p apart op args) (hpq : ∀ a ∈ args, p a → q a) :
    NodeReads q apart op args := by
  rw [NodeReads.eq_def] at h ⊢
  split at h
  · exact hpq _ (by simp) h
  · exact h.mono hpq
  · exact h.mono hpq
  · exact fun hne => hpq _ (by simp) (h hne)
  · exact h
  · trivial

/-- Formulas decided as by name are decided rightly. -/
theorem ReadsRight.trusted {known : Known} (hk : known.WellFormed) {e : Expr}
    (hws : e.WellSorted) (hfit : known.Fits e)
    (h : ReadsRight DecidesByName (TellsApart T) known e) :
    ReadsRight (Trusted T) (TellsApart T) known e := by
  induction e generalizing known with
  | var n s => trivial
  | app op args ih =>
    obtain ⟨hacc, hargs⟩ := wellSorted_app.1 hws
    obtain ⟨hreads, hnode⟩ := readsRight_app.1 h
    have hih := fun a ha => ih a ha hk (hargs a ha) (hfit.arg ha) (hreads a ha)
    refine readsRight_app.2 ⟨hih, hnode.mono fun a' ha' => trusted_of_decidesByName ?_⟩
    obtain ⟨a, ha, rfl⟩ := List.mem_map.1 ha'
    exact (substituteVarsInner_rewrites hk (hargs a ha) (hfit.arg ha) (hih a ha)).wellSorted
  | quant q vars body ih =>
    exact ih (hk.filterBoundVars vars) (wellSorted_quant.1 hws).2 hfit.body h

/-- The assignment, but for known variables that do not occur in the term: these get their
constants. -/
private noncomputable def completed (known : Known) (e : Expr) (ρ : T.Env) : T.Env :=
  haveI : DecidablePred (· ∈ e.freeOccs) := Classical.decPred _
  fun n s =>
    if (n, s) ∈ e.freeOccs then ρ n s
    else Theory.Env.ofVals (fun n => ((known.lookup n).getD (.boolConst true)).eval ρ) n s

private theorem holds_completed {known : Known} (hk : known.WellFormed) {e : Expr} {ρ : T.Env}
    (hρ : ∀ n s c, (n, s) ∈ e.freeOccs → known.lookup n = some c →
      (Expr.var n s).eval ρ = c.eval ρ) : known.Holds (completed known e ρ) := by
  intro n c hc
  rw [eval_isConstant (hk.isConstant n c hc) (hk.wellSorted n c hc) (completed known e ρ) ρ]
  by_cases ho : (n, c.sort) ∈ e.freeOccs
  · rw [← hρ n c.sort c ho hc, eval_var, eval_var, completed, if_pos ho]
  · have hval : ((known.lookup n).getD (.boolConst true)).eval ρ = c.eval ρ := by
      rw [hc, Option.getD_some]
    rw [eval_var, completed, if_neg ho, ← eval_var, eval_var_ofVals (by rw [hval, eval_sort]), hval]

/-- **Substitution keeps the value** of a well-sorted term under every assignment that gives the
known variables of the term their constants, if every formula that is evaluated on the way is
decided as by name and every store that is passed has another index than the one read. -/
theorem substituteVars_eval {known : Known} (hk : known.WellFormed) {e : Expr}
    (hws : e.WellSorted)
    (hreads : known.isEmpty = false → ReadsRight DecidesByName (TellsApart T) known e) (ρ : T.Env)
    (hρ : ∀ n s c, (n, s) ∈ e.freeOccs → known.lookup n = some c →
      (Expr.var n s).eval ρ = c.eval ρ) :
    (substituteVars e known).eval ρ = e.eval ρ := by
  rw [substituteVars]
  split_ifs with hempty
  · rfl
  · have hfit : known.Fits e := fun n s c ho hc => by
      rw [← eval_sort c ρ, ← hρ n s c ho hc, eval_sort, sort_var]
    have hr := substituteVarsInner_rewrites hk hws hfit
      ((hreads (by simpa using hempty)).trusted hk hws hfit)
    -- the two terms do not mention where the assignment was completed
    have hsame : ∀ o ∈ e.freeOccs, completed known e ρ o.1 o.2 = ρ o.1 o.2 :=
      fun o ho => if_pos ho
    have hocc : ∀ o ∈ (substituteVarsInner known e).freeOccs, o ∈ e.freeOccs := fun o ho => by
      simpa using hr.occs o ho
    calc (substituteVarsInner known e).eval ρ
        = (substituteVarsInner known e).eval (completed known e ρ) :=
          eval_congr_occs fun o ho => (hsame o (hocc o ho)).symm
      _ = e.eval (completed known e ρ) := hr.eval _ (holds_completed hk hρ)
      _ = e.eval ρ := eval_congr_occs hsame

/-! ### A substitution that reads right -/

theorem lookup_singleton (n : String) (c : Expr) (k : String) :
    ([(n, c)] : Known).lookup k = if k = n then some c else none :=
  lookup_insert (m := [])

/-- A byte. -/
private abbrev litByte (n : ℕ) : Expr := .bitVecConst (BitVec.ofNat 8 n)

/-- A byte variable. -/
private abbrev varByte (n : String) : Expr := .var n (.bitvec 8)

/-- An array of bytes. -/
private abbrev byteArray : SmtSort := .array (.bitvec 8) (.bitvec 8)

/-- What is known of `updatedRead`. -/
def updatedKnown : Known := [("x", litByte 3)]

/-- The bound `x` is not the known one. -/
def unequalSuccessor : Expr :=
  .quant .all [("x", .bitvec 8)]
    (.not ((varByte "x").eq (.app (.bvBin .add) [varByte "x", litByte 1])))

/-- `a[x := 7][4 := y][x] = 7 ∧ ∀ x. ¬ (x = x + 1)`. -/
def updatedRead : Expr :=
  .and [(Expr.select (((Expr.var "a" byteArray).store (varByte "x") (litByte 7)).store (litByte 4)
    (varByte "y")) (varByte "x")).eq (litByte 7), unequalSuccessor]

theorem wellSorted_updatedRead : updatedRead.WellSorted := by
  simp [updatedRead, unequalSuccessor, Op.accepts, Op.resultSort, SmtSort.arraySort]

theorem readsRight_updatedRead :
    ReadsRight DecidesByName (TellsApart T) updatedKnown updatedRead := by
  have hindex : substituteVarsInner updatedKnown (varByte "x") = litByte 3 := by decide +kernel
  have harray : substituteVarsInner updatedKnown (((Expr.var "a" byteArray).store (varByte "x")
      (litByte 7)).store (litByte 4) (varByte "y")) = ((Expr.var "a" byteArray).store (litByte 3)
      (litByte 7)).store (litByte 4) (varByte "y") := by decide +kernel
  have hand : ReadUntil DecidesByName false
      ([(Expr.select (((Expr.var "a" byteArray).store (varByte "x") (litByte 7)).store (litByte 4)
        (varByte "y")) (varByte "x")).eq (litByte 7), unequalSuccessor].map
        (substituteVarsInner updatedKnown)) :=
    readUntil_of_forall (List.forall_mem_cons.2 ⟨by decide +kernel,
      List.forall_mem_singleton.2 (by decide +kernel)⟩)
  have hapart : TellsApart T (((Expr.var "a" byteArray).store (litByte 3) (litByte 7)).store
      (litByte 4) (varByte "y")) (litByte 3) := by
    refine fun _ _ _ => ⟨fun ρ => ?_, fun hne => absurd rfl hne⟩
    rw [ne_eq, eval_eq_iff_of_isScalarConstant rfl rfl (by simp [Op.accepts])
      (by simp [Op.accepts])]
    decide
  have hbody : DecidesByName (substituteVarsInner (filterBoundVars updatedKnown
      [("x", .bitvec 8)]) ((varByte "x").eq (.app (.bvBin .add) [varByte "x", litByte 1]))) := by
    decide +kernel
  refine readsRight_app.2 ⟨?_, hand⟩
  simp [readsRight_app, NodeReads, harray, hindex, hapart, unequalSuccessor, hbody]

/-- The first conjunct of `updatedRead` folds away, and the value is kept. -/
theorem substituteVars_eval_updatedRead :
    substituteVars updatedRead updatedKnown = unequalSuccessor ∧
      ∃ ρ : (default : Theory).Env, unequalSuccessor.eval ρ = updatedRead.eval ρ := by
  have hfold : substituteVars updatedRead updatedKnown = unequalSuccessor := by decide +kernel
  have hlookup : ∀ n c, updatedKnown.lookup n = some c → n = "x" ∧ c = litByte 3 := by
    intro n c hc
    rw [updatedKnown, lookup_singleton, Option.ite_none_right_eq_some, Option.some_inj] at hc
    exact ⟨hc.1, hc.2.symm⟩
  have hk : updatedKnown.WellFormed :=
    ⟨fun n c hc => (hlookup n c hc).2 ▸ rfl, fun n c hc => (hlookup n c hc).2 ▸ by
      simp [Op.accepts]⟩
  refine ⟨hfold, .ofVals fun _ => ofBV (BitVec.ofNat 8 3), ?_⟩
  rw [← hfold]
  refine substituteVars_eval hk wellSorted_updatedRead (fun _ => readsRight_updatedRead) _ ?_
  intro n s c ho hc
  obtain ⟨rfl, rfl⟩ := hlookup n c hc
  have hs : s = .bitvec 8 := by
    simpa [updatedRead, unequalSuccessor, mem_freeOccs_quant] using ho
  subst hs
  rw [eval_var_ofVals (by simp), litByte, eval_app, Op.interp]

/-! ### A store that is passed at the same index -/

/-- The array of zeros. -/
private abbrev zeros : Expr := .app (.constArray (.bitvec 8)) [litByte 0]

/-- The array of zeros, with a zero stored in it. -/
private abbrev zerosStored : Expr := zeros.store (litByte 0) (litByte 0)

/-- What is known of `maskedRead`. -/
def maskedKnown : Known := [("i", zerosStored)]

/-- `a[i := 7][zeros := 1][i]`, an array that arrays index. -/
def maskedRead : Expr :=
  .select (((Expr.var "a" (.array byteArray (.bitvec 8))).store (.var "i" byteArray)
    (litByte 7)).store zeros (litByte 1)) (.var "i" byteArray)

/-- **A store is passed at the index that is read**: `i` is the array of zeros, and the
substituted read gives what was stored before. -/
theorem substituteVars_misreads :
    maskedKnown.WellFormed ∧ maskedRead.WellSorted ∧ ∃ ρ : (default : Theory).Env,
      (∀ n s c, (n, s) ∈ maskedRead.freeOccs → maskedKnown.lookup n = some c →
        (Expr.var n s).eval ρ = c.eval ρ) ∧
      (substituteVars maskedRead maskedKnown).eval ρ ≠ maskedRead.eval ρ := by
  have hfold : substituteVars maskedRead maskedKnown = litByte 7 := by decide +kernel
  have hlookup : ∀ n c, maskedKnown.lookup n = some c → n = "i" ∧ c = zerosStored := by
    intro n c hc
    rw [maskedKnown, lookup_singleton, Option.ite_none_right_eq_some, Option.some_inj] at hc
    exact ⟨hc.1, hc.2.symm⟩
  have hvalue : ∀ ρ : (default : Theory).Env, zerosStored.eval ρ = zeros.eval ρ := fun ρ =>
    eval_store_select rfl rfl rfl (eval_select_constArray _).symm
  let ρ : (default : Theory).Env := .ofVals fun _ => zerosStored.eval fun _ _ => default
  have hi : (Expr.var "i" byteArray).eval ρ = zerosStored.eval ρ := by
    rw [eval_var_ofVals (eval_sort _ _)]
    exact eval_isConstant rfl (by simp [Op.accepts, Op.resultSort]) _ _
  have hread : maskedRead.eval ρ = (litByte 1).eval ρ :=
    eval_select_store_eq rfl rfl (by rw [hi, hvalue])
  refine ⟨⟨fun n c hc => (hlookup n c hc).2 ▸ rfl, fun n c hc => (hlookup n c hc).2 ▸ by
    simp [Op.accepts, Op.resultSort]⟩, by simp [maskedRead, Op.accepts, Op.resultSort,
    SmtSort.arraySort], ρ, fun n s c ho hc => ?_, ?_⟩
  · obtain ⟨rfl, rfl⟩ := hlookup n c hc
    have hs : s = byteArray := by simpa [maskedRead] using ho
    rw [hs, hi]
  · rw [hfold, hread, ne_eq, eval_eq_iff_of_isScalarConstant rfl rfl (by simp [Op.accepts])
      (by simp [Op.accepts])]
    decide

end ConstProp

end TrustMc
