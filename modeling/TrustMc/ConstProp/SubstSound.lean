import TrustMc.ConstProp.EvalSound
import TrustMc.ConstProp.Subst

/-!
# Substitution keeps the meaning

Under an assignment that gives the known variables their constants, a substituted term has
the value of the original, provided constant evaluation misread nothing on the way.

* Each fold has its lemma, stated on the application of its operator to the new arguments:
  the folded term may stand for the application, when the formulas that the fold evaluated
  were decided rightly (`Trusted`) and the stores it read past have other indices
  (`TellsApart`).
* `ReadsRight` says of a whole substitution which formulas and stores are read;
  `substituteVarsInner_rewrites` is soundness under it.
* On regular terms nothing is misread, and regular terms are folded to regular ones:
  `substituteVars_sound`.
-/

namespace TrustMc

namespace ConstProp

open Carriers Carriers.Val TrustMc.Expr

variable {T : Theory} {H : T.Env → Prop}

/-- `e'` may stand for `e` wherever `H` holds, and it is regular. -/
structure Folds (H : T.Env → Prop) (e e' : Expr) : Prop where
  /-- The meaning is kept. -/
  rewrites : Rewrites H [] e e'
  /-- No node of the result is misread by constant evaluation. -/
  regular : Regular e'

/-- What `tryEvalToBool` returns on the formula is its truth value. -/
def Trusted (T : Theory) (e : Expr) : Prop :=
  ∀ b, tryEvalToBool e = some b → ∀ ρ : T.Env, Holds ρ e ↔ b = true

theorem trusted_of_regular {e : Expr} (hws : e.WellSorted) (hreg : Regular e) : Trusted T e :=
  fun _ h _ =>
    holds_of_rewrites_boolConst (tryEvalToBool_sound (H := fun _ => True) hws hreg h) trivial

/-! ### Boolean folds -/

theorem tryEvalToBool_boolConst (b : Bool) (args : List Expr) :
    tryEvalToBool (.app (.boolConst b) args) = some b := by
  rw [tryEvalToBool_eq, tryEvalToBoolStep]

theorem foldNot_eq (inner : Expr) :
    foldNot inner = (tryEvalToBool inner).elim inner.not fun b => .boolConst !b := by
  unfold foldNot
  split
  · rw [tryEvalToBool_boolConst, Option.elim_some]
  · cases tryEvalToBool inner <;> rfl

theorem foldNot_rewrites {inner : Expr} (hws : inner.not.WellSorted) (ht : Trusted T inner) :
    Rewrites H [] inner.not (foldNot inner) := by
  rw [foldNot_eq]
  cases h : tryEvalToBool inner with
  | none => exact .refl hws
  | some b =>
    refine .to_boolConst (by simp [Op.resultSort]) fun ρ _ => ?_
    rw [holds_not, ht b h ρ]
    simp

theorem foldEq_rewrites {a b : Expr} (hws : (a.eq b).WellSorted) :
    Rewrites H [] (a.eq b) (foldEq a b) := by
  have hwa : a.WellSorted := (wellSorted_app.1 hws).2 a (by simp)
  have hwb : b.WellSorted := (wellSorted_app.1 hws).2 b (by simp)
  rw [foldEq]
  split_ifs with hscalar hab
  · refine .to_boolConst (by simp [Op.resultSort]) fun ρ _ => ?_
    rw [holds_eq, eval_eq_iff_of_isScalarConstant hscalar.1 hscalar.2 hwa hwb, decide_eq_true_iff]
  · refine .to_boolConst (by simp [Op.resultSort]) fun ρ _ => ?_
    simp [hab]
  · exact .refl hws

theorem foldChildren_cons (stop : Bool) (sub : Expr) (rest : List Expr) :
    foldChildren stop (sub :: rest) =
      (tryEvalToBool sub).elim ((foldChildren stop rest).map (sub :: ·)) fun b =>
        if b = stop then none else foldChildren stop rest := by
  conv_lhs => unfold foldChildren
  split
  · rw [tryEvalToBool_boolConst, Option.elim_some]
  · cases tryEvalToBool sub <;> rfl

theorem mem_of_foldChildren {stop : Bool} {es kept : List Expr}
    (h : foldChildren stop es = some kept) {e : Expr} (he : e ∈ kept) : e ∈ es := by
  induction es generalizing kept with
  | nil =>
    obtain rfl := Option.some.inj h
    exact he
  | cons e' es ih =>
    rw [foldChildren_cons] at h
    cases hb : tryEvalToBool e' with
    | some b =>
      rw [hb, Option.elim_some] at h
      obtain ⟨-, h⟩ := Option.ite_none_left_eq_some.1 h
      exact List.mem_cons_of_mem _ (ih h he)
    | none =>
      rw [hb, Option.elim_none] at h
      obtain ⟨rest, hrest, rfl⟩ := Option.map_eq_some_iff.1 h
      rcases List.mem_cons.1 he with rfl | he
      · exact List.mem_cons_self
      · exact List.mem_cons_of_mem _ (ih hrest he)

/-- What the children left over say about the children: nothing is left over when one of them
is `stop`, and otherwise those that were dropped are not. -/
def Decides (stop : Bool) (es : List Expr) (ρ : T.Env) : Option (List Expr) → Prop
  | none => ∃ e ∈ es, Holds ρ e ↔ stop = true
  | some kept =>
    (∀ e ∈ es, Holds ρ e ↔ stop = false) ↔ ∀ e ∈ kept, Holds ρ e ↔ stop = false

theorem Decides.cons_of_skip {stop : Bool} {es : List Expr} {ρ : T.Env} {o : Option (List Expr)}
    (h : Decides stop es ρ o) {e : Expr} (he : Holds ρ e ↔ stop = false) :
    Decides stop (e :: es) ρ o := by
  cases o with
  | none =>
    obtain ⟨e', he', hiff⟩ := h
    exact ⟨e', List.mem_cons_of_mem _ he', hiff⟩
  | some kept => exact List.forall_mem_cons.trans ((and_iff_right he).trans h)

theorem Decides.cons_map {stop : Bool} {es : List Expr} {ρ : T.Env} {o : Option (List Expr)}
    (h : Decides stop es ρ o) (e : Expr) : Decides stop (e :: es) ρ (o.map (e :: ·)) := by
  cases o with
  | none =>
    obtain ⟨e', he', hiff⟩ := h
    exact ⟨e', List.mem_cons_of_mem _ he', hiff⟩
  | some kept =>
    simp only [Option.map_some, Decides, List.forall_mem_cons]
    exact and_congr_right fun _ => h

/-- The formulas that the loop over the children evaluates satisfy `p`. -/
def ReadUntil (p : Expr → Prop) (stop : Bool) : List Expr → Prop
  | [] => True
  | e :: es => p e ∧ (tryEvalToBool e ≠ some stop → ReadUntil p stop es)

theorem ReadUntil.mono {p q : Expr → Prop} {stop : Bool} {es : List Expr}
    (h : ReadUntil p stop es) (hpq : ∀ e ∈ es, p e → q e) : ReadUntil q stop es := by
  induction es with
  | nil => exact trivial
  | cons e es ih =>
    refine ⟨hpq e List.mem_cons_self h.1, fun hne => ih (h.2 hne) fun a ha => ?_⟩
    exact hpq a (List.mem_cons_of_mem _ ha)

theorem readUntil_of_forall {p : Expr → Prop} {stop : Bool} {es : List Expr}
    (h : ∀ e ∈ es, p e) : ReadUntil p stop es := by
  induction es with
  | nil => exact trivial
  | cons e es ih =>
    exact ⟨h e List.mem_cons_self, fun _ => ih fun a ha => h a (List.mem_cons_of_mem _ ha)⟩

theorem foldChildren_sound {stop : Bool} {es : List Expr} (hes : ReadUntil (Trusted T) stop es)
    (ρ : T.Env) : Decides stop es ρ (foldChildren stop es) := by
  induction es with
  | nil => exact Iff.rfl
  | cons e es ih =>
    obtain ⟨ht, hes⟩ := hes
    rw [foldChildren_cons]
    cases hb : tryEvalToBool e with
    | some b =>
      have hholds := ht b hb ρ
      rw [Option.elim_some]
      split_ifs with hstop
      · exact ⟨e, List.mem_cons_self, hstop ▸ hholds⟩
      · refine (ih (hes (by simpa [hb] using hstop))).cons_of_skip (hholds.trans ?_)
        cases b <;> cases stop <;> simp_all
    | none => exact (ih (hes (by simp [hb]))).cons_map e

private theorem iff_of_iff_false {p q : Prop} (stop : Bool)
    (h : (p ↔ stop = false) ↔ (q ↔ stop = false)) : p ↔ q := by
  cases stop
  · simpa using h
  · simpa [not_iff_not] using h

/-- The connective that `stop` decides: conjunction for `false`, disjunction for `true`. -/
def connective (stop : Bool) : Op := if stop then .or else .and

/-- A connective is the opposite of `stop` when all of its children are. -/
theorem holds_connective {stop : Bool} {es : List Expr} {ρ : T.Env} :
    (Holds ρ (.app (connective stop) es) ↔ stop = false) ↔
      ∀ e ∈ es, Holds ρ e ↔ stop = false := by
  cases stop <;> simp [connective]

theorem connective_wellSorted {stop : Bool} {es : List Expr} :
    (Expr.app (connective stop) es).WellSorted ↔ ∀ e ∈ es, e.sort = .bool ∧ e.WellSorted := by
  rw [wellSorted_app]
  cases stop <;> simp [connective, Op.accepts, forall_and]

theorem sort_connective (stop : Bool) (es : List Expr) :
    (Expr.app (connective stop) es).sort = .bool := by
  cases stop <;> simp [connective, Op.resultSort]

theorem foldNary_rewrites (stop : Bool) {es : List Expr}
    (hws : (Expr.app (connective stop) es).WellSorted) (ht : ReadUntil (Trusted T) stop es) :
    Rewrites H [] (.app (connective stop) es) (foldNary (connective stop) stop es) := by
  have hes := connective_wellSorted.1 hws
  have hchildren : ∀ ρ : T.Env, Decides stop es ρ (foldChildren stop es) := foldChildren_sound ht
  have hsort := sort_connective stop es
  rw [foldNary]
  cases hk : foldChildren stop es with
  | none =>
    refine .to_boolConst hsort fun ρ _ => ?_
    have hdec := hchildren ρ
    rw [hk] at hdec
    obtain ⟨e, he, hiff⟩ := hdec
    have hnot : ¬ (Holds ρ (.app (connective stop) es) ↔ stop = false) := fun hall => by
      have hsame := hiff.symm.trans (holds_connective.1 hall e he)
      simp at hsame
    cases stop <;> simpa using hnot
  | some kept =>
    have hmem : ∀ e ∈ kept, e ∈ es := fun e he => mem_of_foldChildren hk he
    have hiff : ∀ ρ : T.Env, ((Holds ρ (.app (connective stop) es) ↔ stop = false) ↔
        ∀ e ∈ kept, Holds ρ e ↔ stop = false) := by
      intro ρ
      have hdec := hchildren ρ
      rw [hk] at hdec
      exact holds_connective.trans hdec
    match kept, hmem, hiff with
    | [], _, hiff =>
      refine .to_boolConst hsort fun ρ _ => ?_
      rw [(hiff ρ).2 (by simp)]
      cases stop <;> simp
    | [e], hmem, hiff =>
      have he : e ∈ es := hmem e (by simp)
      refine .to_arg he hws (by rw [(hes e he).1, hsort]) fun ρ _ => ?_
      refine eval_eq_of_holds_iff (hes e he).1 hsort (iff_of_iff_false stop ?_)
      exact ((hiff ρ).trans List.forall_mem_singleton).symm
    | e₁ :: e₂ :: kept, hmem, hiff =>
      refine .of_holds_iff hsort (sort_connective stop _) ?_ ?_ ?_ fun ρ _ => ?_
      · exact connective_wellSorted.2 fun e he => hes e (hmem e he)
      · intro o ho
        rw [freeOccs_app, List.mem_flatMap] at ho ⊢
        obtain ⟨e, he, ho⟩ := ho
        exact ⟨e, hmem e he, ho⟩
      · intro n hn
        rw [boundVars_app, List.mem_flatMap] at hn ⊢
        obtain ⟨e, he, hn⟩ := hn
        exact ⟨e, hmem e he, hn⟩
      · exact (iff_of_iff_false stop ((hiff ρ).trans holds_connective.symm)).symm

theorem holds_app_boolConst {b : Bool} {args : List Expr}
    (hws : (Expr.app (.boolConst b) args).WellSorted) {ρ : T.Env} :
    Holds ρ (.app (.boolConst b) args) ↔ b = true := by
  obtain rfl : args = [] := by simpa [Op.accepts] using (wellSorted_app.1 hws).1
  exact holds_boolConst

theorem foldIte_rewrites {c a b : Expr} (hws : (Expr.ite c a b).WellSorted)
    (ht : a ≠ b → Trusted T c) : Rewrites H [] (Expr.ite c a b) (foldIte c a b) := by
  obtain ⟨hacc, hargs⟩ := wellSorted_app.1 hws
  obtain ⟨-, hab⟩ : c.sort = .bool ∧ a.sort = b.sort := by simpa [Op.accepts] using hacc
  have hthen : (∀ ρ : T.Env, Holds ρ c) → Rewrites H [] (Expr.ite c a b) a := fun hc =>
    .to_arg (by simp) hws (by simp [Op.resultSort]) fun ρ _ => by
      rw [eval_ite hab, if_pos (hc ρ)]
  have helse : (∀ ρ : T.Env, ¬ Holds ρ c) → Rewrites H [] (Expr.ite c a b) b := fun hc =>
    .to_arg (by simp) hws (by simp [Op.resultSort, hab]) fun ρ _ => by
      rw [eval_ite hab, if_neg (hc ρ)]
  have hcws : c.WellSorted := hargs c (by simp)
  rw [foldIte.eq_def]
  split
  · exact hthen fun ρ => (holds_app_boolConst hcws).2 rfl
  · exact helse fun ρ h => by simpa using (holds_app_boolConst hcws).1 h
  · split_ifs with hsame
    · subst hsame
      exact .to_arg (by simp) hws (by simp [Op.resultSort]) fun ρ _ => by
        rw [eval_ite hab, ite_self]
    · split
      · rename_i hv
        exact hthen fun ρ => (ht hsame _ hv ρ).2 rfl
      · rename_i hv
        exact helse fun ρ h => by simpa using (ht hsame _ hv ρ).1 h
      · exact .refl hws

/-! ### Bit-vector folds -/

theorem foldBvBinary_rewrites {op : Op} {a b : Expr} (hws : (Expr.app op [a, b]).WellSorted) :
    Rewrites H [] (.app op [a, b]) (foldBvBinary op a b) := by
  rw [foldBvBinary]
  cases h : evalBvBinaryConst op a b with
  | none => exact .refl hws
  | some c => exact (evalBvBinaryConst_sound hws h).1

theorem foldBvExtract_rewrites {high low : ℕ} {e inner : Expr} (h : Rewrites H [] e inner)
    (hws : (Expr.app (.bvExtract high low) [e]).WellSorted) :
    Rewrites H [] (.app (.bvExtract high low) [e]) (foldBvExtract high low e inner) := by
  have happ : Rewrites H [] (.app (.bvExtract high low) [e]) (.app (.bvExtract high low) [inner]) :=
    .app₁ h (wellSorted_app.1 hws).1
  rw [foldBvExtract.eq_def]
  split
  · rename_i w x args
    cases hc : foldExtract high low x.toNat w with
    | none => exact .refl hws
    | some c =>
      exact happ.trans (rewrites_foldExtract (e := .app (.bitVecConst w x) args)
        (by simp [Op.resultSort]) (fun ρ => bits_bitVecConst x args) hc).1
  · split_ifs
    · exact happ
    · exact .refl hws

/-! ### Array folds -/

theorem foldSelect_rewrites {array index newArray newIndex : Expr}
    (ha : Rewrites H [] array newArray) (hi : Rewrites H [] index newIndex)
    (hws : (array.select index).WellSorted) (hapart : TellsApart T newArray newIndex) :
    Rewrites H [] (array.select index) (foldSelect array index newArray newIndex) := by
  have happ : Rewrites H [] (array.select index) (newArray.select newIndex) :=
    .app₂ ha hi (wellSorted_app.1 hws).1
  rw [foldSelect.eq_def]
  split_ifs
  · exact .refl hws
  · split
    · rename_i s value _
      refine happ.trans (.of_eval ?_ ((wellSorted_app.1 ha.wellSorted).2 value (by simp)) ?_ ?_
        fun ρ _ => (eval_select_constArray s).symm)
      · simp [Op.resultSort, SmtSort.arraySort]
      · simp +contextual
      · simp +contextual
    · cases h : evalSelectStoreConst newArray newIndex with
      | none => exact happ
      | some v => exact happ.trans (evalSelectStoreConst_rewrites happ.wellSorted hapart h)

theorem foldStore_rewrites {array index value newArray newIndex newValue : Expr}
    (ha : Rewrites H [] array newArray) (hi : Rewrites H [] index newIndex)
    (hv : Rewrites H [] value newValue) (hws : (array.store index value).WellSorted) :
    Rewrites H [] (array.store index value) (foldStore value newArray newIndex newValue) := by
  obtain ⟨hacc, hargs⟩ := wellSorted_app.1 hws
  have happ : Rewrites H [] (array.store index value) (newArray.store newIndex newValue) :=
    .app₃ ha hi hv hacc
  have hsort := sorts_of_store happ.wellSorted
  rw [foldStore.eq_def]
  split_ifs with hnoop hguard
  · refine happ.trans (.to_arg (by simp) happ.wellSorted (by simp [Op.resultSort]) fun ρ _ => ?_)
    rw [eq_comm]
    rw [isNoopStore.eq_def] at hnoop
    rcases Bool.or_eq_true_iff.1 hnoop with h | h
    · split at h
      · rename_i s v
        obtain rfl := beq_iff_eq.1 h
        refine eval_store_select hsort rfl rfl ?_
        rw [eval_select_constArray]
      · cases h
    · split at h
      · rename_i a i
        obtain ⟨rfl, rfl⟩ : a = newArray ∧ i = newIndex := by simpa using h
        exact eval_store_select hsort rfl rfl rfl
      · cases h
  · exact .app₃ ha hi (.refl (hargs value (by simp))) hacc
  · split
    · rename_i innerArray innerIndex innerValue
      have hinner := sorts_of_store ha.wellSorted
      split_ifs with hsame
      · subst hsame
        have hparts := (wellSorted_app.1 ha.wellSorted).2
        have hvs : newValue.sort = innerValue.sort := by
          simpa [Op.resultSort, hinner] using hsort.symm
        refine happ.trans (.of_eval ?_ ?_ ?_ ?_ fun ρ _ => ?_)
        · simp [Op.resultSort]
        · refine wellSorted_app.2 ⟨by simp [Op.accepts, hinner, hvs], ?_⟩
          simpa using ⟨hparts innerArray (by simp), hparts innerIndex (by simp), hv.wellSorted⟩
        · simp only [freeOccs_app, List.flatMap_cons, List.flatMap_nil, List.append_nil,
            List.mem_append]
          tauto
        · simp only [boundVars_app, List.flatMap_cons, List.flatMap_nil, List.append_nil,
            List.mem_append]
          tauto
        · exact (eval_store_store hinner rfl hvs).symm
      · exact happ
    · exact happ

/-! ### Datatype folds -/

/-- Where every new argument has its field's sort, all of them are taken. -/
private theorem adjusted_eq {args newArgs : List Expr} {fields : List SmtField}
    (hlen : args.length = newArgs.length)
    (hsorts : newArgs.map Expr.sort = fields.map SmtField.sort) :
    (((args.zip newArgs).zip fields).map fun ((arg, newArg), field) =>
      if newArg.sort = field.sort then newArg else arg) = newArgs := by
  induction newArgs generalizing args fields with
  | nil => simp
  | cons a newArgs ih =>
    match args, fields, hlen, hsorts with
    | b :: args, f :: fields, hlen, hsorts =>
      obtain ⟨hf, hrest⟩ := List.cons.inj hsorts
      simp only [List.zip_cons_cons, List.map_cons, hf, if_true]
      rw [ih (by simpa using hlen) hrest]

/-- The new arguments have the sorts of the old ones, so all of them are taken. -/
theorem foldDtConstructor_eq {dt c : String} {s : SmtSort} {args newArgs : List Expr}
    (h : List.Forall₂ (Rewrites H []) args newArgs)
    (hws : (Expr.datatypeConstructor dt c args s).WellSorted) :
    foldDtConstructor dt c s args newArgs = .datatypeConstructor dt c newArgs s := by
  obtain ⟨n, cs, d, rfl, hd, hsorts⟩ := constructor_of_wellSorted hws
  have hnew : newArgs.map Expr.sort = d.fields.map SmtField.sort := by
    rw [← hsorts, Rewrites.sorts h]
  have hlen : d.fields.length = args.length := by simpa using (congrArg List.length hsorts).symm
  simp only [foldDtConstructor, SmtSort.constructors, hd, hlen, ne_eq, not_true_eq_false, if_false,
    adjusted_eq h.length_eq hnew]

/-- Reading a field of a constructor application by its name. -/
theorem betaSelect_rewrites {dt sel : String} {s : SmtSort} {e arg : Expr}
    (hws : (e.fieldSelect dt sel s).WellSorted) (h : betaSelect sel e = some arg) :
    Rewrites H [] (e.fieldSelect dt sel s) arg := by
  rw [betaSelect.eq_def] at h
  split at h
  case h_2 => cases h
  rename_i dt' c s' args
  obtain ⟨n, cs, d, rfl, hd, hsorts⟩ :=
    constructor_of_wellSorted ((wellSorted_app.1 hws).2 _ (List.mem_singleton_self _))
  simp only [SmtSort.constructors, Option.bind_eq_bind, Option.bind_some, hd,
    Option.bind_eq_some_iff] at h
  obtain ⟨i, hi, harg⟩ := h
  exact rewrites_selectedArg hws hd hsorts hi harg

theorem foldDtSelector_rewrites {dt sel : String} {s : SmtSort} {e inner : Expr}
    (h : Rewrites H [] e inner) (hws : (e.fieldSelect dt sel s).WellSorted) :
    Rewrites H [] (e.fieldSelect dt sel s) (foldDtSelector dt sel s e inner) := by
  have happ : Rewrites H [] (e.fieldSelect dt sel s) (inner.fieldSelect dt sel s) :=
    .app₁ h (wellSorted_app.1 hws).1
  rw [foldDtSelector]
  cases hb : betaSelect sel inner with
  | none =>
    dsimp only
    rw [tryApp]
    split_ifs
    · exact happ
    · exact .refl hws
  | some arg => exact happ.trans (betaSelect_rewrites happ.wellSorted hb)

theorem foldTester_rewrites {dt c : String} {e inner : Expr} (h : Rewrites H [] e inner)
    (hws : (e.isConstructor dt c).WellSorted) :
    Rewrites H [] (e.isConstructor dt c) (foldTester dt c e inner) := by
  rw [foldTester, tryApp]
  split_ifs
  · exact .app₁ h (wellSorted_app.1 hws).1
  · exact .refl hws

/-! ### Applications -/

/-- What the fold of an operator reads of its new arguments: the formulas that it evaluates
satisfy `decided`, and `apart` holds of an array that is read and the index. -/
def NodeReads (decided : Expr → Prop) (apart : Expr → Expr → Prop) : Op → List Expr → Prop
  | .not, [e] => decided e
  | .and, es => ReadUntil decided false es
  | .or, es => ReadUntil decided true es
  | .ite, [c, a, b] => a ≠ b → decided c
  | .select, [array, index] => apart array index
  | _, _ => True

/-- **Folding an application** whose arguments were rewritten. -/
theorem foldApp_rewrites {op : Op} {args newArgs : List Expr}
    (h : List.Forall₂ (Rewrites H []) args newArgs) (hws : (Expr.app op args).WellSorted)
    (hreads : NodeReads (Trusted T) (TellsApart T) op newArgs) :
    Rewrites H [] (.app op args) (foldApp op args newArgs) := by
  have happ : Rewrites H [] (.app op args) (.app op newArgs) := .app h (wellSorted_app.1 hws).1
  have hws' := happ.wellSorted
  rw [foldApp.eq_def]
  split
  · exact happ.trans (foldNot_rewrites hws' hreads)
  · obtain ⟨h, -⟩ := List.forall₂_cons.1 h
    exact foldBvExtract_rewrites h hws
  · exact happ.trans (foldBvBinary_rewrites hws')
  · exact happ.trans (foldBvBinary_rewrites hws')
  · exact happ.trans (foldBvBinary_rewrites hws')
  · exact happ.trans (foldBvBinary_rewrites hws')
  · exact happ.trans (foldEq_rewrites hws')
  · exact happ.trans (foldNary_rewrites false hws' hreads)
  · exact happ.trans (foldNary_rewrites true hws' hreads)
  · exact happ.trans (foldIte_rewrites hws' hreads)
  · obtain ⟨ha, h⟩ := List.forall₂_cons.1 h
    obtain ⟨hi, -⟩ := List.forall₂_cons.1 h
    exact foldSelect_rewrites ha hi hws hreads
  · obtain ⟨ha, h⟩ := List.forall₂_cons.1 h
    obtain ⟨hi, h⟩ := List.forall₂_cons.1 h
    obtain ⟨hv, -⟩ := List.forall₂_cons.1 h
    exact foldStore_rewrites ha hi hv hws
  · rw [foldDtConstructor_eq h hws]
    exact happ
  · obtain ⟨h, -⟩ := List.forall₂_cons.1 h
    exact foldDtSelector_rewrites h hws
  · obtain ⟨h, -⟩ := List.forall₂_cons.1 h
    exact foldTester_rewrites h hws
  · exact happ

/-! ### Regular results -/

theorem regular_boolConst (b : Bool) : Regular (.boolConst b) := by simp [regularNode]

theorem regular_foldNary {op : Op} {stop : Bool} {es : List Expr}
    (hnode : ∀ ss, regularNode op ss = true) (hregs : ∀ e ∈ es, Regular e) :
    Regular (foldNary op stop es) := by
  rw [foldNary]
  cases hk : foldChildren stop es with
  | none => exact regular_boolConst stop
  | some kept =>
    have hmem : ∀ e ∈ kept, Regular e := fun e he => hregs e (mem_of_foldChildren hk he)
    match kept, hmem with
    | [], _ => exact regular_boolConst !stop
    | [e], hmem => exact hmem e (by simp)
    | e₁ :: e₂ :: kept, hmem => exact regular_app.2 ⟨hnode _, hmem⟩

theorem regular_evalBvBinaryConst {op : Op} {a b c : Expr} (h : evalBvBinaryConst op a b = some c) :
    Regular c := by
  rw [evalBvBinaryConst.eq_def] at h
  split at h
  case h_2 => cases h
  split at h
  case h_6 => cases h
  · obtain ⟨z, -, rfl⟩ := Option.map_eq_some_iff.1 h
    simp [bitvecConst, regularNode]
  all_goals
    obtain rfl := Option.some.inj h
    simp [bitvecConst, regularNode]

theorem regular_foldSelect {array index newArray newIndex : Expr}
    (hreg : Regular (array.select index)) (ha : Regular newArray) (hi : Regular newIndex) :
    Regular (foldSelect array index newArray newIndex) := by
  rw [foldSelect.eq_def]
  split_ifs
  · exact hreg
  · split
    · exact (regular_app.1 ha).2 _ (by simp)
    · cases h : evalSelectStoreConst newArray newIndex with
      | none => simpa [regularNode] using ⟨ha, hi⟩
      | some v => exact regular_evalSelectStoreConst ha h

theorem regular_foldStore {value newArray newIndex newValue : Expr}
    (hnode : newIndex.sort.isArray = false) (hv : Regular value) (ha : Regular newArray)
    (hi : Regular newIndex) (hnew : Regular newValue) :
    Regular (foldStore value newArray newIndex newValue) := by
  have hstore : ∀ {a v : Expr}, Regular a → Regular v → Regular (a.store newIndex v) :=
    fun ha hv => by simpa [regularNode, hnode] using ⟨ha, hi, hv⟩
  rw [foldStore.eq_def]
  split_ifs
  · exact ha
  · exact hstore ha hv
  · split
    · split_ifs
      · exact hstore ((regular_app.1 ha).2 _ (by simp)) hnew
      · exact hstore ha hnew
    · exact hstore ha hnew

theorem regular_foldDtSelector {dt sel : String} {s : SmtSort} {e inner : Expr}
    (hreg : Regular (e.fieldSelect dt sel s)) (hsort : inner.sort = e.sort)
    (hinner : Regular inner) : Regular (foldDtSelector dt sel s e inner) := by
  rw [foldDtSelector]
  cases hb : betaSelect sel inner with
  | none =>
    dsimp only
    rw [tryApp]
    split_ifs
    · refine regular_app.2 ⟨?_, by simpa using hinner⟩
      simpa [hsort] using (regular_app.1 hreg).1
    · exact hreg
  | some arg =>
    rw [betaSelect.eq_def] at hb
    split at hb
    case h_2 => cases hb
    simp only [Option.bind_eq_bind, Option.bind_eq_some_iff] at hb
    obtain ⟨-, -, -, -, i, -, harg⟩ := hb
    exact (regular_app.1 hinner).2 arg (List.mem_of_getElem? harg)

/-- **Folding an application keeps it regular**, when the new arguments are and have the sorts
of the old ones. -/
theorem regular_foldApp {op : Op} {args newArgs : List Expr}
    (h : List.Forall₂ (Rewrites H []) args newArgs) (hws : (Expr.app op args).WellSorted)
    (hreg : Regular (.app op args)) (hregs : ∀ a ∈ newArgs, Regular a) :
    Regular (foldApp op args newArgs) := by
  obtain ⟨hnode, hargs⟩ := regular_app.1 hreg
  have happ : Regular (.app op newArgs) := regular_app.2 ⟨by rw [Rewrites.sorts h, hnode], hregs⟩
  rw [foldApp.eq_def]
  split
  · rw [foldNot_eq]
    rename_i inner
    cases tryEvalToBool inner with
    | none => exact happ
    | some b => exact regular_boolConst !b
  · rw [foldBvExtract.eq_def]
    split
    · rename_i w x _
      cases hc : foldExtract _ _ x.toNat w with
      | none => exact hreg
      | some c =>
        obtain ⟨-, hc⟩ := Option.ite_none_right_eq_some.1 hc
        obtain rfl := Option.some.inj hc
        simp [bitvecConst, regularNode]
    · split_ifs
      · exact happ
      · exact hreg
  case h_7 =>
    rw [foldEq]
    split_ifs
    · exact regular_boolConst _
    · exact regular_boolConst true
    · exact happ
  case h_8 => exact regular_foldNary (fun _ => rfl) hregs
  case h_9 => exact regular_foldNary (fun _ => rfl) hregs
  case h_10 =>
    rename_i c a b
    rw [foldIte.eq_def]
    split
    · exact hregs a (by simp)
    · exact hregs b (by simp)
    · split_ifs
      · exact hregs a (by simp)
      · split
        · exact hregs a (by simp)
        · exact hregs b (by simp)
        · exact happ
  case h_11 => exact regular_foldSelect hreg (hregs _ (by simp)) (hregs _ (by simp))
  case h_12 =>
    have hindex := (regular_app.1 happ).1
    exact regular_foldStore (by simpa [regularNode] using hindex) (hargs _ (by simp))
      (hregs _ (by simp)) (hregs _ (by simp)) (hregs _ (by simp))
  case h_13 =>
    rw [foldDtConstructor_eq h hws]
    exact happ
  case h_14 =>
    obtain ⟨h, -⟩ := List.forall₂_cons.1 h
    exact regular_foldDtSelector hreg h.sort (hregs _ (by simp))
  case h_15 =>
    rw [foldTester, tryApp]
    split_ifs
    · exact happ
    · exact hreg
  case h_16 => exact happ
  -- the binary operators on bit-vectors
  all_goals
    rw [foldBvBinary]
    rename_i a b
    cases hc : evalBvBinaryConst _ a b with
    | none => exact happ
    | some c => exact regular_evalBvBinaryConst hc

/-! ### Substitution -/

namespace Known

/-- The known variables have their constants. -/
def Holds (known : Known) (ρ : T.Env) : Prop :=
  ∀ n c, known.lookup n = some c → (Expr.var n c.sort).eval ρ = c.eval ρ

/-- Every constant is one. -/
structure WellFormed (known : Known) : Prop where
  isConstant : ∀ n c, known.lookup n = some c → isConstant c = true
  wellSorted : ∀ n c, known.lookup n = some c → c.WellSorted

/-- Every constant is one, and none of its nodes is misread. -/
structure Constants (known : Known) : Prop where
  isConstant : ∀ n c, known.lookup n = some c → isConstant c = true
  wellSorted : ∀ n c, known.lookup n = some c → c.WellSorted
  regular : ∀ n c, known.lookup n = some c → Regular c

theorem Constants.wellFormed {known : Known} (h : known.Constants) : known.WellFormed :=
  ⟨h.isConstant, h.wellSorted⟩

/-- The known variables occur at the sorts of their constants. -/
def Fits (known : Known) (e : Expr) : Prop :=
  ∀ n s c, (n, s) ∈ e.freeOccs → known.lookup n = some c → c.sort = s

theorem Fits.arg {known : Known} {op : Op} {args : List Expr} (h : known.Fits (.app op args))
    {a : Expr} (ha : a ∈ args) : known.Fits a := by
  intro n s c ho
  refine h n s c ?_
  rw [freeOccs_app]
  exact List.mem_flatMap.2 ⟨a, ha, ho⟩

end Known

/-- Looking up in a map restricted by a predicate on names. -/
theorem lookup_filter {m : Known} (p : String → Bool) {n : String} :
    (m.filter fun q => p q.1).lookup n = if p n then m.lookup n else none := by
  induction m with
  | nil => simp
  | cons q m ih =>
    obtain ⟨k, e⟩ := q
    by_cases hk : p k = true
    · rw [List.filter_cons_of_pos (by simpa using hk), List.lookup_cons, List.lookup_cons, ih]
      by_cases hn : n = k
      · subst hn
        simp only [beq_self_eq_true, if_pos hk]
      · rw [beq_eq_false_iff_ne.2 hn]
    · rw [List.filter_cons_of_neg (by simpa using hk), ih, List.lookup_cons]
      by_cases hn : n = k
      · rw [hn, if_neg hk, if_neg hk]
      · rw [beq_eq_false_iff_ne.2 hn]

theorem lookup_insert {m : Known} {n k : String} {e : Expr} :
    (m.insert n e).lookup k = if k = n then some e else m.lookup k := by
  rw [Known.insert, List.lookup_cons, lookup_filter fun k => decide (k ≠ n)]
  by_cases hk : k = n
  · simp [hk]
  · simp [hk, beq_eq_false_iff_ne.2 hk]

theorem lookup_filterBoundVars {known : Known} {vars : List (String × SmtSort)} {n : String} :
    (filterBoundVars known vars).lookup n =
      if n ∈ vars.map Prod.fst then none else known.lookup n := by
  rw [filterBoundVars, lookup_filter fun k => decide (k ∉ vars.map Prod.fst)]
  simp only [decide_eq_true_eq, ite_not]

theorem lookup_of_filterBoundVars {known : Known} {vars : List (String × SmtSort)} {n : String}
    {c : Expr} (h : (filterBoundVars known vars).lookup n = some c) :
    n ∉ vars.map Prod.fst ∧ known.lookup n = some c := by
  rw [lookup_filterBoundVars] at h
  exact Option.ite_none_left_eq_some.1 h

namespace Known

variable {known : Known} {vars : List (String × SmtSort)}

theorem WellFormed.filterBoundVars (h : known.WellFormed) (vars : List (String × SmtSort)) :
    (filterBoundVars known vars).WellFormed :=
  ⟨fun n c hc => h.isConstant n c (lookup_of_filterBoundVars hc).2,
    fun n c hc => h.wellSorted n c (lookup_of_filterBoundVars hc).2⟩

theorem Constants.filterBoundVars (h : known.Constants) (vars : List (String × SmtSort)) :
    (filterBoundVars known vars).Constants :=
  ⟨fun n c hc => h.isConstant n c (lookup_of_filterBoundVars hc).2,
    fun n c hc => h.wellSorted n c (lookup_of_filterBoundVars hc).2,
    fun n c hc => h.regular n c (lookup_of_filterBoundVars hc).2⟩

theorem Fits.body {q : Quantifier} {body : Expr} (h : known.Fits (.quant q vars body)) :
    (ConstProp.filterBoundVars known vars).Fits body := by
  intro n s c ho hc
  obtain ⟨hn, hc⟩ := lookup_of_filterBoundVars hc
  exact h n s c (mem_freeOccs_quant.2 ⟨ho, hn⟩) hc

/-- What is known of the names a quantifier does not bind survives their choice. -/
theorem Holds.filterBoundVars (hk : known.WellFormed) {ρ ρ' : T.Env}
    (hagree : Theory.AgreeOff (vars.map Prod.fst) ρ ρ') (h : known.Holds ρ) :
    (filterBoundVars known vars).Holds ρ' := by
  intro n c hc
  obtain ⟨hn, hc⟩ := lookup_of_filterBoundVars hc
  rw [eval_isConstant (hk.isConstant n c hc) (hk.wellSorted n c hc) ρ' ρ, ← h n c hc, eval_var,
    eval_var, hagree n hn]

end Known

/-! ### What a substitution reads -/

section Reads

variable (decided : Expr → Prop) (apart : Expr → Expr → Prop)

mutual

/-- Substituting into the term, every fold reads right. -/
def ReadsRight (known : Known) : Expr → Prop
  | .var _ _ => True
  | .app op args =>
    ReadsAllRight known args ∧ NodeReads decided apart op (substituteVarsList known args)
  | .quant _ vars body => ReadsRight (filterBoundVars known vars) body

/-- Substituting into the terms, every fold reads right. -/
def ReadsAllRight (known : Known) : List Expr → Prop
  | [] => True
  | e :: es => ReadsRight known e ∧ ReadsAllRight known es

end

variable {decided apart}

theorem readsAllRight_iff {known : Known} {es : List Expr} :
    ReadsAllRight decided apart known es ↔ ∀ e ∈ es, ReadsRight decided apart known e := by
  induction es with
  | nil => simp [ReadsAllRight]
  | cons e es ih => rw [ReadsAllRight, ih, List.forall_mem_cons]

@[simp]
theorem readsRight_var {known : Known} {n : String} {s : SmtSort} :
    ReadsRight decided apart known (.var n s) := trivial

@[simp]
theorem readsRight_quant {known : Known} {q : Quantifier} {vars : List (String × SmtSort)}
    {body : Expr} : ReadsRight decided apart known (.quant q vars body) ↔
      ReadsRight decided apart (filterBoundVars known vars) body := Iff.rfl

theorem readsRight_app {known : Known} {op : Op} {args : List Expr} :
    ReadsRight decided apart known (.app op args) ↔
      (∀ a ∈ args, ReadsRight decided apart known a) ∧
        NodeReads decided apart op (args.map (substituteVarsInner known)) := by
  rw [ReadsRight, readsAllRight_iff, substituteVarsList_eq]

end Reads

/-- **Soundness of substitution** where everything is read right. -/
theorem substituteVarsInner_rewrites {known : Known} (hk : known.WellFormed) {e : Expr}
    (hws : e.WellSorted) (hfit : known.Fits e)
    (hreads : ReadsRight (Trusted T) (TellsApart T) known e) :
    Rewrites (T := T) known.Holds [] e (substituteVarsInner known e) := by
  induction e generalizing known with
  | var n s =>
    rw [substituteVarsInner]
    cases hc : known.lookup n with
    | none => exact .refl hws
    | some c =>
      have hcc := hk.isConstant n c hc
      have hcw := hk.wellSorted n c hc
      obtain rfl : c.sort = s := hfit n s c (by simp) hc
      refine ⟨rfl, hcw, ?_, ?_, fun ρ hρ => (hρ n c hc).symm⟩
      · simp [(closed_of_isConstant hcc hcw).1]
      · simp [(closed_of_isConstant hcc hcw).2]
  | app op args ih =>
    obtain ⟨hargs, hnode⟩ := readsRight_app.1 hreads
    rw [substituteVarsInner, substituteVarsList_eq]
    refine foldApp_rewrites ?_ hws hnode
    rw [List.forall₂_map_right_iff, List.forall₂_same]
    exact fun a ha => ih a ha hk ((wellSorted_app.1 hws).2 a ha) (hfit.arg ha) (hargs a ha)
  | quant q vars body ih =>
    obtain ⟨hs, hwb⟩ := wellSorted_quant.1 hws
    have hbody := ih (hk.filterBoundVars vars) hwb hfit.body hreads
    exact hbody.binder hs fun ρ ρ' hagree hρ => hρ.filterBoundVars hk hagree

/-! ### Regular terms -/

/-- On regular arguments a fold reads right. -/
theorem nodeReads_of_regular {op : Op} {args : List Expr} (hws : (Expr.app op args).WellSorted)
    (hreg : Regular (.app op args)) : NodeReads (Trusted T) (TellsApart T) op args := by
  have hargs : ∀ a ∈ args, Trusted T a := fun a ha =>
    trusted_of_regular ((wellSorted_app.1 hws).2 a ha) ((regular_app.1 hreg).2 a ha)
  rw [NodeReads.eq_def]
  split
  · exact hargs _ (by simp)
  · exact readUntil_of_forall hargs
  · exact readUntil_of_forall hargs
  · exact fun _ => hargs _ (by simp)
  · exact tellsApart_of_regular hws ((regular_app.1 hreg).2 _ (by simp))
  · trivial

/-- Substituting into a regular term reads right, and the result is regular. -/
theorem readsRight_of_regular {known : Known} (hk : known.Constants) {e : Expr}
    (hws : e.WellSorted) (hreg : Regular e) (hfit : known.Fits e) :
    ReadsRight (Trusted T) (TellsApart T) known e ∧ Regular (substituteVarsInner known e) := by
  induction e generalizing known with
  | var n s =>
    refine ⟨trivial, ?_⟩
    rw [substituteVarsInner]
    cases hc : known.lookup n with
    | none => exact hreg
    | some c => exact hk.regular n c hc
  | app op args ih =>
    obtain ⟨hacc, hargs⟩ := wellSorted_app.1 hws
    obtain ⟨hnode, hregs⟩ := regular_app.1 hreg
    have hih := fun a ha => ih a ha hk (hargs a ha) (hregs a ha) (hfit.arg ha)
    have hr : List.Forall₂ (Rewrites (T := T) known.Holds []) args
        (args.map (substituteVarsInner known)) := by
      rw [List.forall₂_map_right_iff, List.forall₂_same]
      exact fun a ha =>
        substituteVarsInner_rewrites hk.wellFormed (hargs a ha) (hfit.arg ha) (hih a ha).1
    have hnew : ∀ a ∈ args.map (substituteVarsInner known), Regular a :=
      List.forall_mem_map.2 fun a ha => (hih a ha).2
    rw [readsRight_app, substituteVarsInner, substituteVarsList_eq]
    refine ⟨⟨fun a ha => (hih a ha).1, ?_⟩, regular_foldApp hr hws hreg hnew⟩
    refine nodeReads_of_regular (Rewrites.app hr hacc).wellSorted ?_
    exact regular_app.2 ⟨by rw [Rewrites.sorts hr, hnode], hnew⟩
  | quant q vars body ih =>
    exact ih (hk.filterBoundVars vars) (wellSorted_quant.1 hws).2 hreg hfit.body

theorem substituteVars_sound {known : Known} (hk : known.Constants) {e : Expr}
    (hws : e.WellSorted) (hreg : Regular e) (hfit : known.Fits e) :
    Folds (T := T) known.Holds e (substituteVars e known) := by
  rw [substituteVars]
  split_ifs
  · exact ⟨.refl hws, hreg⟩
  · obtain ⟨hreads, hregular⟩ := readsRight_of_regular (T := T) hk hws hreg hfit
    exact ⟨substituteVarsInner_rewrites hk.wellFormed hws hfit hreads, hregular⟩

end ConstProp

end TrustMc
