import TrustMc.Flatten.LeafSorts
import TrustMc.Smt.Eval
import Mathlib.Data.List.Nodup

/-!
# The leaf terms of a value

`collectLeafExprs` takes a term apart into its scalar leaves: through the arguments where the term
is a constructor application, through selectors where it is another term of a struct sort. Which
way it goes does not show in the values (`forall₂_collectLeafExprs`).
-/

namespace TrustMc

namespace Flatten

open Carriers.Val TrustMc.Expr

/-! ### Collecting -/

/-- The recursion of `is_recursively_flattenable`, with the depth that is left. -/
def flattenableWithin : ℕ → SmtSort → Bool
  | 0, sort => sort.isScalar
  | left + 1, sort => sort.isScalar ||
    match sort.structFields with
    | some fields => !fields.isEmpty && fields.all fun f => flattenableWithin left f.sort
    | none => false

/-- `is_recursively_flattenable`. -/
def isRecursivelyFlattenable (sort : SmtSort) (depth : ℕ) : Bool :=
  flattenableWithin (maxFlattenDepth - depth) sort

mutual

/-- `collect_leaf_exprs` on a term that is no constructor application. -/
def selectLeaves : SmtSort → Expr → List Expr
  | .datatype n [c], e => selectConstructor n c e
  | _, e => [e]

/-- The leaves below the constructor of a struct. -/
def selectConstructor (n : String) : SmtConstructor → Expr → List Expr
  | .mk _ fields, e => selectFields n fields e

/-- The leaves below a list of fields. -/
def selectFields (n : String) : List SmtField → Expr → List Expr
  | [], _ => []
  | .mk f s :: fields, e => selectLeaves s (.fieldSelect e n f s) ++ selectFields n fields e

end

mutual

/-- `collect_leaf_exprs`; every entry of the list it fills is present. -/
def collectLeafExprs : Expr → List Expr
  | .app (.datatypeConstructor _ _ _) args => collectLeafExprsList args
  | e => selectLeaves e.sort e

/-- The leaves of a list of arguments. -/
def collectLeafExprsList : List Expr → List Expr
  | [] => []
  | e :: es => collectLeafExprs e ++ collectLeafExprsList es

end

/-! ### Leaves by selectors -/

theorem selectFields_eq (n : String) (fields : List SmtField) (e : Expr) :
    selectFields n fields e =
      fields.flatMap fun f => selectLeaves f.sort (.fieldSelect e n f.name f.sort) := by
  induction fields with
  | nil => rfl
  | cons f fields ih =>
    obtain ⟨name, s⟩ := f
    rw [selectFields, ih]
    rfl

theorem selectLeaves_struct {n c : String} {fields : List SmtField} (e : Expr) :
    selectLeaves (.datatype n [.mk c fields]) e =
      fields.flatMap fun f => selectLeaves f.sort (.fieldSelect e n f.name f.sort) := by
  rw [selectLeaves, selectConstructor, selectFields_eq]

theorem selectLeaves_of_isScalar {s : SmtSort} (h : s.isScalar = true) (e : Expr) :
    selectLeaves s e = [e] := by
  cases s <;> first | rfl | cases h

theorem collectLeafExprsList_eq (es : List Expr) :
    collectLeafExprsList es = es.flatMap collectLeafExprs := by
  induction es with
  | nil => rfl
  | cons e es ih => rw [collectLeafExprsList, ih, List.flatMap_cons]

/-- A flattenable sort is a scalar or a struct of flattenable sorts. -/
theorem flattenableWithin_cases {left : ℕ} {s : SmtSort} (h : flattenableWithin left s = true) :
    s.isScalar = true ∨ ∃ left' n c fields, left = left' + 1 ∧ s = .datatype n [.mk c fields] ∧
      ∀ f ∈ fields, flattenableWithin left' f.sort = true := by
  by_cases hs : s.isScalar = true
  · exact .inl hs
  · cases left with
    | zero => exact absurd h hs
    | succ left =>
      rw [flattenableWithin, Bool.or_eq_true] at h
      have h := h.resolve_left hs
      cases hf : s.structFields with
      | none => simp [hf] at h
      | some fields =>
        obtain ⟨n, c, rfl⟩ := structFields_eq_some.1 hf
        simp only [hf, Bool.and_eq_true, List.all_eq_true] at h
        exact .inr ⟨left, n, c, fields, rfl, rfl, h.2⟩

/-! ### Values of leaves -/

variable {T : Theory} {ρ : T.Env}

/-- The two terms have one sort and one value. -/
def SameTerm (ρ : T.Env) (a b : Expr) : Prop := a.sort = b.sort ∧ a.eval ρ = b.eval ρ

theorem SameTerm.refl (a : Expr) : SameTerm ρ a a := ⟨rfl, rfl⟩

theorem SameTerm.trans {a b c : Expr} (h : SameTerm ρ a b) (h' : SameTerm ρ b c) :
    SameTerm ρ a c := ⟨h.1.trans h'.1, h.2.trans h'.2⟩

/-- Terms with one value have one sort. -/
theorem sameTerm_of_eval {a b : Expr} (h : a.eval ρ = b.eval ρ) : SameTerm ρ a b :=
  ⟨by rw [← eval_sort a ρ, h, eval_sort], h⟩

theorem forall₂_sameTerm_trans {as bs cs : List Expr} (h : List.Forall₂ (SameTerm ρ) as bs)
    (h' : List.Forall₂ (SameTerm ρ) bs cs) : List.Forall₂ (SameTerm ρ) as cs := by
  induction h generalizing cs with
  | nil => exact h'
  | cons hab _ ih =>
    obtain ⟨c, cs, hbc, hcs, rfl⟩ := List.forall₂_cons_left_iff.1 h'
    exact .cons (hab.trans hbc) (ih hcs)

theorem forall₂_sameTerm_symm {as bs : List Expr} (h : List.Forall₂ (SameTerm ρ) as bs) :
    List.Forall₂ (SameTerm ρ) bs as :=
  List.Forall₂.flip (h.imp fun _ _ hab => ⟨hab.1.symm, hab.2.symm⟩)

theorem eval_fieldSelect_congr {a b : Expr} (h : a.eval ρ = b.eval ρ) (n f : String)
    (s : SmtSort) :
    (Expr.fieldSelect a n f s).eval ρ = (Expr.fieldSelect b n f s).eval ρ := by
  simp only [eval_app, List.map_cons, List.map_nil, h]

theorem forall₂_flatMap {α β γ δ : Type} {R : α → β → Prop} {Q : γ → δ → Prop} {f : α → List γ}
    {g : β → List δ} {as : List α} {bs : List β} (h : List.Forall₂ R as bs)
    (hfg : ∀ a b, a ∈ as → R a b → List.Forall₂ Q (f a) (g b)) :
    List.Forall₂ Q (as.flatMap f) (bs.flatMap g) := by
  induction h with
  | nil => exact .nil
  | @cons a b as bs hab _ ih =>
    rw [List.flatMap_cons, List.flatMap_cons]
    exact List.rel_append (hfg a b (by simp) hab) (ih fun a b ha => hfg a b (by simp [ha]))

/-- Selecting the leaves of two terms with one value. -/
theorem forall₂_selectLeaves {left : ℕ} {s : SmtSort} (hs : flattenableWithin left s = true)
    {a b : Expr} (h : a.eval ρ = b.eval ρ) :
    List.Forall₂ (SameTerm ρ) (selectLeaves s a) (selectLeaves s b) := by
  induction left generalizing s a b with
  | zero =>
    rw [selectLeaves_of_isScalar hs, selectLeaves_of_isScalar hs]
    exact .cons (sameTerm_of_eval h) .nil
  | succ left ih =>
    rcases flattenableWithin_cases hs with hscalar | ⟨left', n, c, fields, hleft, rfl, hfields⟩
    · rw [selectLeaves_of_isScalar hscalar, selectLeaves_of_isScalar hscalar]
      exact .cons (sameTerm_of_eval h) .nil
    · obtain rfl : left = left' := by omega
      rw [selectLeaves_struct, selectLeaves_struct]
      refine forall₂_flatMap (R := Eq) (List.forall₂_eq_eq_eq ▸ rfl) fun f g hf hfg => ?_
      subst hfg
      exact ih (hfields f hf) (eval_fieldSelect_congr h n f.name f.sort)

/-- The sorts of the selected leaves are the leaf sorts. -/
theorem map_sort_selectLeaves {left : ℕ} {s : SmtSort} (hs : flattenableWithin left s = true)
    {e : Expr} (he : e.sort = s) : (selectLeaves s e).map Expr.sort = collectLeaves left s := by
  induction left generalizing s e with
  | zero => rw [selectLeaves_of_isScalar hs, collectLeaves, List.map_singleton, he]
  | succ left ih =>
    rcases flattenableWithin_cases hs with hscalar | ⟨left', n, c, fields, hleft, rfl, hfields⟩
    · have hnone : s.structFields = none := by
        simpa [fieldSorts] using fieldSorts_eq_none_of_isScalar hscalar
      rw [selectLeaves_of_isScalar hscalar, collectLeaves, hnone, List.map_singleton, he]
    · obtain rfl : left = left' := by omega
      rw [selectLeaves_struct, List.map_flatMap, collectLeaves]
      exact List.flatMap_congr fun f hf => ih (hfields f hf) rfl

/-- In no struct within the sort do two fields share a name. -/
def FieldNamesDistinct (s : SmtSort) : Prop :=
  ∀ p t fields, sortAt s p = some t → t.structFields = some fields →
    (fields.map SmtField.name).Nodup

theorem FieldNamesDistinct.field {n c : String} {fields : List SmtField}
    (h : FieldNamesDistinct (.datatype n [.mk c fields])) {f : SmtField} (hf : f ∈ fields) :
    FieldNamesDistinct f.sort := by
  obtain ⟨j, hj⟩ := List.mem_iff_getElem?.1 hf
  intro p t fs ht
  refine h (j :: p) t fs (Trees.nodeAt_cons.2 ⟨_, f.sort, rfl, ?_, ht⟩)
  rw [List.getElem?_map, SmtConstructor.fields, hj, Option.map_some]

theorem findIdx?_name {fields : List SmtField} (h : (fields.map SmtField.name).Nodup) {i : ℕ}
    {f : SmtField} (hf : fields[i]? = some f) :
    fields.findIdx? (·.name == f.name) = some i := by
  obtain ⟨hi, rfl⟩ := List.getElem?_eq_some_iff.1 hf
  refine List.findIdx?_eq_some_iff_getElem.2 ⟨hi, by simp, fun j hji hname => ?_⟩
  have hj : j < fields.length := by omega
  have heq : (fields.map SmtField.name).get ⟨j, by simpa⟩ =
      (fields.map SmtField.name).get ⟨i, by simpa⟩ := by
    simpa using hname
  have := Fin.mk.inj (h.injective_get heq)
  omega

/-- The arguments of a constructor application are what the selectors of its fields read. -/
theorem forall₂_args_fields {dt c n : String} {cs : List SmtConstructor} {d : SmtConstructor}
    {args : List Expr} (hd : cs.find? (·.name == c) = some d)
    (hsorts : args.map Expr.sort = d.fields.map SmtField.sort)
    (hnames : (d.fields.map SmtField.name).Nodup) :
    List.Forall₂ (fun a f => f ∈ d.fields ∧ a.sort = f.sort ∧ (Expr.fieldSelect
      (.datatypeConstructor dt c args (.datatype n cs)) n f.name f.sort).eval ρ = a.eval ρ)
      args d.fields := by
  have hlen : args.length = d.fields.length := by simpa using congrArg List.length hsorts
  refine List.forall₂_iff_get.2 ⟨hlen, fun i hi hi' => ?_⟩
  have hsort : args[i].sort = d.fields[i].sort := by
    have hget := congrArg (fun l => l[i]?) hsorts
    simpa [hi, hi'] using hget
  refine ⟨List.getElem_mem hi', hsort,
    eval_fieldSelect_constructor hd hsorts ?_ (List.getElem?_eq_getElem hi) hsort⟩
  exact findIdx?_name hnames (List.getElem?_eq_getElem hi')

theorem collectLeafExprs_cases (e : Expr) :
    (∃ dt c args s, e = .datatypeConstructor dt c args s) ∨
      collectLeafExprs e = selectLeaves e.sort e := by
  cases e with
  | app op args =>
    cases op with
    | datatypeConstructor dt c s => exact .inl ⟨dt, c, args, s, rfl⟩
    | _ => exact .inr (by rw [collectLeafExprs]; simp)
  | _ => exact .inr (by rw [collectLeafExprs]; simp)

/-- Taking a term apart through its constructor, or by selectors. -/
theorem forall₂_collectLeafExprs {left : ℕ} {e : Expr} (hws : e.WellSorted)
    (hs : flattenableWithin left e.sort = true) (hnames : FieldNamesDistinct e.sort) :
    List.Forall₂ (SameTerm ρ) (collectLeafExprs e) (selectLeaves e.sort e) := by
  induction left generalizing e with
  | zero =>
    rcases collectLeafExprs_cases e with ⟨dt, c, args, s, rfl⟩ | h
    · obtain ⟨n, cs, d, rfl, -⟩ := constructor_of_wellSorted hws
      cases hs
    · rw [h]
      exact List.forall₂_same.2 fun a _ => SameTerm.refl a
  | succ left ih =>
    rcases collectLeafExprs_cases e with ⟨dt, c, args, s, rfl⟩ | h
    · obtain ⟨n, cs, d, rfl, hd, hsorts⟩ := constructor_of_wellSorted hws
      rcases flattenableWithin_cases hs with hscalar | ⟨left', n', c', fields, hleft, hsort, hfields⟩
      · cases hscalar
      obtain rfl : left = left' := by omega
      obtain ⟨rfl, rfl⟩ : n = n' ∧ cs = [.mk c' fields] := by simpa [Op.resultSort] using hsort
      have hd' : d = .mk c' fields := by
        simpa using List.mem_of_find?_eq_some hd
      subst hd'
      have hnames' : FieldNamesDistinct (.datatype n [.mk c' fields]) := hnames
      rw [collectLeafExprs, collectLeafExprsList_eq, hsort, selectLeaves_struct]
      have hargs := @forall₂_args_fields _ ρ dt _ n _ _ _ hd hsorts (hnames' [] _ _ rfl rfl)
      refine forall₂_flatMap hargs fun a f ha hfield => ?_
      obtain ⟨hf, hsortf, heval⟩ := hfield
      have hflat := hfields f hf
      have hrec := ih ((wellSorted_app.1 hws).2 a ha) (hsortf ▸ hflat) (hsortf ▸ hnames'.field hf)
      rw [hsortf] at hrec
      exact forall₂_sameTerm_trans hrec (forall₂_selectLeaves hflat heval.symm)
    · rw [h]
      exact List.forall₂_same.2 fun a _ => SameTerm.refl a

end Flatten

end TrustMc
