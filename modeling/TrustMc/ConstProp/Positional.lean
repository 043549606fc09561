import TrustMc.ConstProp.EvalSound

/-!
# Which datatypes constant evaluation reads right

`tryEvalToConst` folds the selector `fld_N` of a constructor application to what its `N`-th
argument evaluates to, and never asks whether the `N`-th field is called `fld_N`. Everything
else that the evaluators do is right (`evalBvBinaryConst` on all operands, in particular).

* `Positional d`: no constructor of `d` has another field at the position that a selector of
  `d` names, unless constants of that field's sort are never folded.
* `evaluation_right_iff`: the evaluators are right on every term over a family of datatypes
  exactly when all of them are positional.
* `displacedRead`: the term that is misread when one is not.
-/

namespace TrustMc

namespace ConstProp

open Carriers Carriers.Val TrustMc.Expr

variable {T : Theory} {H : T.Env → Prop}

/-- What the evaluators return on the term is its value under every assignment. -/
structure EvaluatesRight (e : Expr) : Prop where
  toBool : ∀ b, tryEvalToBool e = some b → ∀ (T : Theory) (ρ : T.Env), e.eval ρ = ofBool b
  toConst : ∀ c, tryEvalToConst e = some c → ∀ (T : Theory) (ρ : T.Env), e.eval ρ = c.eval ρ

/-- What the fold of a binary operator returns is its value. -/
def FoldsRight (op : Op) (a b : Expr) : Prop :=
  ∀ c, evalBvBinaryConst op a b = some c →
    ∀ (T : Theory) (ρ : T.Env), (Expr.app op [a, b]).eval ρ = c.eval ρ

/-- The selectors of the term read datatypes of the family. -/
def SelectsFrom (D : SmtSort → Prop) (e : Expr) : Prop :=
  ∀ dt sel s d, (Op.datatypeSelector dt sel s, [d]) ∈ e.nodes → D d

/-! ### Positions -/

/-- The sorts of the constants that terms are folded to. -/
def isFolded : SmtSort → Bool
  | .bool | .bitvec _ => true
  | _ => false

/-- The selector names a position at which the constructor has another field, and a constant
at that position is folded. The one bit-vector of width zero is nobody's misreading. -/
def Displaces (c : SmtConstructor) (sel : String) (s : SmtSort) : Prop :=
  ∃ k f, fieldIndex sel = some k ∧ c.fields[k]? = some f ∧ isFolded f.sort = true ∧
    ¬(f.sort = .bitvec 0 ∧ s = .bitvec 0) ∧ c.fields.findIdx? (·.name == sel) ≠ some k

/-- No constructor that can be applied is displaced by a selector that can be. -/
def Positional (d : SmtSort) : Prop :=
  ∀ cs, d.constructors = some cs → ∀ c, cs.find? (·.name == c.name) = some c →
    ∀ dt sel s, (Op.datatypeSelector dt sel s).accepts [d] = true → ¬Displaces c sel s

/-! ### Positional datatypes are read right -/

theorem isFolded_evalBvBinaryConst {op : Op} {a b c : Expr}
    (h : evalBvBinaryConst op a b = some c) : isFolded c.sort = true := by
  unfold evalBvBinaryConst at h
  split at h
  case h_2 => cases h
  split at h
  case h_6 => cases h
  · obtain ⟨z, -, rfl⟩ := Option.map_eq_some_iff.1 h
    rfl
  all_goals
    obtain rfl := Option.some.inj h
    rfl

theorem isFolded_tryEvalUnary {toConst : Expr → Option Expr} {f : ℕ → ℕ → Option Expr}
    {a c : Expr} (hf : ∀ v w c, f v w = some c → isFolded c.sort = true)
    (h : tryEvalUnary toConst f a = some c) : isFolded c.sort = true := by
  simp only [tryEvalUnary, Option.bind_eq_bind, Option.bind_eq_some_iff] at h
  obtain ⟨ca, -, h⟩ := h
  split at h
  · exact hf _ _ _ h
  · cases h

/-- Terms are folded to Booleans and bit-vectors only. -/
theorem isFolded_tryEvalToConstAt {n : ℕ} {e c : Expr} (h : tryEvalToConstAt n e = some c) :
    isFolded c.sort = true := by
  induction n generalizing e with
  | zero => cases h
  | succ n ih =>
    have hbinary : ∀ {op : Op} {a b : Expr},
        tryEvalBinary (tryEvalToConstAt n) op a b = some c → isFolded c.sort = true := by
      intro op a b hb
      simp only [tryEvalBinary, Option.bind_eq_bind, Option.bind_eq_some_iff] at hb
      obtain ⟨ca, -, cb, -, hb⟩ := hb
      exact isFolded_evalBvBinaryConst hb
    have hconst : ∀ {o : Option Expr}, (∀ c, o = some c → ∃ z w, c = bitvecConst z w) →
        ∀ c, o = some c → isFolded c.sort = true := by
      intro o ho c hc
      obtain ⟨z, w, rfl⟩ := ho c hc
      rfl
    rw [tryEvalToConstAt] at h
    unfold tryEvalToConstStep at h
    split at h
    · obtain rfl := Option.some.inj h
      rfl
    · obtain rfl := Option.some.inj h
      rfl
    · exact hbinary h
    · exact hbinary h
    · refine isFolded_tryEvalUnary (fun v w => hconst fun c hc => ?_) h
      obtain ⟨-, hc⟩ := Option.ite_none_right_eq_some.1 hc
      exact ⟨_, _, (Option.some.inj hc).symm⟩
    · exact isFolded_tryEvalUnary
        (fun v w => hconst fun c hc => ⟨_, _, (Option.some.inj hc).symm⟩) h
    · exact isFolded_tryEvalUnary
        (fun v w => hconst fun c hc => ⟨_, _, (Option.some.inj hc).symm⟩) h
    · exact isFolded_tryEvalUnary
        (fun v w => hconst fun c hc => ⟨_, _, (Option.some.inj hc).symm⟩) h
    · exact isFolded_tryEvalUnary
        (fun v w => hconst fun c hc => ⟨_, _, (Option.some.inj hc).symm⟩) h
    · simp only [Option.bind_eq_bind, Option.bind_eq_some_iff] at h
      obtain ⟨v, -, h⟩ := h
      split_ifs at h
      · exact ih h
      · exact ih h
    · rename_i dt sel s a
      unfold tryEvalSelector at h
      split at h
      case h_2 => cases h
      split_ifs at h
      simp only [Option.bind_eq_bind, Option.bind_eq_some_iff] at h
      obtain ⟨k, -, arg, -, h⟩ := h
      exact ih h
    · obtain ⟨b, -, rfl⟩ := Option.map_eq_some_iff.1 h
      rfl

variable {D : SmtSort → Prop}

theorem hereditary_selectsFrom : Hereditary (SelectsFrom D) := by
  intro op args h a ha dt sel s d hd
  refine h dt sel s d ?_
  rw [nodes_app]
  exact List.mem_cons_of_mem _ (List.mem_flatMap.2 ⟨a, ha, hd⟩)

/-- A term of a bit-vector sort of width zero has one value. -/
theorem rewrites_of_width_zero {e c : Expr} (he : e.sort = .bitvec 0) (hc : c.sort = .bitvec 0)
    (hws : c.WellSorted) (hscalar : isScalarConstant c = true) : Rewrites H [] e c := by
  obtain ⟨hocc, hbound⟩ :=
    closed_of_isConstant (isConstant_of_isScalarConstant hscalar hws) hws
  refine .of_eval (by rw [he, hc]) hws (by simp [hocc]) (by simp [hbound]) fun ρ _ => ?_
  rw [eval_eq_ofBV_bits hc, eval_eq_ofBV_bits he, Subsingleton.elim (bits 0 c ρ) (bits 0 e ρ)]

/-- Reading the position of a field of a positional datatype. -/
theorem tryEvalSelector_positional {n : ℕ} (hD : ∀ d, D d → Positional d)
    (hC : ConstSound H (SelectsFrom D) (tryEvalToConstAt n)) {dt sel : String} {s : SmtSort}
    {a c : Expr} (hws : (a.fieldSelect dt sel s).WellSorted)
    (hfrom : SelectsFrom D (a.fieldSelect dt sel s))
    (h : tryEvalSelector (tryEvalToConstAt n) dt sel a = some c) :
    Rewrites H [] (a.fieldSelect dt sel s) c ∧ isScalarConstant c = true := by
  unfold tryEvalSelector at h
  split at h
  case h_2 => cases h
  rename_i ctorDt ctor s' args
  split_ifs at h with hdt
  simp only [Option.bind_eq_bind, Option.bind_eq_some_iff] at h
  obtain ⟨k, hk, arg, harg, h⟩ := h
  obtain ⟨hacc, hinner⟩ := wellSorted_app.1 hws
  have hctor := hinner _ (List.mem_singleton_self _)
  obtain ⟨m, cs, d, rfl, hd, hsorts⟩ := constructor_of_wellSorted hctor
  have hmem : arg ∈ args := List.mem_of_getElem? harg
  have hargs := hereditary_selectsFrom _ _ (hereditary_selectsFrom _ _ hfrom _
    (List.mem_singleton_self _)) arg hmem
  obtain ⟨hr, hscalar⟩ := hC arg c ((wellSorted_app.1 hctor).2 arg hmem) hargs h
  obtain ⟨f, hf, hfs⟩ : ∃ f, d.fields[k]? = some f ∧ arg.sort = f.sort := by
    have hlen := congrArg (·[k]?) hsorts
    simp only [List.getElem?_map, harg, Option.map_some] at hlen
    obtain ⟨f, hf, hs⟩ := Option.map_eq_some_iff.1 hlen.symm
    exact ⟨f, hf, hs.symm⟩
  have hname : d.name = ctor := by simpa using List.find?_some hd
  have hpos := hD _ (hfrom dt sel s (.datatype m cs) (by simp [Op.resultSort])) cs rfl d
    (by rw [hname, hd]) dt sel s (by simpa [Op.resultSort] using hacc)
  refine ⟨?_, hscalar⟩
  by_cases hidx : d.fields.findIdx? (·.name == sel) = some k
  · exact (rewrites_selectedArg hws hd hsorts hidx harg).trans hr
  · -- another field stands there, and its constants are folded: only width zero is left
    have hfold : isFolded f.sort = true := by
      rw [← hfs, ← hr.sort]
      exact isFolded_tryEvalToConstAt h
    obtain ⟨hzero, rfl⟩ : f.sort = .bitvec 0 ∧ s = .bitvec 0 := by
      by_contra hne
      exact hpos ⟨k, f, hk, hf, hfold, hne, hidx⟩
    exact rewrites_of_width_zero rfl (by rw [hr.sort, hfs, hzero]) hr.wellSorted hscalar

theorem tryEvalAt_positional (hD : ∀ d, D d → Positional d) (n : ℕ) :
    BoolSound H (SelectsFrom D) (tryEvalToBoolAt n) ∧
      ConstSound H (SelectsFrom D) (tryEvalToConstAt n) := by
  induction n with
  | zero => exact ⟨fun _ _ _ _ h => (Option.some_ne_none _ h.symm).elim,
      fun _ _ _ _ h => (Option.some_ne_none _ h.symm).elim⟩
  | succ n ih =>
    refine ⟨tryEvalToBoolStep_sound hereditary_selectsFrom ih.1 ih.2, fun e c hws hfrom => ?_⟩
    refine tryEvalToConstStep_sound hereditary_selectsFrom ih.1 ih.2 hws hfrom ?_
    rintro a dt sel s rfl hsel
    exact tryEvalSelector_positional hD ih.2 hws hfrom hsel

theorem evaluatesRight_of_positional (hD : ∀ d, D d → Positional d) {e : Expr}
    (hws : e.WellSorted) (hfrom : SelectsFrom D e) : EvaluatesRight e := by
  refine ⟨fun b hb T ρ => ?_, fun c hc T ρ => ?_⟩
  · have hr := (tryEvalAt_positional (H := fun _ : T.Env => True) hD e.depth).1 e b hws hfrom hb
    rw [← hr.eval ρ trivial, eval_app, Op.interp]
  · have hr := (tryEvalAt_positional (H := fun _ : T.Env => True) hD e.depth).2 e c hws hfrom hc
    exact (hr.1.eval ρ trivial).symm

/-! ### Displaced fields are misread -/

/-- The constant that a displaced position holds. -/
def zeroOf : SmtSort → Expr
  | .bitvec w => .bitVecConst 0#w
  | _ => .boolConst false

theorem sort_zeroOf {s : SmtSort} (h : isFolded s = true) : (zeroOf s).sort = s := by
  unfold isFolded at h
  split at h
  · rfl
  · rfl
  · cases h

theorem wellSorted_zeroOf (s : SmtSort) : (zeroOf s).WellSorted := by
  cases s <;> simp [zeroOf, Op.accepts]

theorem tryEvalToConst_zeroOf (s : SmtSort) : tryEvalToConst (zeroOf s) = some (zeroOf s) := by
  rw [tryEvalToConst_eq]
  cases s <;> rfl

/-- A term that selects `sel` from a constructor application whose `k`-th argument is a
constant; the other arguments are variables. -/
def displacedRead (n : String) (cs : List SmtConstructor) (c : SmtConstructor) (k : ℕ)
    (f : SmtField) (dt sel : String) (s : SmtSort) : Expr :=
  (Expr.datatypeConstructor dt c.name
    ((c.fields.map fun g => .var g.name g.sort).set k (zeroOf f.sort))
    (.datatype n cs)).fieldSelect dt sel s

section Displaced

variable {n dt sel : String} {cs : List SmtConstructor} {c : SmtConstructor} {k : ℕ} {f : SmtField}
  {s : SmtSort}

theorem sorts_displaced (hf : c.fields[k]? = some f) (hfold : isFolded f.sort = true) :
    ((c.fields.map fun g => Expr.var g.name g.sort).set k (zeroOf f.sort)).map Expr.sort =
      c.fields.map SmtField.sort := by
  rw [List.map_set, sort_zeroOf hfold, List.map_map]
  refine List.ext_getElem? fun i => ?_
  rw [List.getElem?_set]
  split_ifs with hik hlt
  · subst hik
    simp [hf]
  · subst hik
    simp only [List.length_map, not_lt] at hlt
    simp [List.getElem?_eq_none hlt]
  · simp [Function.comp_def]

theorem wellSorted_displacedRead (hc : cs.find? (·.name == c.name) = some c)
    (hf : c.fields[k]? = some f) (hfold : isFolded f.sort = true)
    (hacc : (Op.datatypeSelector dt sel s).accepts [.datatype n cs] = true) :
    (displacedRead n cs c k f dt sel s).WellSorted := by
  refine wellSorted_app.2 ⟨by simpa [Op.resultSort] using hacc, ?_⟩
  refine List.forall_mem_singleton.2 (wellSorted_app.2 ⟨?_, fun a ha => ?_⟩)
  · simp [Op.accepts, SmtSort.constructors, hc, sorts_displaced hf hfold]
  · rcases List.mem_or_eq_of_mem_set ha with ha | rfl
    · obtain ⟨g, -, rfl⟩ := List.mem_map.1 ha
      trivial
    · exact wellSorted_zeroOf _

/-- The only selector of the term reads the datatype. -/
theorem selectsFrom_displacedRead (hD : D (.datatype n cs)) :
    SelectsFrom D (displacedRead n cs c k f dt sel s) := by
  intro dt' sel' s' d hd
  simp only [displacedRead, nodes_app, List.flatMap_cons, List.flatMap_nil, List.append_nil,
    List.map_cons, List.map_nil, List.mem_cons, Prod.mk.injEq, reduceCtorEq, false_and, false_or,
    List.mem_flatMap, sort_app, Op.resultSort, List.cons.injEq, and_true] at hd
  rcases hd with ⟨-, rfl⟩ | ⟨a, ha, hd⟩
  · exact hD
  · rcases List.mem_or_eq_of_mem_set ha with ha | rfl
    · obtain ⟨g, -, rfl⟩ := List.mem_map.1 ha
      simp at hd
    · revert hd
      cases f.sort <;> simp [zeroOf]

theorem tryEvalToConst_displacedRead (hk : fieldIndex sel = some k) (hf : c.fields[k]? = some f) :
    tryEvalToConst (displacedRead n cs c k f dt sel s) = some (zeroOf f.sort) := by
  have harg : ((c.fields.map fun g => Expr.var g.name g.sort).set k (zeroOf f.sort))[k]? =
      some (zeroOf f.sort) := by
    obtain ⟨hlt, -⟩ := List.getElem?_eq_some_iff.1 hf
    rw [List.getElem?_set_self (by simpa using hlt)]
  rw [tryEvalToConst_eq]
  simp [displacedRead, tryEvalToConstStep, tryEvalSelector, hk, harg, tryEvalToConst_zeroOf]

/-- A nonzero value of every sort that has one and is folded. -/
private noncomputable def oneOf : (s : SmtSort) → (default : Carriers).Dom s
  | .bool => true
  | .bitvec w => 1#w
  | _ => default

/-- Everything left open is one. -/
private noncomputable def onesTheory : Theory := ⟨default, fun _ _ s => oneOf s⟩

/-- Every variable is one. -/
private noncomputable def ones : onesTheory.Env := fun _ s => oneOf s

/-- A field that is not at the position is not the constant that is there. -/
private theorem eval_displacedRead (hc : cs.find? (·.name == c.name) = some c)
    (hf : c.fields[k]? = some f) (hfold : isFolded f.sort = true)
    (hws : (displacedRead n cs c k f dt sel s).WellSorted)
    (hidx : c.fields.findIdx? (·.name == sel) ≠ some k) :
    (displacedRead n cs c k f dt sel s).eval ones = ⟨s, oneOf s⟩ := by
  have hsorts := sorts_displaced hf hfold
  cases hj : c.fields.findIdx? (·.name == sel) with
  | some j =>
    -- the selected field is another argument, a variable
    obtain ⟨hlt, -⟩ := List.findIdx?_eq_some_iff_getElem.1 hj
    have hjk : k ≠ j := fun hjk => hidx (hjk ▸ hj)
    have harg : ((c.fields.map fun g => Expr.var g.name g.sort).set k (zeroOf f.sort))[j]? =
        some (.var (c.fields[j]).name (c.fields[j]).sort) := by
      rw [List.getElem?_set_ne hjk]
      simp [hlt]
    have hs : (c.fields[j]).sort = s := sort_of_selectedArg hws hc hsorts hj harg
    rw [displacedRead, eval_fieldSelect_constructor hc hsorts hj harg hs, eval_var, hs]
    rfl
  | none =>
    -- the constructor has no such field, and the theory decides
    rw [displacedRead, eval_app]
    simp only [List.map_cons, List.map_nil, Op.interp, selectField,
      destructVal_constructor hc hsorts, Option.bind_some, hj, Option.bind_none,
      Option.getD_none]
    rfl

private theorem oneOf_ne_zeroOf {f : SmtField} {s : SmtSort} (hfold : isFolded f.sort = true)
    (hne : ¬(f.sort = .bitvec 0 ∧ s = .bitvec 0)) :
    (⟨s, oneOf s⟩ : onesTheory.Val) ≠ (zeroOf f.sort).eval ones := by
  intro h
  have hs : s = f.sort := by
    rw [← sort_zeroOf hfold, ← eval_sort (zeroOf f.sort) ones, ← h]
  subst hs
  unfold isFolded at hfold
  split at hfold
  · rename_i hsort
    rw [hsort] at h
    have hone : true = false :=
      ofBool_inj.1 (h.trans (by simp [zeroOf, Op.interp] : _ = ofBool false))
    cases hone
  · rename_i w hsort
    rw [hsort] at h hne
    have hw : w ≠ 0 := fun hw => hne ⟨by rw [hw], by rw [hw]⟩
    have hone : (1#w) = 0#w :=
      ofBV_inj.1 (h.trans (by simp [zeroOf, Op.interp] : _ = ofBV 0#w))
    simp [hw] at hone
  · cases hfold

theorem not_evaluatesRight_displacedRead (hc : cs.find? (·.name == c.name) = some c)
    (hk : fieldIndex sel = some k) (hf : c.fields[k]? = some f) (hfold : isFolded f.sort = true)
    (hne : ¬(f.sort = .bitvec 0 ∧ s = .bitvec 0))
    (hws : (displacedRead n cs c k f dt sel s).WellSorted)
    (hidx : c.fields.findIdx? (·.name == sel) ≠ some k) :
    ¬EvaluatesRight (displacedRead n cs c k f dt sel s) := by
  intro h
  have heval := h.toConst _ (tryEvalToConst_displacedRead hk hf) onesTheory ones
  rw [eval_displacedRead hc hf hfold hws hidx] at heval
  exact oneOf_ne_zeroOf hfold hne heval

end Displaced

/-! ### When constant evaluation agrees with SMT-LIB -/

/-- **Constant evaluation agrees with SMT-LIB** on the terms over a family of datatypes
exactly when every datatype of the family is positional. -/
theorem evaluation_right_iff (D : SmtSort → Prop) :
    ((∀ e : Expr, e.WellSorted → SelectsFrom D e → EvaluatesRight e) ∧
        ∀ op a b, (Expr.app op [a, b]).WellSorted → FoldsRight op a b) ↔
      ∀ d, D d → Positional d := by
  constructor
  · rintro ⟨h, -⟩ d hd cs hcs c hc dt sel s hacc ⟨k, f, hk, hf, hfold, hne, hidx⟩
    obtain ⟨n, rfl⟩ := SmtSort.constructors_eq_some.1 hcs
    have hws := wellSorted_displacedRead hc hf hfold hacc
    exact not_evaluatesRight_displacedRead hc hk hf hfold hne hws hidx
      (h _ hws (selectsFrom_displacedRead hd))
  · intro hD
    refine ⟨fun e hws hfrom => evaluatesRight_of_positional hD hws hfrom, ?_⟩
    intro op a b hws c hc T ρ
    have hr : Rewrites (fun _ : T.Env => True) [] (.app op [a, b]) c :=
      (evalBvBinaryConst_sound hws hc).1
    exact (hr.eval ρ trivial).symm

/-- A pair whose fields are declared in the other order. -/
private abbrev swapped : SmtSort :=
  .datatype "Swapped" [.mk "Swapped" [.mk "fld_1" (.bitvec 8), .mk "fld_0" (.bitvec 8)]]

/-- `fld_0(Swapped(fld_1 := 1, fld_0 := 2))`. -/
def swappedRead : Expr :=
  (Expr.datatypeConstructor "Swapped" "Swapped" [.bitVecConst 1#8, .bitVecConst 2#8]
    swapped).fieldSelect "Swapped" "fld_0" (.bitvec 8)

/-- **The field at a position is read for the one of its name**: the value is 2. -/
theorem swappedRead_misread :
    swappedRead.WellSorted ∧ tryEvalToConst swappedRead = some (.bitVecConst 1#8) ∧
      ∃ ρ : (default : Theory).Env, swappedRead.eval ρ = ofBV 2#8 ∧
        swappedRead.eval ρ ≠ (Expr.bitVecConst 1#8).eval ρ := by
  have hvalue : ∀ ρ : (default : Theory).Env, swappedRead.eval ρ = ofBV 2#8 := fun ρ =>
    calc swappedRead.eval ρ
        = (Expr.bitVecConst 2#8).eval ρ := eval_fieldSelect_constructor rfl rfl rfl rfl rfl
      _ = ofBV 2#8 := by rw [eval_app, Op.interp]
  refine ⟨by simp [swappedRead, Op.accepts, Op.resultSort, SmtSort.constructors,
    SmtConstructor.hasField, SmtConstructor.name, SmtConstructor.fields, SmtField.name,
    SmtField.sort], by decide +kernel, fun _ _ => default, hvalue _, ?_⟩
  rw [hvalue, eval_app, Op.interp, ne_eq, ofBV_inj]
  decide

end ConstProp

end TrustMc
