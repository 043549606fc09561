import TrustMc.DirectSmt.Solve

/-!
# A crate and a solver

What the direct solver assumes can be had: `treeCrate` has the operations of the crate on terms
as trees, with the depth limit of the variable collector, and `exactSolver` answers every query
for a given class of theories.
-/

namespace TrustMc.DirectSmt

open Native Carriers Carriers.Val

/-! ### Variables down to a depth -/

mutual

/-- The variables of a term that lie less than `depth` levels below its root. -/
def varsTo (depth : ℕ) : ChcExpr → List ChcVar
  | .var v => if depth = 0 then [] else [v]
  | .op _ args | .predicateApp _ _ args | .funcApp _ _ args =>
    if depth = 0 then [] else varsToList (depth - 1) args
  | .constArray _ value => if depth = 0 then [] else varsTo (depth - 1) value
  | _ => []

/-- The variables of the terms that lie less than `depth` levels below. -/
def varsToList (depth : ℕ) : List ChcExpr → List ChcVar
  | [] => []
  | e :: es => varsTo depth e ++ varsToList depth es

end

theorem mem_varsToList {depth : ℕ} {v : ChcVar} {es : List ChcExpr} :
    v ∈ varsToList depth es ↔ ∃ e ∈ es, v ∈ varsTo depth e := by
  induction es with
  | nil => simp [varsToList]
  | cons e es ih => simp [varsToList, ih]

theorem shallowList_iff {depth : ℕ} {es : List ChcExpr} :
    shallowList depth es = true ↔ ∀ e ∈ es, shallow depth e = true := by
  induction es with
  | nil => simp [shallowList]
  | cons e es ih => simp [shallowList, ih]

/-- Only variables of the term are collected. -/
theorem mem_vars_of_varsTo {v : ChcVar} {e : ChcExpr} {depth : ℕ} (h : v ∈ varsTo depth e) :
    v ∈ e.vars := by
  have hargs : ∀ {args : List ChcExpr} {depth : ℕ},
      (∀ a ∈ args, ∀ {depth : ℕ}, v ∈ varsTo depth a → v ∈ a.vars) →
      v ∈ (if depth = 0 then [] else varsToList (depth - 1) args) →
      v ∈ ChcExpr.varsList args := fun {args depth} ih h => by
    split_ifs at h
    · exact absurd h List.not_mem_nil
    · obtain ⟨a, ha, hv⟩ := mem_varsToList.1 h
      exact ChcExpr.mem_varsList.2 ⟨a, ha, ih a ha hv⟩
  induction e generalizing depth with
  | var w =>
    rw [varsTo] at h
    split_ifs at h
    · exact absurd h List.not_mem_nil
    · exact h
  | op o args ih => exact hargs ih h
  | predicateApp name id args ih => exact hargs ih h
  | funcApp name sort args ih => exact hargs ih h
  | constArray sort value ih =>
    rw [varsTo] at h
    split_ifs at h
    · exact absurd h List.not_mem_nil
    · exact ih h
  | bool _ | int _ | real _ _ | bitVec _ _ | constArrayMarker _ | isTesterMarker _
  | unrecognized => exact absurd h List.not_mem_nil

/-- Of a shallow term all variables are collected. -/
theorem varsTo_of_shallow {v : ChcVar} {e : ChcExpr} {depth : ℕ} (hs : shallow depth e = true)
    (h : v ∈ e.vars) : v ∈ varsTo depth e := by
  have hargs : ∀ {args : List ChcExpr} {depth : ℕ},
      (∀ a ∈ args, ∀ {depth : ℕ}, shallow depth a = true → v ∈ a.vars → v ∈ varsTo depth a) →
      (decide (0 < depth) && shallowList (depth - 1) args) = true →
      v ∈ ChcExpr.varsList args →
      v ∈ if depth = 0 then [] else varsToList (depth - 1) args := fun {args depth} ih hs h => by
    obtain ⟨hpos, hs⟩ := Bool.and_eq_true_iff.1 hs
    rw [if_neg (Nat.pos_iff_ne_zero.1 (of_decide_eq_true hpos))]
    obtain ⟨a, ha, hv⟩ := ChcExpr.mem_varsList.1 h
    exact mem_varsToList.2 ⟨a, ha, ih a ha (shallowList_iff.1 hs a ha) hv⟩
  induction e generalizing depth with
  | var w =>
    rw [varsTo, if_neg (Nat.pos_iff_ne_zero.1 (of_decide_eq_true hs))]
    exact h
  | op o args ih => exact hargs ih hs h
  | predicateApp name id args ih => exact hargs ih hs h
  | funcApp name sort args ih => exact hargs ih hs h
  | constArray sort value ih =>
    rw [shallow, Bool.and_eq_true] at hs
    rw [varsTo, if_neg (Nat.pos_iff_ne_zero.1 (of_decide_eq_true hs.1))]
    exact ih hs.2 h
  | bool _ | int _ | real _ _ | bitVec _ _ | constArrayMarker _ | isTesterMarker _
  | unrecognized => exact absurd h List.not_mem_nil

/-! ### Conjunctions -/

/-- A conjunction of some terms. -/
def andTerm : List ChcExpr → ChcExpr
  | [] => .bool true
  | [e] => e
  | es => .op .and es

mutual

/-- The conjuncts of a term, through nested conjunctions. -/
def topConjuncts : ChcExpr → List ChcExpr
  | .op .and args => topConjunctsList args
  | e => [e]

/-- The conjuncts of the terms. -/
def topConjunctsList : List ChcExpr → List ChcExpr
  | [] => []
  | e :: es => topConjuncts e ++ topConjunctsList es

end

section Holds

variable {T : Theory} {ρ : ChcEnv T}

theorem holds_and {args : List ChcExpr} :
    (ChcExpr.op .and args).Holds ρ ↔ ∀ e ∈ args, e.Holds ρ := by
  simp [ChcExpr.Holds, ChcOp.interp, Op.interp]

theorem holds_eq {a b : ChcExpr} :
    (ChcExpr.op .eq [a, b]).Holds ρ ↔ a.eval ρ = b.eval ρ := by
  simp [ChcExpr.Holds, ChcOp.interp, Op.interp]

theorem holds_or {args : List ChcExpr} :
    (ChcExpr.op .or args).Holds ρ ↔ ∃ e ∈ args, e.Holds ρ := by
  simp [ChcExpr.Holds, ChcOp.interp, Op.interp]

theorem holds_not {e : ChcExpr} : (ChcExpr.op .not [e]).Holds ρ ↔ ¬ e.Holds ρ := by
  simp [ChcExpr.Holds, ChcOp.interp, Op.interp]

theorem holds_andTerm (es : List ChcExpr) :
    (andTerm es).Holds ρ ↔ ∀ e ∈ es, e.Holds ρ := by
  match es with
  | [] => simp [andTerm, ChcExpr.Holds, ChcExpr.eval]
  | [e] => simp [andTerm]
  | _ :: _ :: _ => exact holds_and

mutual

theorem holds_topConjuncts :
    ∀ e : ChcExpr, (∀ c ∈ topConjuncts e, c.Holds ρ) ↔ e.Holds ρ
  | .op o args => by
    by_cases ho : o = .and
    · subst ho
      rw [topConjuncts, holds_and]
      exact holds_topConjunctsList args
    · have hsingle : topConjuncts (.op o args) = [.op o args] := by
        cases o <;> first | rfl | exact absurd rfl ho
      simp [hsingle]
  | .bool _ | .int _ | .real _ _ | .bitVec _ _ | .var _ | .predicateApp _ _ _
  | .funcApp _ _ _ | .constArrayMarker _ | .isTesterMarker _ | .constArray _ _
  | .unrecognized => by simp [topConjuncts]

theorem holds_topConjunctsList : ∀ es : List ChcExpr,
    (∀ c ∈ topConjunctsList es, c.Holds ρ) ↔ ∀ e ∈ es, e.Holds ρ
  | [] => by simp [topConjunctsList]
  | e :: es => by
    rw [topConjunctsList, List.forall_mem_append, List.forall_mem_cons, holds_topConjuncts e,
      holds_topConjunctsList es]

end

end Holds

/-! ### The crate -/

/-- The sort of a term as it is displayed. -/
def sortText : ChcSort → String
  | .bool => "Bool"
  | .int => "Int"
  | .real => "Real"
  | .bitVec width => "(_ BitVec " ++ toString width ++ ")"
  | .array index element => "(Array " ++ sortText index ++ " " ++ sortText element ++ ")"
  | .uninterpreted name => name
  | .datatype name _ => name

/-- The operations on terms as trees. -/
def treeCrate : ExprCrate where
  vars e := (varsTo ayChcSubstitutionMaxDepth e).dedup
  clauseVars c := (varsToList ayChcSubstitutionMaxDepth (terms c)).dedup
  substitute e σ := e.subst σ
  distinctNodes e := e.nodes
  eq a b := .op .eq [a, b]
  ge a b := .op .ge [a, b]
  le a b := .op .le [a, b]
  andAll := andTerm
  conjuncts := topConjuncts
  dependencyEdges problem := problem.clauses.flatMap fun c =>
    match c.head with
    | .predicate id _ => c.body.predicates.map fun app => (app.1, id)
    | _ => []
  sortText := sortText

theorem treeCrate_lawful : treeCrate.Lawful where
  vars_subset e v hv := mem_vars_of_varsTo (List.mem_dedup.1 hv)
  mem_clauseVars c hfits v := by
    rw [mem_vars_iff]
    refine List.mem_dedup.trans (mem_varsToList.trans (exists_congr fun e =>
      and_congr_right fun he => ⟨mem_vars_of_varsTo, varsTo_of_shallow ?_⟩))
    have hterm := fits_of_mem_terms hfits he
    rw [exprFitsAlphaSubstitutionLimits, exprFitsAlphaSubstitutionLimitsWith] at hterm
    split_ifs at hterm
    exact (Bool.and_eq_true_iff.1 hterm).1
  substitute_eq _ _ _ := rfl
  holds_eq _ _ _ := holds_eq
  eval_ge _ _ _ := rfl
  eval_le _ _ _ := rfl
  holds_andAll _ es := holds_andTerm es
  holds_conjuncts _ e := holds_topConjuncts e
  vars_eq a b v hv := by
    simpa [treeCrate, ChcExpr.vars, ChcExpr.varsList] using hv
  vars_andAll es v hv := by
    rcases es with _ | ⟨e, _ | ⟨e', es⟩⟩
    · exact absurd hv List.not_mem_nil
    · exact ⟨e, by simp, hv⟩
    · exact ChcExpr.mem_varsList.1 hv
  mem_dependencyEdges problem p q := by
    simp only [treeCrate, List.mem_flatMap]
    refine exists_congr fun c => and_congr_right fun _ => ?_
    cases hhead : c.head with
    | predicate id args =>
      simp only [List.mem_map, Prod.mk.injEq]
      constructor
      · rintro ⟨app, happ, rfl, rfl⟩
        exact ⟨⟨app, happ, rfl⟩, args, rfl⟩
      · rintro ⟨⟨app, happ, rfl⟩, args', heq⟩
        exact ⟨app, happ, rfl, (ClauseHead.predicate.inj heq).1⟩
    | «false» | unrecognized => simp

/-- The larger one of a square and its root, with a variable that has the first new name: two
new variables, of which one is for a part of the other's term. -/
theorem abstraction_only_adds_models_square :
    ∃ ρ' : ChcEnv (default : Theory),
      ∀ c ∈ abstractWideNonlinear treeCrate
        (let x := ChcExpr.var ⟨"__abs_wide_0", .int⟩
        let square := ChcExpr.op .mul [x, x]
        let larger := ChcExpr.op .ite [.op .ge [square, x], square, x]
        [.op .eq [larger, larger]]), c.Holds ρ' := by
  obtain ⟨ρ', -, hρ'⟩ := (abstraction_only_adds_models treeCrate_lawful default _).1
    (fun _ => Inhabited.default) (List.forall_mem_singleton.2 (holds_eq.2 rfl))
  exact ⟨ρ', hρ'⟩

/-! ### The solver -/

open Classical in
/-- The solver that answers every query for the given theories. -/
noncomputable def exactSolver (𝓜 : Set Theory) : Solver where
  State := Unit
  makeSmtContext _ := ()
  reset s := s
  checkSatWithTimeout _ e _ :=
    (if ∃ T ∈ 𝓜, ∃ ρ : ChcEnv T, e.Holds ρ then .sat [] else .unsat, ())
  now _ := 0
  slicingDisabled := false

theorem exactSolver_right (𝓜 : Set Theory) : (exactSolver 𝓜).Right 𝓜 where
  sat _ e _ h := by
    by_contra hno
    simp [exactSolver, hno, classifySmtResult, SmtResult.model, SmtResult.isUnsat] at h
  unsat _ e _ h T hT ρ hρ := by
    have hex : ∃ T ∈ 𝓜, ∃ ρ : ChcEnv T, e.Holds ρ := ⟨T, hT, ρ, hρ⟩
    simp [exactSolver, hex, classifySmtResult, SmtResult.model] at h

theorem exactSolver_neverUnknown (𝓜 : Set Theory) : (exactSolver 𝓜).NeverUnknown := by
  intro _ e _
  by_cases hex : ∃ T ∈ 𝓜, ∃ ρ : ChcEnv T, e.Holds ρ
  · simp [exactSolver, hex, classifySmtResult, SmtResult.model]
  · simp [exactSolver, hex, classifySmtResult, SmtResult.model, SmtResult.isUnsat]

end TrustMc.DirectSmt
