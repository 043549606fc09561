import TrustMc.Native.Semantics

/-!
# What the lane uses of the solver crate

The direct-SMT lane composes clauses of a `ChcProblem` into formulas. It builds and inspects
terms with the crate's operations, which are collected in `ExprCrate`; `ExprCrate.Lawful` is
what it relies on.

* The crate traverses a term to a limited depth only: `vars` leaves out the variables below, and
  `substitute` may leave them in place. So the lane first scans the shape of a clause
  (`clauseFitsAlphaSubstitutionLimits`); the laws for `clauseVars` and `substitute` are for the
  clauses that pass.
* The term formers keep the meaning and add no variables.
-/

namespace TrustMc.DirectSmt

open Native

/-- The operations of the crate on terms, clauses and problems. -/
structure ExprCrate where
  /-- `ChcExpr::vars`: the variables down to the crate's depth limit. -/
  vars : ChcExpr → List ChcVar
  /-- `HornClause::vars`. -/
  clauseVars : HornClause → List ChcVar
  /-- `ChcExpr::substitute`. -/
  substitute : ChcExpr → List (ChcVar × ChcExpr) → ChcExpr
  /-- The number of allocations of a term, whose parts may be shared. -/
  distinctNodes : ChcExpr → ℕ
  /-- `ChcExpr::eq`. -/
  eq : ChcExpr → ChcExpr → ChcExpr
  /-- `ChcExpr::ge`. -/
  ge : ChcExpr → ChcExpr → ChcExpr
  /-- `ChcExpr::le`. -/
  le : ChcExpr → ChcExpr → ChcExpr
  /-- `ChcExpr::and_all`. -/
  andAll : List ChcExpr → ChcExpr
  /-- `ChcExpr::conjuncts`. -/
  conjuncts : ChcExpr → List ChcExpr
  /-- `dependency_edges`: from each body predicate to the head predicate. -/
  dependencyEdges : ChcProblem → List (ℕ × ℕ)
  /-- How a sort is displayed. -/
  sortText : ChcSort → String

/-! ### The shape of clauses -/

/-- `AY_CHC_SUBSTITUTION_MAX_DEPTH`. -/
def ayChcSubstitutionMaxDepth : ℕ := 500

/-- `AY_CHC_SUBSTITUTION_MAX_DISTINCT_NODES`. -/
def ayChcSubstitutionMaxDistinctNodes : ℕ := 1000000

mutual

/-- Every node of the term lies less than `depth` levels below its root and has a known
shape. -/
def shallow (depth : ℕ) : ChcExpr → Bool
  | .op _ args | .predicateApp _ _ args | .funcApp _ _ args =>
    decide (0 < depth) && shallowList (depth - 1) args
  | .constArray _ value => decide (0 < depth) && shallow (depth - 1) value
  | .unrecognized => false
  | _ => decide (0 < depth)

/-- Every node of the terms lies less than `depth` levels below and has a known shape. -/
def shallowList (depth : ℕ) : List ChcExpr → Bool
  | [] => true
  | e :: es => shallow depth e && shallowList depth es

end

section Shape

variable (crate : ExprCrate)

/-- `expr_fits_alpha_substitution_limits_with`: the scan along every path of a term, which
counts its allocations. -/
def exprFitsAlphaSubstitutionLimitsWith (e : ChcExpr) (maxDepth maxDistinctNodes : ℕ) : Bool :=
  if maxDepth = 0 ∨ maxDistinctNodes = 0 then false
  else shallow maxDepth e && decide (crate.distinctNodes e ≤ maxDistinctNodes)

/-- `expr_fits_alpha_substitution_limits`. -/
def exprFitsAlphaSubstitutionLimits (e : ChcExpr) : Bool :=
  exprFitsAlphaSubstitutionLimitsWith crate e ayChcSubstitutionMaxDepth
    ayChcSubstitutionMaxDistinctNodes

/-- `clause_fits_alpha_substitution_limits`. -/
def clauseFitsAlphaSubstitutionLimits (clause : HornClause) : Bool :=
  clause.body.predicates.all (fun app => app.2.all (exprFitsAlphaSubstitutionLimits crate)) &&
    clause.body.constraint.all (exprFitsAlphaSubstitutionLimits crate) &&
    match clause.head with
    | .predicate _ args => args.all (exprFitsAlphaSubstitutionLimits crate)
    | .false => true
    | .unrecognized => false

end Shape

/-- The terms of a clause: its constraint, the arguments of its body and those of its head. -/
def terms (clause : HornClause) : List ChcExpr :=
  clause.body.constraint.toList ++ clause.bodyArgs ++ clause.head.args

theorem mem_vars_iff {clause : HornClause} {v : ChcVar} :
    v ∈ clause.vars ↔ ∃ e ∈ terms clause, v ∈ e.vars :=
  ChcExpr.mem_varsList

/-- The terms of a clause that fits fit. -/
theorem fits_of_mem_terms {crate : ExprCrate} {clause : HornClause}
    (h : clauseFitsAlphaSubstitutionLimits crate clause = true) {e : ChcExpr}
    (he : e ∈ terms clause) : exprFitsAlphaSubstitutionLimits crate e = true := by
  simp only [clauseFitsAlphaSubstitutionLimits, Bool.and_eq_true, List.all_eq_true,
    Option.all_eq_true] at h
  obtain ⟨⟨hbody, hconstraint⟩, hhead⟩ := h
  simp only [terms, HornClause.bodyArgs, List.mem_append, Option.mem_toList,
    List.mem_flatMap] at he
  rcases he with (he | ⟨app, happ, he⟩) | he
  · exact hconstraint e he
  · exact hbody app happ e he
  · cases hh : clause.head with
    | predicate id args =>
      rw [hh] at hhead he
      exact List.all_eq_true.1 hhead e he
    | «false» | unrecognized =>
      rw [hh] at he
      exact absurd he List.not_mem_nil

/-! ### Laws -/

/-- What the lane relies on. -/
structure ExprCrate.Lawful (crate : ExprCrate) : Prop where
  /-- Only variables of the term are listed. -/
  vars_subset : ∀ e, ∀ v ∈ crate.vars e, v ∈ e.vars
  /-- Within the limits the variables of a clause are listed. -/
  mem_clauseVars : ∀ c, clauseFitsAlphaSubstitutionLimits crate c = true →
    ∀ v, v ∈ crate.clauseVars c ↔ v ∈ c.vars
  /-- Within the limits every variable is replaced. -/
  substitute_eq : ∀ e σ, exprFitsAlphaSubstitutionLimits crate e = true →
    crate.substitute e σ = e.subst σ
  /-- An equality holds when its sides have one value. -/
  holds_eq : ∀ {T : Theory} (ρ : ChcEnv T) a b,
    (crate.eq a b).Holds ρ ↔ a.eval ρ = b.eval ρ
  /-- `ge` has the value of the comparison. -/
  eval_ge : ∀ {T : Theory} (ρ : ChcEnv T) a b,
    (crate.ge a b).eval ρ = (ChcExpr.op .ge [a, b]).eval ρ
  /-- `le` has the value of the comparison. -/
  eval_le : ∀ {T : Theory} (ρ : ChcEnv T) a b,
    (crate.le a b).eval ρ = (ChcExpr.op .le [a, b]).eval ρ
  /-- A conjunction holds when its parts do. -/
  holds_andAll : ∀ {T : Theory} (ρ : ChcEnv T) es,
    (crate.andAll es).Holds ρ ↔ ∀ e ∈ es, e.Holds ρ
  /-- A formula holds when its conjuncts do. -/
  holds_conjuncts : ∀ {T : Theory} (ρ : ChcEnv T) e,
    (∀ c ∈ crate.conjuncts e, c.Holds ρ) ↔ e.Holds ρ
  /-- An equality has the variables of its sides. -/
  vars_eq : ∀ a b, ∀ v ∈ (crate.eq a b).vars, v ∈ a.vars ∨ v ∈ b.vars
  /-- A conjunction has the variables of its parts. -/
  vars_andAll : ∀ es, ∀ v ∈ (crate.andAll es).vars, ∃ e ∈ es, v ∈ e.vars
  /-- The edges are those of the clauses. -/
  mem_dependencyEdges : ∀ problem p q, (p, q) ∈ crate.dependencyEdges problem ↔
    ∃ c ∈ problem.clauses, p ∈ c.body.predicates.map Prod.fst ∧ ∃ args, c.head = .predicate q args

end TrustMc.DirectSmt
