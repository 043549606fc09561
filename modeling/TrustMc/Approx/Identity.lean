import TrustMc.Budget.Fixpoint
import TrustMc.Core.Vc

/-!
# Approximation identities

An over-approximation frees a variable; a violated property may be certified all the same when
nothing the property depends on reads a freed value. `finalizeApproximationIdentity` decides
this by names: the freed names and the names they are copied into by definitions
`X__out = rhs` are **tainted** (`taintClosure`), and a property depends on the approximation
when a constraint that is no definition reads a tainted name, in a rule that can contribute to
its relation (`propertyReadsTainted`).

A variable and its `__out` form count as one name (`normalizeApproxVar`).
-/

namespace TrustMc

namespace Approx

open Budget

/-! ### Names -/

/-- `name.ends_with("__out")`. -/
def endsWithOut (name : String) : Bool := decide ("__out".toList <:+ name.toList)

/-- `normalize_approx_var`. -/
def normalizeApproxVar (name : String) : String :=
  if endsWithOut name then String.ofList (name.toList.take (name.toList.length - 5)) else name

/-- `collect_var_names`. -/
def collectVarNames (e : Expr) : List String := e.varNames.map normalizeApproxVar

/-- `expr_reads_tainted`. -/
def exprReadsTainted (e : Expr) (tainted : List String) : Bool :=
  e.varNames.any fun name => decide (normalizeApproxVar name ∈ tainted)

/-- `definition_lhs_and_rhs_vars`. -/
def definitionLhsAndRhsVars : Expr → Option (String × List String)
  | .eq (.var name _) rhs =>
    if endsWithOut name then some (normalizeApproxVar name, collectVarNames rhs) else none
  | _ => none

/-- `is_definition_constraint`. -/
def isDefinitionConstraint : Expr → Bool
  | .eq (.var name _) _ => endsWithOut name
  | _ => false

/-! ### Verification conditions with approximations -/

/-- What the analysis reads and writes of a `ChcProperty`. -/
structure ChcProperty where
  /-- The property's error relation. -/
  relation : String
  /-- Whether the property depends on a freed variable, when the analysis was run. -/
  approximationDependent : Option Bool
  deriving DecidableEq

/-- A verification condition with the fields of the approximation analysis. -/
structure ApproximatedVc extends ChcVc where
  /-- The registered properties. -/
  properties : List ChcProperty
  /-- The normalized names of the freed variables. -/
  approximatedVars : List String
  /-- The number of approximations that recorded what they freed. -/
  accountedApproximations : ℕ
  /-- Whether every approximation recorded what it freed. -/
  approximationIdentityComplete : Bool

/-! ### Taint -/

/-- The constraints of a list of rules. -/
def allConstraints (rules : List Rule) : List Expr := rules.flatMap fun r => r.body.constraints

/-- One constraint of the taint loop. -/
def taintStep (tainted : List String) (constraint : Expr) : List String :=
  match definitionLhsAndRhsVars constraint with
  | some (lhs, rhsVars) =>
    if (∃ v ∈ rhsVars, v ∈ tainted) ∧ lhs ∉ tainted then tainted ++ [lhs] else tainted
  | none => tainted

/-- One round of the taint loop. -/
def taintRound (rules : List Rule) (tainted : List String) : List String :=
  (allConstraints rules).foldl taintStep tainted

/-- The tainted names; every round but the last taints the left-hand side of a definition. -/
def taintClosure (rules : List Rule) (approximatedVars : List String) : List String :=
  if approximatedVars.isEmpty then []
  else untilStable (taintRound rules) (allConstraints rules).length approximatedVars

/-! ### Contributing relations -/

/-- One rule of the reachability loop. -/
def reachStep (reachable : List String) (rule : Rule) : List String :=
  match rule.body.relation with
  | some bodyRel =>
    if rule.head.name ∈ reachable ∧ bodyRel.name ∉ reachable then reachable ++ [bodyRel.name]
    else reachable
  | none => reachable

/-- One round of the reachability loop. -/
def reachRound (rules : List Rule) (reachable : List String) : List String :=
  rules.foldl reachStep reachable

/-- The relations that can contribute to deriving `target`; every round but the last finds the
body relation of a rule. -/
def contributing (rules : List Rule) (target : String) : List String :=
  untilStable (reachRound rules) rules.length [target]

/-- `property_reads_tainted`. -/
def propertyReadsTainted (rules : List Rule) (target : String) (tainted : List String) : Bool :=
  !tainted.isEmpty &&
    (rules.filter fun rule => decide (rule.head.name ∈ contributing rules target)).any fun rule =>
      (rule.body.constraints.filter fun c => !isDefinitionConstraint c).any
        (exprReadsTainted · tainted)

/-- `finalize_approximation_identity`. -/
def finalizeApproximationIdentity (vc : ApproximatedVc) (totalSoundApproximations : ℕ) :
    ApproximatedVc :=
  let tainted := taintClosure vc.rules vc.approximatedVars
  { vc with
    approximationIdentityComplete := decide (totalSoundApproximations ≤ vc.accountedApproximations)
    properties := vc.properties.map fun prop =>
      { prop with
        approximationDependent := some (propertyReadsTainted vc.rules prop.relation tainted) } }

/-! ### What the loops reach -/

section Closure

variable {rules : List Rule} {tainted : List String}

/-- The left-hand sides that can become tainted. -/
def definedNames (rules : List Rule) : List String :=
  (allConstraints rules).filterMap fun c => (definitionLhsAndRhsVars c).map Prod.fst

private theorem grows_taintStep {c : Expr} (hc : c ∈ allConstraints rules)
    (tainted : List String) : Grows (definedNames rules) tainted (taintStep tainted c) := by
  unfold taintStep
  split
  · rename_i lhs rhsVars hdef
    split
    · rename_i h
      exact .insert (List.mem_filterMap.2 ⟨c, hc, by simp [hdef]⟩) h.2
    · exact .refl _ _
  · exact .refl _ _

private theorem grows_taintRound (rules : List Rule) (tainted : List String) :
    Grows (definedNames rules) tainted (taintRound rules tainted) :=
  Grows.foldl (fun _ hc => grows_taintStep hc) tainted

/-- The freed names are tainted. -/
theorem subset_taintClosure (rules : List Rule) (approximatedVars : List String) :
    approximatedVars ⊆ taintClosure rules approximatedVars := by
  unfold taintClosure
  split
  · rename_i h
    rw [List.isEmpty_iff.1 h]
    exact List.Subset.refl []
  · exact subset_untilStable (grows_taintRound rules) _ _

/-- A list of names that a round does not change is closed under definitions. -/
private theorem closed_of_taintRound (h : taintRound rules tainted = tainted) {c : Expr}
    (hc : c ∈ allConstraints rules) {lhs : String} {rhsVars : List String}
    (hdef : definitionLhsAndRhsVars c = some (lhs, rhsVars)) {v : String} (hv : v ∈ rhsVars)
    (hvt : v ∈ tainted) : lhs ∈ tainted := by
  have hstep := Grows.foldl_eq_self (fun _ hc => grows_taintStep hc) h hc
  unfold taintStep at hstep
  simp only [hdef] at hstep
  by_contra hlhs
  rw [if_pos ⟨⟨v, hv, hvt⟩, hlhs⟩] at hstep
  simp at hstep

/-- **Taint follows definitions**: what is defined from a tainted name is tainted. -/
theorem mem_taintClosure_of_definition {approximatedVars : List String} {c : Expr}
    (hc : c ∈ allConstraints rules) {lhs : String} {rhsVars : List String}
    (hdef : definitionLhsAndRhsVars c = some (lhs, rhsVars)) {v : String} (hv : v ∈ rhsVars)
    (hvt : v ∈ taintClosure rules approximatedVars) :
    lhs ∈ taintClosure rules approximatedVars := by
  unfold taintClosure at hvt ⊢
  split
  · rename_i h
    simp [h] at hvt
  · rename_i h
    rw [if_neg h] at hvt
    have hstable := untilStable_stable_of_grows (grows_taintRound rules)
      (List.length_filterMap_le _ _) approximatedVars
    exact closed_of_taintRound hstable hc hdef hv hvt

private theorem grows_reachStep {rule : Rule} (hr : rule ∈ rules) (reachable : List String) :
    Grows (rules.filterMap fun r => r.body.relation.map RelationApp.name) reachable
      (reachStep reachable rule) := by
  unfold reachStep
  split
  · rename_i bodyRel hrel
    split
    · rename_i h
      exact .insert (List.mem_filterMap.2 ⟨rule, hr, by simp [hrel]⟩) h.2
    · exact .refl _ _
  · exact .refl _ _

private theorem grows_reachRound (rules : List Rule) (reachable : List String) :
    Grows (rules.filterMap fun r => r.body.relation.map RelationApp.name) reachable
      (reachRound rules reachable) :=
  Grows.foldl (fun _ hr => grows_reachStep hr) reachable

theorem target_mem_contributing (rules : List Rule) (target : String) :
    target ∈ contributing rules target :=
  subset_untilStable (grows_reachRound rules) _ _ List.mem_cons_self

/-- **The contributing relations are closed backwards** along the rules. -/
theorem mem_contributing_of_rule {target : String} {rule : Rule} (hr : rule ∈ rules)
    {bodyRel : RelationApp} (hrel : rule.body.relation = some bodyRel)
    (hhead : rule.head.name ∈ contributing rules target) :
    bodyRel.name ∈ contributing rules target := by
  have hstable := untilStable_stable_of_grows (grows_reachRound rules)
    (List.length_filterMap_le _ _) [target]
  have hstep := Grows.foldl_eq_self (fun _ hr => grows_reachStep hr) hstable hr
  unfold reachStep at hstep
  simp only [hrel] at hstep
  by_contra hbody
  rw [if_pos ⟨hhead, hbody⟩] at hstep
  simp at hstep

end Closure

end Approx

end TrustMc
