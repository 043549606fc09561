import Mathlib
import TrustMc.Budget.Fixpoint
import TrustMc.ConstProp.Propagate
import TrustMc.Relations.Arity

/-!
# Carrying scalarized lanes

`carryRhsScalarizedLanes` adds to relations the lanes that a rule reads and that its body
relation does not carry: a lane `x` becomes a column, which a body application gives `x` and a
head `x__out`, or `x` if the constraints of the rule do not mention `x__out`. A relation gets a
lane if

* a rule over it reads the lane, or hands it on to a relation that gets it;
* every rule that concludes the relation has a value for it;
* no two constants are equated with the lane.
-/

namespace TrustMc

namespace Scalarize

open Relations

/-! ### Lanes -/

/-- The name contains the pattern. -/
def nameContains (name pattern : String) : Bool := decide (pattern.toList <:+: name.toList)

/-- `collect_var_sorts`: declared sorts, and those of the first uses of other names. -/
def varSorts (vc : ChcVc) (name : String) : Option SmtSort :=
  let used := vc.rules.flatMap fun rule =>
    (rule.head.args ++ (rule.body.relation.map RelationApp.args).getD [] ++
      rule.body.constraints).flatMap stackVars
  ((vc.vars.reverse.find? (·.1 == name)).or (used.find? (·.1 == name))).map Prod.snd

/-- The name of a lane after the step. -/
def outputLane (lane : String) : String := lane ++ "__out"

section Lanes

variable (sorts : String → Option SmtSort)

/-- `is_scalarized_lane_var`. -/
def isScalarizedLaneVar (name : String) : Bool :=
  nameContains name "_at_0x" && nameContains name "_bv" && (sorts name).any fun s => !s.isArray

/-- `normalize_lane_name`. -/
def normalizeLaneName (name : String) : Option String :=
  if isScalarizedLaneVar sorts name then some name
  else (ConstProp.stripOutSuffix name).filter (isScalarizedLaneVar sorts)

/-- `collect_relation_app_lanes`. -/
def appLanes (app : RelationApp) : List (String × String) :=
  app.args.filterMap fun arg =>
    match arg with
    | .var name _ => (normalizeLaneName sorts name).map fun lane => (app.name, lane)
    | _ => none

/-- `collect_carried_lanes`: the lanes that relations have already. -/
def carriedLanes (vc : ChcVc) : List (String × String) :=
  vc.rules.flatMap fun rule =>
    appLanes sorts rule.head ++ (rule.body.relation.map (appLanes sorts)).getD []

/-- `collect_input_lane_vars`: the lanes that the constraints of a rule read, sorted. -/
def constraintLanes (rule : Rule) : List String :=
  ((rule.body.constraints.flatMap Expr.varNames).filter fun name =>
    !"__out".toList.isSuffixOf name.toList && isScalarizedLaneVar sorts name).dedup.insertionSort
      (· ≤ ·)

end Lanes

/-- `constraints_mention_var`. -/
def constraintsMentionVar (constraints : List Expr) (name : String) : Bool :=
  constraints.any fun c => c.varNames.contains name

/-! ### The lanes that relations get -/

section Required

variable (vc : ChcVc)

/-- `require_lane`. -/
def requireLane (required : List (String × String)) (relation lane : String) :
    List (String × String) :=
  if (relation, lane) ∈ carriedLanes (varSorts vc) vc ∨ varSorts vc lane = none ∨
      (relation, lane) ∈ required then required
  else required ++ [(relation, lane)]

/-- The lanes that rules read. -/
def readLanes : List (String × String) :=
  vc.rules.foldl (fun required rule =>
    match rule.body.relation with
    | none => required
    | some app => (constraintLanes (varSorts vc) rule).foldl (requireLane vc · app.name ·) required)
    []

/-- One round of `propagate_required_lanes`: what a head gets and the rule has no new value for,
the body relation gets. -/
def propagateRound (required : List (String × String)) : List (String × String) :=
  vc.rules.foldl (fun required' rule =>
    ((required.filter (·.1 == rule.head.name)).map Prod.snd).foldl (fun required' lane =>
      if constraintsMentionVar rule.body.constraints (outputLane lane) then required'
      else
        match rule.body.relation with
        | none => required'
        | some app => requireLane vc required' app.name lane) required') required

/-- `propagate_required_lanes`. -/
def propagateRequiredLanes (required : List (String × String)) : List (String × String) :=
  Budget.untilStable (propagateRound vc) (vc.rules.length * required.length) required

/-- `relation_lane_is_grounded`: every rule that concludes the relation has a value for the
lane. -/
def relationLaneIsGrounded (required grounded : List (String × String))
    (key : String × String) : Bool :=
  let producers := vc.rules.filter (·.head.name == key.1)
  !producers.isEmpty && producers.all fun rule =>
    constraintsMentionVar rule.body.constraints (outputLane key.2) ||
      rule.body.relation.any fun app =>
        decide ((app.name, key.2) ∈ carriedLanes (varSorts vc) vc) ||
          (decide ((app.name, key.2) ∈ required) && decide ((app.name, key.2) ∈ grounded))

/-- One round of `retain_grounded_lanes`. -/
def groundRound (required grounded : List (String × String)) : List (String × String) :=
  required.foldl (fun grounded key =>
    if key ∈ grounded then grounded
    else if relationLaneIsGrounded vc required grounded key then grounded ++ [key]
    else grounded) grounded

/-- `retain_grounded_lanes`. -/
def retainGroundedLanes (required : List (String × String)) : List (String × String) :=
  let grounded := Budget.untilStable (groundRound vc required) required.length []
  required.filter (· ∈ grounded)

/-! The rounds reach a fixed point. -/

section Rounds

open Budget

variable {vc}

/-- A round asks for lanes that some relation gets already, of relations that have rules. -/
theorem grows_propagateRound {lanes : List String} {required : List (String × String)}
    (h : ∀ p ∈ required, p.2 ∈ lanes) :
    Grows ((vc.rules.filterMap fun r => r.body.relation.map RelationApp.name) ×ˢ lanes)
      required (propagateRound vc required) := by
  refine Grows.foldl (fun rule hrule required' => Grows.foldl (fun lane hlane required' => ?_) _) _
  have hmem : lane ∈ lanes := by
    obtain ⟨p, hp, rfl⟩ := List.mem_map.1 hlane
    exact h p (List.mem_filter.1 hp).1
  split_ifs
  · exact .refl _ _
  · cases hrel : rule.body.relation with
    | none => exact .refl _ _
    | some app =>
      dsimp only
      rw [requireLane]
      split_ifs with hreq
      · exact .refl _ _
      · refine .insert ?_ fun hin => hreq (Or.inr (Or.inr hin))
        exact List.pair_mem_product.2 ⟨List.mem_filterMap.2 ⟨rule, hrule, by simp [hrel]⟩, hmem⟩

theorem propagateRequiredLanes_stable (required : List (String × String)) :
    propagateRound vc (propagateRequiredLanes vc required) =
      propagateRequiredLanes vc required := by
  have hkeep : ∀ a : List (String × String), (∀ p ∈ a, p.2 ∈ required.map Prod.snd) →
      ∀ p ∈ propagateRound vc a, p.2 ∈ required.map Prod.snd := by
    intro a ha p hp
    obtain ⟨new, hnew, hcand⟩ := grows_propagateRound ha
    rw [hnew] at hp
    rcases List.mem_append.1 hp with hp | hp
    · exact ha p hp
    · exact (List.pair_mem_product.1 (hcand p hp).1).2
  refine untilStable_stable hkeep (missing _)
    (fun a ha hne => (grows_propagateRound ha).missing_lt hne)
    (fun p hp => List.mem_map_of_mem hp) ((List.length_filter_le _ _).trans ?_)
  rw [List.length_product, List.length_map]
  exact Nat.mul_le_mul_right _ (List.length_filterMap_le _ _)

theorem groundRound_stable (required : List (String × String)) :
    groundRound vc required (untilStable (groundRound vc required) required.length []) =
      untilStable (groundRound vc required) required.length [] := by
  have hgrows : ∀ a, Grows required a (groundRound vc required a) := by
    refine fun a => Grows.foldl (fun key hkey grounded => ?_) a
    split_ifs with hin hground
    · exact .refl _ _
    · exact .insert hkey hin
    · exact .refl _ _
  exact untilStable_stable_of_grows hgrows le_rfl []

end Rounds

/-- `is_scalar_constant_value`. -/
def isScalarConstantValue : Expr → Bool
  | .app (.boolConst _) _ => true
  | .app (.bitVecConst _ _) _ => true
  | .app (.intConst _) _ => true
  | .app (.realConst _) _ => true
  | _ => false

/-- The variable and the constant that a constraint equates. -/
def constantBinding : Expr → Option (String × Expr)
  | .app .eq [lhs, rhs] =>
    match lhs, rhs with
    | .var name _, _ =>
      if isScalarConstantValue rhs then some (name, rhs)
      else none
    | _, .var name _ => if isScalarConstantValue lhs then some (name, lhs) else none
    | _, _ => none
  | _ => none

/-- Two constants are equated with the lane. -/
def constantConflicted (lane : String) : Bool :=
  let constants := ((vc.rules.flatMap fun rule =>
    rule.body.constraints.filterMap constantBinding).filter (·.1 == lane)).map Prod.snd
  decide (1 < constants.eraseDups.length)

/-- The lanes that relations get. -/
def requiredLanes : List (String × String) :=
  (retainGroundedLanes vc (propagateRequiredLanes vc (readLanes vc))).filter
    fun key => !constantConflicted vc key.2

/-- The lanes of one relation with their sorts, sorted by name. -/
def lanesOf (relation : String) : List (String × SmtSort) :=
  ((((requiredLanes vc).filter (·.1 == relation)).map Prod.snd).insertionSort (· ≤ ·)).filterMap
    fun lane => (varSorts vc lane).map fun sort => (lane, sort)

end Required

/-! ### The pass -/

section Carry

variable (lanes : String → List (String × SmtSort))

/-- `append_body_lane_args`. -/
def appendBodyLaneArgs (app : RelationApp) : RelationApp :=
  ⟨app.name, app.args ++ (lanes app.name).map fun (lane, sort) => .var lane sort⟩

/-- The name that the head of a rule gives a lane. -/
def headLane (constraints : List Expr) (lane : String) : String :=
  if constraintsMentionVar constraints (outputLane lane) then outputLane lane else lane

/-- `append_head_lane_args`. -/
def appendHeadLaneArgs (constraints : List Expr) (app : RelationApp) : RelationApp :=
  ⟨app.name, app.args ++ (lanes app.name).map fun (lane, sort) =>
    .var (headLane constraints lane) sort⟩

/-- A rule with its lanes. -/
def carryRule (rule : Rule) : Rule :=
  ⟨⟨rule.body.relation.map (appendBodyLaneArgs lanes), rule.body.constraints⟩,
    appendHeadLaneArgs lanes rule.body.constraints rule.head⟩

end Carry

/-- `carry_rhs_scalarized_lanes`. -/
def carryRhsScalarizedLanes (vc : ChcVc) : ChcVc :=
  { vc with
    rules := vc.rules.map (carryRule (lanesOf vc))
    relations := vc.relations.map fun rel =>
      { rel with argSorts := rel.argSorts ++ (lanesOf vc rel.name).map Prod.snd } }

end Scalarize

end TrustMc
