import TrustMc.Budget.Fixpoint
import TrustMc.ConstProp.Pass

/-!
# Dead variables and constraints

`pruneDeadVarsAndConstraints` deletes rules with a false conjunct, then definitions of variables
that nothing else reads, then the declarations of variables that no longer occur, and last the
copies of rules.

* A variable is **essential** if it stands in an application, in a constraint of a protected rule
  or in a cover assertion, or shares a constraint with an essential one. A definition is deleted
  only if no variable of it is essential.
* The rules of error relations are protected: none of their constraints is deleted.
-/

namespace TrustMc

/-- A verification condition with its properties and cover assertions. -/
structure CoverVc extends ChcVc where
  /-- The error relations of the registered properties. -/
  propertyRelations : List String
  /-- Names with their conditions. -/
  coverAssertions : List (String × Expr)

namespace DeadVars

open Budget ConstProp

/-! ### Rules with a false conjunct -/

mutual

/-- `constraint_contains_false_conjunct`. -/
def constraintContainsFalseConjunct : Expr → Bool
  | .app (.boolConst b) _ => !b
  | .app .and children => anyContainsFalseConjunct children
  | _ => false

/-- Some term of the list has a false conjunct. -/
def anyContainsFalseConjunct : List Expr → Bool
  | [] => false
  | e :: es => constraintContainsFalseConjunct e || anyContainsFalseConjunct es

end

/-- The rule is a discharge obligation `false ⇒ error`. -/
def isDischarge (rule : Rule) : Bool :=
  (rule.head.name == "error" || "error_p".toList.isPrefixOf rule.head.name.toList) &&
    ruleBodyIsLiteralFalse rule

/-- `prune_trivially_false_rules`. -/
def pruneTriviallyFalseRules (rules : List Rule) : List Rule :=
  rules.filter fun rule =>
    if isDischarge rule then true
    else !rule.body.constraints.any constraintContainsFalseConjunct

/-! ### Protected rules and essential variables -/

/-- The relation queried for reachability, `error` by default. -/
def queryTarget (vc : CoverVc) : String := vc.target.getD "error"

/-- The body relations of the rules that do nothing but lead to the query. -/
def bridgeRelations (vc : CoverVc) : List String :=
  (vc.rules.filter fun rule =>
    rule.head.name == queryTarget vc && rule.body.constraints.isEmpty).filterMap fun rule =>
      (rule.body.relation.filter fun rel => rel.args.isEmpty).map (·.name)

/-- `collect_protected_heads`. -/
def collectProtectedHeads (vc : CoverVc) : List String :=
  vc.propertyRelations ++ bridgeRelations vc ++ [queryTarget vc]

/-- `collect_relation_app_vars`, on the applications of a rule. -/
def relationAppVars (rule : Rule) : List String :=
  rule.apps.flatMap fun app => app.args.flatMap Expr.varNames

/-- The variables of a rule's constraints. -/
def constraintVars (rule : Rule) : List String := rule.body.constraints.flatMap Expr.varNames

/-- The variables of the cover assertions. -/
def coverVars (vc : CoverVc) : List String :=
  vc.coverAssertions.flatMap fun cover => cover.2.varNames

/-- The variables that are essential by themselves. -/
def essentialSeed (vc : CoverVc) : List String :=
  vc.rules.flatMap relationAppVars ++
    (vc.rules.filter fun rule => rule.head.name ∈ collectProtectedHeads vc).flatMap
      constraintVars ++
    coverVars vc

/-- One constraint of `close_essential_transitively`. -/
def closeConstraint (essential : List String) (constraint : Expr) : List String :=
  if constraint.varNames.any (· ∈ essential) then
    essential ++ constraint.varNames.filter (· ∉ essential)
  else essential

/-- The constraints of a list of rules. -/
def allConstraints (rules : List Rule) : List Expr := rules.flatMap fun r => r.body.constraints

/-- `close_essential_transitively`: every round but the last adds a variable. -/
def closeEssentialTransitively (vc : CoverVc) (essential : List String) : List String :=
  untilStable (fun ess => (allConstraints vc.rules).foldl closeConstraint ess)
    ((allConstraints vc.rules).flatMap Expr.varNames).length essential

/-! ### Deleting definitions -/

/-- The number of constraints that mention the variable. -/
def occurs (constraints : List Expr) (name : String) : ℕ :=
  (constraints.filter fun c => decide (name ∈ c.varNames)).length

/-- One orientation of `is_strippable`: the side is a variable that the other side does not
mention, and no other constraint does. -/
def definesAlone (constraints : List Expr) (varSide exprSide : Expr) : Bool :=
  match varSide with
  | .var name _ => decide (name ∉ exprSide.varNames) && occurs constraints name == 1
  | _ => false

/-- `is_strippable`. -/
def isStrippable (essential : List String) (constraints : List Expr) (constraint : Expr) :
    Bool :=
  if constraint.varNames.isEmpty then false
  else if constraint.varNames.any (· ∈ essential) then false
  else
    match constraint with
    | .app .eq [lhs, rhs] =>
      definesAlone constraints lhs rhs || definesAlone constraints rhs lhs
    | _ => false

/-- One rule of a round. -/
def stripRule (essential protectedHeads : List String) (rule : Rule) : Rule :=
  if rule.head.name ∈ protectedHeads then rule
  else
    { rule with
      body := { rule.body with
        constraints := rule.body.constraints.filter fun c =>
          !isStrippable essential rule.body.constraints c } }

/-- One round of the deletion. -/
def stripRound (essential protectedHeads : List String) (rules : List Rule) : List Rule :=
  rules.map (stripRule essential protectedHeads)

/-- The rounds; every round but the last deletes a constraint. -/
def stripRounds (essential protectedHeads : List String) (rules : List Rule) : List Rule :=
  untilStable (stripRound essential protectedHeads) (allConstraints rules).length rules

/-- `dedupe_rules`. -/
def dedupeRules (rules : List Rule) : List Rule := rules.eraseDups

/-! ### The pass -/

/-- The essential variables of a verification condition without rules that are false. -/
def essentialVars (vc : CoverVc) : List String :=
  closeEssentialTransitively vc (essentialSeed vc)

/-- `prune_dead_vars_and_constraints`. -/
def pruneDeadVarsAndConstraints (vc : CoverVc) : CoverVc :=
  let vc := { vc with rules := pruneTriviallyFalseRules vc.rules }
  if (essentialSeed vc).isEmpty then vc
  else
    let rules := stripRounds (essentialVars vc) (collectProtectedHeads vc) vc.rules
    let referenced := essentialVars vc ++ rules.flatMap constraintVars ++ coverVars vc
    { vc with
      vars := vc.vars.filter fun v => v.1 ∈ referenced
      rules := dedupeRules rules }

/-- The number of constraints that are deleted, with those of deleted rules. -/
def strippedCount (vc : CoverVc) : ℕ :=
  (allConstraints vc.rules).length -
    (allConstraints (pruneDeadVarsAndConstraints vc).rules).length

end DeadVars

end TrustMc
