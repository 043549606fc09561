import TrustMc.ConstProp.Propagate

/-!
# Constant propagation

`propagateConstants` removes the relation positions that carry one constant in every rule.
Each round finds these positions (`identifyConstantPositions`), propagates their constants
into the rules that read them (`propagateRule`) and strips the positions from heads, bodies
and declarations; a round that strips nothing is the last. Rules with a trivially false
body are then dropped and trivially true constraints stripped.

* A position that mentions a heap-liveness lane is never removed.
* A rule none of whose constant positions holds a variable is left as it is
  (`skipsRule`), although the positions are stripped everywhere else.
-/

namespace TrustMc

/-- The relation applications of a rule. -/
def Rule.apps (r : Rule) : List RelationApp := r.head :: r.body.relation.toList

namespace ConstProp

/-! ### Heap-liveness lanes -/

/-- `is_scalarized_obj_valid_name`. -/
def isScalarizedObjValidName (name : String) : Bool :=
  "obj_valid_at_".toList.isPrefixOf name.toList

mutual

/-- `expr_mentions_scalarized_obj_valid`. -/
def exprMentionsScalarizedObjValid : Expr → Bool
  | .var name _ => isScalarizedObjValidName name
  | .app _ args => exprsMentionScalarizedObjValid args
  | .quant _ _ body => exprMentionsScalarizedObjValid body

/-- Whether a term of the list mentions a heap-liveness lane. -/
def exprsMentionScalarizedObjValid : List Expr → Bool
  | [] => false
  | e :: es => exprMentionsScalarizedObjValid e || exprsMentionScalarizedObjValid es

end

/-- `heap_liveness_positions`. -/
def heapLivenessPositions (rules : List Rule) (name : String) (i : ℕ) : Bool :=
  rules.any fun r => r.apps.any fun a =>
    a.name == name && (a.args[i]?).any exprMentionsScalarizedObjValid

/-! ### Constant positions -/

/-- The resolved arguments of the heads of a relation at a position, rules that hand the
position on to themselves left out. -/
def positionValues (rules : List Rule) (name : String) (i : ℕ) : List Expr :=
  (rules.filter (·.head.name == name)).filterMap fun r =>
    if i ∈ detectIdentityPositions r then none else (resolveHeadArgs r)[i]?

/-- `unique_constant`. -/
def uniqueConstant : List Expr → Option Expr
  | [] => none
  | first :: rest => if isConstant first ∧ ∀ v ∈ rest, v = first then some first else none

/-- The longest argument list of a head of the relation. -/
def headArity (rules : List Rule) (name : String) : ℕ :=
  ((rules.filter (·.head.name == name)).map (·.head.args.length)).foldl max 0

/-- A constant for each position that has one. -/
abbrev Constants : Type := String → Option (List (Option Expr))

/-- `identify_constant_positions`. -/
def identifyConstantPositions (vc : ChcVc) : Constants := fun name =>
  let constants := (List.range (headArity vc.rules name)).map fun i =>
    if heapLivenessPositions vc.rules name i then none
    else uniqueConstant (positionValues vc.rules name i)
  if constants.any Option.isSome then some constants else none

/-! ### One round -/

/-- Drops the positions that have a constant. -/
def stripPositions {α : Type} : List (Option Expr) → List α → List α
  | some _ :: relConstants, _ :: args => stripPositions relConstants args
  | none :: relConstants, arg :: args => arg :: stripPositions relConstants args
  | _, args => args

/-- The variables at the constant positions of a body application. -/
def initialKnown (relConstants : List (Option Expr)) (args : List Expr) : Known :=
  (relConstants.zip args).foldl (fun known p =>
    match p with
    | (some constant, .var name _) => known.insert name constant
    | _ => known) []

/-- The names of the variables among the arguments of a relation application. -/
def argVarNames (args : List Expr) : List String :=
  args.filterMap fun arg =>
    match arg with
    | .var name _ => some name
    | _ => none

/-- What is known in a rule, before the output variables. -/
def knownOf (rule : Rule) (bodyRel : RelationApp) (relConstants : List (Option Expr)) : Known :=
  propagateThroughEqualities rule.body.constraints (initialKnown relConstants bodyRel.args)

/-- The first phase of `apply_constant_propagation`, on one rule. -/
def propagateRule (constants : Constants) (rule : Rule) : Rule :=
  match rule.body.relation with
  | none => rule
  | some bodyRel =>
    match constants bodyRel.name with
    | none => rule
    | some relConstants =>
      if (initialKnown relConstants bodyRel.args).isEmpty then rule
      else
        -- the head keeps its arity here: it is stripped in the second phase
        let known := propagateToUnconstrainedOutVars rule.head.args rule.body.constraints
          (knownOf rule bodyRel relConstants)
        let substituted := rule.body.constraints.map (substituteVars · known)
        let bindings := (known.filter fun p => p.1 ∈ argVarNames bodyRel.args).map fun p =>
          (Expr.var p.1 p.2.sort).eq p.2
        { body :=
            { relation := some ⟨bodyRel.name, stripPositions relConstants bodyRel.args⟩
              constraints := substituted ++ bindings }
          head := ⟨rule.head.name, rule.head.args.map (resolveArg known)⟩ }

/-- The second phase of `apply_constant_propagation`, on the head of a rule. -/
def stripHead (constants : Constants) (rule : Rule) : Rule :=
  match constants rule.head.name with
  | none => rule
  | some relConstants =>
    { rule with head := ⟨rule.head.name, stripPositions relConstants rule.head.args⟩ }

/-- The second phase of `apply_constant_propagation`, on a declaration. -/
def stripDecl (constants : Constants) (rel : RelationDecl) : RelationDecl :=
  match constants rel.name with
  | none => rel
  | some relConstants => { rel with argSorts := stripPositions relConstants rel.argSorts }

/-- `apply_constant_propagation`: the result and the number of positions removed. -/
def applyConstantPropagation (vc : ChcVc) (constants : Constants) : ChcVc × ℕ :=
  let rules := vc.rules.map fun rule => stripHead constants (propagateRule constants rule)
  let relations := vc.relations.map (stripDecl constants)
  let stripped := (vc.relations.map fun rel =>
    rel.argSorts.length - (stripDecl constants rel).argSorts.length).sum
  ({ vc with rules, relations }, stripped)

/-! ### The pass -/

/-- `constants.is_empty()`: only relations of heads have constants. -/
def noConstants (vc : ChcVc) : Bool :=
  vc.rules.all fun r => (identifyConstantPositions vc r.head.name).isNone

/-- The loop of `propagate_constants`, with a bound on the rounds. -/
def propagateRounds : ℕ → ChcVc → ChcVc × ℕ
  | 0, vc => (vc, 0)
  | n + 1, vc =>
    if noConstants vc then (vc, 0)
    else
      let (vc, propagated) := applyConstantPropagation vc (identifyConstantPositions vc)
      if propagated = 0 then (vc, 0)
      else
        let (vc, total) := propagateRounds n vc
        (vc, propagated + total)

/-- The number of declared positions. -/
def totalArity (vc : ChcVc) : ℕ := (vc.relations.map (·.argSorts.length)).sum

/-- `rule_body_is_literal_false`. -/
def ruleBodyIsLiteralFalse (rule : Rule) : Bool :=
  rule.body.relation.isNone && !rule.body.constraints.isEmpty &&
    rule.body.constraints.all fun c =>
      match c with
      | .app (.boolConst false) _ => true
      | _ => false

/-- `eliminate_trivially_false_rules`: the discharge obligation `false ⇒ error` stays. -/
def eliminateTriviallyFalseRules (vc : ChcVc) : ChcVc :=
  { vc with
    rules := vc.rules.filter fun rule =>
      if (rule.head.name == "error" || "error_p".toList.isPrefixOf rule.head.name.toList) &&
          ruleBodyIsLiteralFalse rule then true
      else !rule.body.constraints.any isTriviallyFalse }

/-- `strip_trivially_true_constraints`, on one rule. -/
def stripConstraints (rule : Rule) : Rule :=
  { rule with
    body := { rule.body with
      constraints := rule.body.constraints.filter fun c => !isTriviallyTrue c } }

/-- `strip_trivially_true_constraints`. -/
def stripTriviallyTrueConstraints (vc : ChcVc) : ChcVc :=
  { vc with rules := vc.rules.map stripConstraints }

/-- `propagate_constants`: every round but the last removes a declared position. -/
def propagateConstants (vc : ChcVc) : ChcVc × ℕ :=
  let (vc', total) := propagateRounds (totalArity vc + 1) vc
  (stripTriviallyTrueConstraints (eliminateTriviallyFalseRules vc'), total)

/-! ### Where a round goes wrong -/

/-- The rule is left as it is although its body relation loses positions. -/
def skipsRule (constants : Constants) (rule : Rule) : Bool :=
  match rule.body.relation with
  | none => false
  | some bodyRel =>
    match constants bodyRel.name with
    | none => false
    | some relConstants => (initialKnown relConstants bodyRel.args).isEmpty

/-- Some head variable `X__out` that no constraint mentions gets the constant of `X`. -/
def copiesOutVar (constants : Constants) (rule : Rule) : Bool :=
  match rule.body.relation with
  | none => false
  | some bodyRel =>
    match constants bodyRel.name with
    | none => false
    | some relConstants =>
      let known := knownOf rule bodyRel relConstants
      propagateToUnconstrainedOutVars rule.head.args rule.body.constraints known ≠ known

/-- No rule is skipped and no output variable is taken for a copy. -/
def CleanRound (vc : ChcVc) : Prop :=
  ∀ r ∈ vc.rules, skipsRule (identifyConstantPositions vc) r = false ∧
    copiesOutVar (identifyConstantPositions vc) r = false

instance (vc : ChcVc) : Decidable (CleanRound vc) := inferInstanceAs (Decidable (∀ _ ∈ _, _ ∧ _))

/-- Every round that `propagateRounds` takes is clean. -/
def CleanRounds : ℕ → ChcVc → Prop
  | 0, _ => True
  | n + 1, vc =>
    noConstants vc = true ∨
      CleanRound vc ∧
        CleanRounds n (applyConstantPropagation vc (identifyConstantPositions vc)).1

instance decidableCleanRounds : (n : ℕ) → (vc : ChcVc) → Decidable (CleanRounds n vc)
  | 0, _ => inferInstanceAs (Decidable True)
  | n + 1, vc =>
    have := decidableCleanRounds n
      (applyConstantPropagation vc (identifyConstantPositions vc)).1
    inferInstanceAs (Decidable (_ ∨ _ ∧ _))

/-- Every round of the pass is clean. -/
def CleanRun (vc : ChcVc) : Prop := CleanRounds (totalArity vc + 1) vc

instance (vc : ChcVc) : Decidable (CleanRun vc) := decidableCleanRounds _ _

end ConstProp

end TrustMc
