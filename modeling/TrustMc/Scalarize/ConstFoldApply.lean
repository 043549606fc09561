import Mathlib.Data.List.Dedup
import TrustMc.Scalarize.ConstFold
import TrustMc.Scalarize.Redeclare

/-!
# Folding read-only arrays

`applyConstFolding` puts constants for the reads of read-only arrays, drops the constraints that
define them and removes them from the relations, by name. `foldPreconditionsHold` checks first
that every constraint that mentions the array is dropped or only reads it, and, for reads that
are not in the map, that the array holds its default wherever it is read.
-/

namespace TrustMc

namespace Scalarize

open ConstProp DeadScalars

/-! ### Preconditions -/

section Preconditions

variable (info : ConstFoldInfo)

/-- `folded_array_var`: whether the name is that of the output. -/
def ConstFoldInfo.foldedName (name : String) : Option Bool :=
  if name = info.inputName then some false
  else if name = info.outputName then some true
  else none

/-- `folded_array_var`. -/
def foldedArrayVar (e : Expr) : Option Bool := (asVarName e).bind info.foldedName

/-- `expr_mentions_folded_array`. -/
def exprMentionsFoldedArray (e : Expr) : Bool :=
  e.varNames.any fun name => (info.foldedName name).isSome

/-- `folded_input_const_select`. -/
def foldedInputConstSelect : Expr → Option ConstIdx
  | .app .select [array, index] =>
    if isVar info.inputName array then tryExtractConstIdx index else none
  | _ => none

/-- `DropKind`. -/
inductive DropKind
  /-- Dropped without a loss. -/
  | dropped
  /-- Dropped, but the reads would not give it back. -/
  | inconsistentDrop
  /-- Kept. -/
  | kept

/-- An entry rule's equation with a read of the array. -/
def pointwiseDropKind (selectSide valueSide : Expr) : Option DropKind :=
  (foldedInputConstSelect info selectSide).map fun idx =>
    let preserved :=
      match info.constMap.get idx with
      | some mapped => mapped == valueSide
      | none => info.uniformDefault == some valueSide
    if preserved && !exprMentionsFoldedArray info valueSide then .dropped else .inconsistentDrop

/-- An equation of the array with a constant array or a store. -/
def bulkDropKind (isEntryRule : Bool) (varSide valSide : Expr) : Option DropKind :=
  (foldedArrayVar info varSide).bind fun isOutput =>
    if isConstArray valSide || isStore valSide then
      some (if isOutput || isEntryRule then .dropped else .inconsistentDrop)
    else none

/-- An equation of the array with itself. -/
def isIdentityPair : Expr → Bool
  | .app .eq [lhs, rhs] => (foldedArrayVar info lhs).isSome && (foldedArrayVar info rhs).isSome
  | _ => false

/-- `conjunct_drop_kind`. -/
def conjunctDropKind (conjunct : Expr) (isEntryRule : Bool) : DropKind :=
  match conjunct with
  | .app .eq [lhs, rhs] =>
    let pointwise :=
      if isEntryRule then (pointwiseDropKind info lhs rhs).or (pointwiseDropKind info rhs lhs)
      else none
    let bulk := (bulkDropKind info isEntryRule lhs rhs).or (bulkDropKind info isEntryRule rhs lhs)
    ((pointwise.or bulk).getD
      (if isIdentityPair info (lhs.eq rhs) then .dropped else .kept))
  | _ => .kept

/-- A read that is replaced. -/
structure FoldSite where
  /-- The map has the index; otherwise the read is replaced by the default. -/
  inMap : Bool
  /-- The output is read. -/
  onOutput : Bool

mutual

/-- The reads of the array in a term; `none` if it is mentioned otherwise, or read where the map
has no value and there is no default. -/
def foldSites : Expr → Option (List FoldSite)
  | .var name _ => if (info.foldedName name).isSome then none else some []
  | .app .select [.var name _, index] =>
    match info.foldedName name with
    | none => foldSites index
    | some onOutput =>
      let inMap := (tryExtractConstIdx index).any fun idx => (info.constMap.get idx).isSome
      if !inMap && info.uniformDefault.isNone then none
      else (foldSites index).map (⟨inMap, onOutput⟩ :: ·)
  | .app _ args => foldSitesList args
  | .quant _ _ body => foldSites body

/-- The reads of the array in a list of terms. -/
def foldSitesList : List Expr → Option (List FoldSite)
  | [] => some []
  | e :: es => do
    let sites ← foldSites e
    let rest ← foldSitesList es
    pure (sites ++ rest)

end

/-- `conjunct_folds_away`. -/
def conjunctFoldsAway (isEntryRule : Bool) (conjunct : Expr) : Option (List FoldSite) :=
  match conjunctDropKind info conjunct isEntryRule with
  | .dropped => some []
  | .inconsistentDrop => none
  | .kept => foldSites info conjunct

/-- The reads of the array in the constraints of a rule. -/
def ruleFoldSites (rule : Rule) : Option (List FoldSite) :=
  ((flattenConjunctions rule.body.constraints).mapM
    (conjunctFoldsAway info rule.body.relation.isNone)).map List.flatten

/-- `rule_has_identity_pair`. -/
def ruleHasIdentityPair (rule : Rule) : Bool :=
  (flattenConjunctions rule.body.constraints).any (isIdentityPair info)

/-! #### The default -/

mutual

/-- `expr_mentions_array_outside_select_base`. -/
def exprMentionsArrayOutsideSelectBase : Expr → Bool
  | .var name _ => (info.foldedName name).isSome
  | .app .select [.var _ _, index] => exprMentionsArrayOutsideSelectBase index
  | .app _ args => exprsMentionArrayOutsideSelectBase args
  | .quant _ _ body => exprMentionsArrayOutsideSelectBase body

/-- `expr_mentions_array_outside_select_base` on a list of terms. -/
def exprsMentionArrayOutsideSelectBase : List Expr → Bool
  | [] => false
  | e :: es => exprMentionsArrayOutsideSelectBase e || exprsMentionArrayOutsideSelectBase es

end

/-- `UniformUse`. -/
inductive UniformUse
  | violation
  | identity
  | initInput
  | initOutput
  | benign
  deriving DecidableEq

/-- `classify_uniform_value`. -/
def classifyUniformValue (default : Expr) (isOutput : Bool) : Expr → UniformUse
  | .store array index value =>
    if value ≠ default ∨ exprMentionsArrayOutsideSelectBase info index then .violation
    else classifyUniformValue default isOutput array
  | .app (.constArray _) [value] =>
    if value ≠ default then .violation else if isOutput then .initOutput else .initInput
  | e => if (foldedArrayVar info e).isSome then .identity else .violation

/-- `classify_uniform_conjunct`. -/
def classifyUniformConjunct (default : Expr) (conjunct : Expr) : UniformUse :=
  let other :=
    if exprMentionsArrayOutsideSelectBase info conjunct then .violation else .benign
  match conjunct with
  | .app .eq [lhs, rhs] =>
    match foldedArrayVar info lhs, foldedArrayVar info rhs with
    | some _, some _ => .identity
    | some isOutput, none => classifyUniformValue info default isOutput rhs
    | none, some isOutput => classifyUniformValue info default isOutput lhs
    | none, none => other
  | _ => other

/-- What a rule says about the whole array (`UniformRuleFacts`): the uses of its conjuncts. -/
def ruleUses (default : Expr) (rule : Rule) : List UniformUse :=
  (flattenConjunctions rule.body.constraints).map (classifyUniformConjunct info default)

/-- `relation_uniform`: relations that no rule concludes are uniform. -/
def relationUniform (vc : ChcVc) (uniform : List String) (name : String) : Bool :=
  !(vc.rules.map (·.head.name)).contains name || uniform.contains name

/-- `pre_state_uniform`. -/
def preStateUniform (vc : ChcVc) (default : Expr) (uniform : List String) (rule : Rule) : Bool :=
  (ruleUses info default rule).contains .initInput ||
    rule.body.relation.any fun app => relationUniform vc uniform app.name

/-- The array holds its default after the step. -/
def postStateUniform (vc : ChcVc) (default : Expr) (uniform : List String) (rule : Rule) : Bool :=
  (ruleUses info default rule).contains .initOutput ||
    (ruleUses info default rule).contains .identity &&
      preStateUniform info vc default uniform rule

/-- `rule_delivers`: the first argument of the head that is the array holds its default. -/
def ruleDelivers (vc : ChcVc) (default : Expr) (uniform : List String) (rule : Rule) : Bool :=
  match rule.head.args.findSome? (foldedArrayVar info) with
  | none => false
  | some false => preStateUniform info vc default uniform rule
  | some true => postStateUniform info vc default uniform rule

/-- One round of the greatest fixed point: the relations that every rule delivers. -/
def uniformRound (vc : ChcVc) (default : Expr) (uniform : List String) : List String :=
  uniform.filter fun name =>
    (vc.rules.filter (·.head.name == name)).all (ruleDelivers info vc default uniform)

/-- The relations that carry the array with its default. -/
def uniformRelations (vc : ChcVc) (default : Expr) : List String :=
  Budget.untilStable (uniformRound info vc default) vc.rules.length
    (vc.rules.map (·.head.name)).dedup

/-- The rounds reach a fixed point. -/
theorem uniformRound_stable (vc : ChcVc) (default : Expr) :
    uniformRound info vc default (uniformRelations info vc default) =
      uniformRelations info vc default := by
  refine Budget.untilStable_stable (P := fun _ => True) (fun _ _ => trivial) List.length
    (fun uniform _ hne => ?_) trivial ?_
  · refine (List.length_filter_le _ _).lt_of_ne fun hlen => hne ?_
    exact List.filter_eq_self.2 (List.length_filter_eq_length_iff.1 hlen)
  · calc ((vc.rules.map (·.head.name)).dedup).length
        ≤ (vc.rules.map (·.head.name)).length := (List.dedup_sublist _).length_le
      _ = vc.rules.length := List.length_map _

/-- `uniform_default_reaches_all_sites`, for the reads that the default replaces. -/
def uniformDefaultReachesAllSites (vc : ChcVc) (default : Expr)
    (sites : List (Rule × FoldSite)) : Bool :=
  (vc.rules.all fun rule => !(ruleUses info default rule).contains .violation) &&
    let uniform := uniformRelations info vc default
    sites.all fun site =>
      if site.2.onOutput then postStateUniform info vc default uniform site.1
      else preStateUniform info vc default uniform site.1

/-- `fold_preconditions_hold`. -/
def foldPreconditionsHold (vc : ChcVc) : Bool :=
  !(info.constMap.any fun entry => exprMentionsFoldedArray info entry.2) &&
    match vc.rules.mapM fun rule => (ruleFoldSites info rule).map fun sites =>
        sites.map fun site => (rule, site) with
    | none => false
    | some sites =>
      let uniformSites := sites.flatten.filter (!·.2.inMap)
      (sites.flatten.all fun site =>
          !(site.2.inMap && site.2.onOutput) || ruleHasIdentityPair info site.1) &&
        (uniformSites.isEmpty ||
          info.uniformDefault.any fun default =>
            (info.constMap.all fun entry => entry.2 == default) &&
              uniformDefaultReachesAllSites info vc default uniformSites)

end Preconditions

/-! ### Folding -/

section Apply

variable (infos : List ConstFoldInfo)

/-- `folded_inputs`. -/
def isFoldedInput (name : String) : Bool := infos.any (·.inputName == name)

/-- `folded_outputs`. -/
def isFoldedOutput (name : String) : Bool := infos.any (·.outputName == name)

/-- `folded_select_arrays`. -/
def foldedSelectArray (name : String) : Option ConstFoldInfo :=
  (infos.reverse.find? (·.outputName == name)).or (infos.reverse.find? (·.inputName == name))

/-- `is_folded_array_init`. -/
def isFoldedArrayInit (varSide valSide : Expr) (isFolded : String → Bool) : Bool :=
  (asVarName varSide).any isFolded && (isConstArray valSide || isStore valSide)

/-- `is_folded_select`. -/
def isFoldedSelect : Expr → Bool
  | .app .select [array, index] =>
    (asVarName array).any (isFoldedInput infos) && (tryExtractConstIdx index).isSome
  | _ => false

/-- `should_drop_folded_constraint`. -/
def shouldDropFoldedConstraint (isEntryRule : Bool) (constraint : Expr) : Bool :=
  match constraint with
  | .app .eq [lhs, rhs] =>
    isEntryRule && (isFoldedSelect infos lhs || isFoldedSelect infos rhs) ||
      (isFoldedArrayInit lhs rhs (isFoldedInput infos) ||
        isFoldedArrayInit rhs lhs (isFoldedInput infos)) ||
      (isFoldedArrayInit lhs rhs (isFoldedOutput infos) ||
        isFoldedArrayInit rhs lhs (isFoldedOutput infos)) ||
      ((asVarName lhs).any (isFoldedOutput infos) && (asVarName rhs).any (isFoldedInput infos) ||
        (asVarName rhs).any (isFoldedOutput infos) && (asVarName lhs).any (isFoldedInput infos))
  | _ => false

/-- What replaces a read of a folded array. -/
def ConstFoldInfo.valueAt (info : ConstFoldInfo) (index : Expr) : Option Expr :=
  ((tryExtractConstIdx index).bind info.constMap.get).or info.uniformDefault

mutual

/-- `fold_selects_in_expr`. -/
def foldSelectsInExpr : Expr → Expr
  | .var name sort => .var name sort
  | .app .select [.var name sort, index] =>
    ((foldedSelectArray infos name).bind (·.valueAt index)).getD
      ((Expr.var name sort).select (foldSelectsInExpr index))
  | .app op args => .app op (foldSelectsInExprs args)
  | .quant q vars body => .quant q vars (foldSelectsInExpr body)

/-- `fold_selects_in_expr` on a list of terms. -/
def foldSelectsInExprs : List Expr → List Expr
  | [] => []
  | e :: es => foldSelectsInExpr e :: foldSelectsInExprs es

end

/-- The argument is a folded array. -/
def isFoldedArg (arg : Expr) : Bool :=
  (asVarName arg).any fun name => isFoldedInput infos name || isFoldedOutput infos name

/-- `remove_folded_args`. -/
def removeFoldedArgs (app : RelationApp) : RelationApp :=
  ⟨app.name, app.args.filter (!isFoldedArg infos ·)⟩

/-- A rule without the folded arrays. -/
def foldRule (rule : Rule) : Rule :=
  ⟨⟨rule.body.relation.map (removeFoldedArgs infos),
      foldSelectsInExprs infos ((flattenConjunctions rule.body.constraints).filter
        (!shouldDropFoldedConstraint infos rule.body.relation.isNone ·))⟩,
    removeFoldedArgs infos rule.head⟩

/-- The rewrite of `apply_const_folding`: the declarations follow the heads of the rules. -/
def foldArrays (vc : ChcVc) : ChcVc :=
  let rules := vc.rules.map (foldRule infos)
  { vc with
    rules := rules
    relations := vc.relations.map (redeclare (rules.map Rule.head)) }

end Apply

/-- The arrays that are folded: those that pass the check. -/
def foldedArrays (vc : ChcVc) (infos : List ConstFoldInfo) : List ConstFoldInfo :=
  infos.filter (foldPreconditionsHold · vc)

/-- `apply_const_folding`. -/
def applyConstFolding (vc : ChcVc) (infos : List ConstFoldInfo) : ChcVc :=
  if (foldedArrays vc infos).isEmpty then vc else foldArrays (foldedArrays vc infos) vc

end Scalarize

end TrustMc
