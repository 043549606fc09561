import Mathlib.Data.List.DropRight
import TrustMc.Core.Vc
import TrustMc.Slots.Filling

/-!
# Repairing the arity of relation applications

`fixup_relation_app_arities` gives the applications of every relation, also those that stand
inside constraints, the arity that the relation is declared with. `normalizedRelationArgs` tries
in turn

* an application that already has the declared sorts (nothing to do);
* for too many arguments: a subsequence of them with the declared sorts, or an alignment that
  skips arguments and puts in pads;
* for too few: the slots they have in a full application of the relation, the first slots of
  their sorts, and last pads in front or at the end.

A table that the source fills from the end is the recursion that fills it. The text of a sort
is the parameter `showSort`.
-/

namespace TrustMc

namespace Relations

open Slots

/-! ### Declarations and pads -/

/-- `rel_sorts`: a later declaration of a name replaces an earlier one. -/
def relSorts (relations : List RelationDecl) (name : String) : Option (List SmtSort) :=
  (relations.reverse.find? (·.name == name)).map (·.argSorts)

/-- `arg_sorts_match_decl`. -/
def argSortsMatchDecl (args : List Expr) (declSorts : List SmtSort) : Bool :=
  args.map Expr.sort == declSorts

/-- `pad_sort_tag`: what is not alphanumeric in the text of the sort becomes an underscore. -/
def padSortTag (showSort : SmtSort → String) (sort : SmtSort) : String :=
  let tag := (showSort sort).toList.foldl
    (fun tag ch =>
      if ch.isAlphanum then tag ++ [ch]
      else if tag.getLast? = some '_' then tag else tag ++ ['_']) []
  String.ofList ((tag.dropWhile (· == '_')).rdropWhile (· == '_'))

/-- The name of a pad without the tag of its sort. -/
def padName (relName : String) (idx : ℕ) : String := "__pad_" ++ relName ++ "_" ++ toString idx

/-- `pad_var`. -/
def padVar (relName : String) (idx : ℕ) (sort : SmtSort) : Expr := .var (padName relName idx) sort

/-- The pads of the last resort, whose names carry the sort. -/
def taggedPadVar (showSort : SmtSort → String) (relName : String) (idx : ℕ) (sort : SmtSort) :
    Expr :=
  .var (padName relName idx ++ "_" ++ padSortTag showSort sort) sort

/-- `is_generated_pad_arg`. -/
def isGeneratedPadArg (relName : String) : Expr → Bool
  | .var name _ =>
    let start := ("__pad_" ++ relName ++ "_").toList
    let rest := name.toList.drop start.length
    let tail := rest.dropWhile Char.isDigit
    decide (start <+: name.toList) && rest.head?.any Char.isDigit &&
      (tail.isEmpty || tail.head? == some '_')
  | _ => false

/-! ### Alignment -/

/-- `align_args_to_decl_sorts_with_padding`. -/
def alignArgsToDeclSortsWithPadding (relName : String) (args : List Expr)
    (declSorts : List SmtSort) : Option (List Expr) :=
  if declSorts.length < args.length then none
  else
    let (aligned, left, insertedPad) :=
      greedy (fun a s => a.sort = s) (padVar relName) 0 declSorts args
    if insertedPad && left.all (isGeneratedPadArg relName) then some aligned else none

/-- `can_match` of `align_args_to_decl_sorts`: the sorts can be found in the arguments. -/
def canMatchSorts : List Expr → List SmtSort → Bool
  | _, [] => true
  | [], _ :: _ => false
  | a :: args, s :: sorts =>
    canMatchSorts args (s :: sorts) || (a.sort == s && canMatchSorts args sorts)

/-- The arguments that `align_args_to_decl_sorts` takes. -/
def trimmedArgs : List Expr → List SmtSort → List Expr
  | _, [] => []
  | [], _ :: _ => []
  | a :: args, s :: sorts =>
    if a.sort = s ∧ canMatchSorts args sorts then a :: trimmedArgs args sorts
    else trimmedArgs args (s :: sorts)

/-- `align_args_to_decl_sorts`. -/
def alignArgsToDeclSorts (args : List Expr) (declSorts : List SmtSort) : Option (List Expr) :=
  if !canMatchSorts args declSorts then none
  else
    let trimmed := trimmedArgs args declSorts
    if trimmed.length = declSorts.length then some trimmed else none

/-- `args_contain_template_in_order`. -/
def argsContainTemplateInOrder : List Expr → List Expr → Bool
  | _, [] => true
  | [], _ :: _ => false
  | a :: args, t :: template =>
    if a = t then argsContainTemplateInOrder args template
    else argsContainTemplateInOrder args (t :: template)

/-- `trim_relation_args_to_decl`. -/
def trimRelationArgsToDecl (templates : List (List Expr)) (args : List Expr)
    (declSorts : List SmtSort) : Option (List Expr) :=
  if args.length ≤ declSorts.length then none
  else
    (templates.find? fun template => argSortsMatchDecl template declSorts &&
      argsContainTemplateInOrder args template).or (alignArgsToDeclSorts args declSorts)

/-- `can_match` of `align_args_to_template`: the arguments can be found in the template. -/
def canMatchTemplate : List Expr → List Expr → Bool
  | [], _ => true
  | _ :: _, [] => false
  | a :: args, t :: template =>
    canMatchTemplate (a :: args) template || (a == t && canMatchTemplate args template)

/-- The row that `align_args_to_template` builds, for the slots from the `idx`-th on. -/
def templateRow (relName : String) : ℕ → List (Expr × SmtSort) → List Expr → List Expr
  | _, [], _ => []
  | idx, (_, s) :: slots, [] => padVar relName idx s :: templateRow relName (idx + 1) slots []
  | idx, (t, s) :: slots, a :: args =>
    if a = t ∧ canMatchTemplate args (slots.map Prod.fst) then
      a :: templateRow relName (idx + 1) slots args
    else padVar relName idx s :: templateRow relName (idx + 1) slots (a :: args)

/-- `align_args_to_template`. -/
def alignArgsToTemplate (relName : String) (args : List Expr) (declSorts : List SmtSort)
    (template : List Expr) : Option (List Expr) :=
  if !argSortsMatchDecl template declSorts || decide (template.length < args.length) then none
  else if !canMatchTemplate args template then none
  else some (templateRow relName 0 (template.zip declSorts) args)

/-- The row that the greedy alignment with skips builds, with the numbers of arguments that
were matched and of pads: an argument that fits neither the slot nor the next one is skipped. -/
def greedySkipRow (relName : String) : ℕ → List SmtSort → List Expr → List Expr × ℕ × ℕ
  | _, [], _ => ([], 0, 0)
  | idx, s :: sorts, args =>
    match args.dropWhile fun a => a.sort ≠ s ∧ sorts.head? ≠ some a.sort with
    | [] =>
      let (row, matched, padded) := greedySkipRow relName (idx + 1) sorts []
      (padVar relName idx s :: row, matched, padded + 1)
    | a :: args =>
      if a.sort = s then
        let (row, matched, padded) := greedySkipRow relName (idx + 1) sorts args
        (a :: row, matched + 1, padded)
      else
        let (row, matched, padded) := greedySkipRow relName (idx + 1) sorts (a :: args)
        (padVar relName idx s :: row, matched, padded + 1)

/-- One row of the table `cost`, from the next one. -/
def costRow (next : List SmtSort → ℕ) (a : Expr) : List SmtSort → ℕ
  | [] => 1 + next []
  | s :: sorts =>
    let skipOrPad := min (1 + next (s :: sorts)) (16 + costRow next a sorts)
    if a.sort = s then min skipOrPad (next sorts) else skipOrPad

/-- `cost`: a skipped argument costs one, a pad sixteen. -/
def alignCost : List Expr → List SmtSort → ℕ
  | [], sorts => 16 * sorts.length
  | a :: args, sorts => costRow (alignCost args) a sorts

/-- Skips the arguments that a cheapest alignment skips before it fills the slot. -/
def skipArgs (s : SmtSort) (sorts : List SmtSort) : List Expr → List Expr
  | [] => []
  | a :: args =>
    if a.sort = s ∧ alignCost (a :: args) (s :: sorts) = alignCost args sorts then a :: args
    else if alignCost (a :: args) (s :: sorts) = 1 + alignCost args (s :: sorts) then
      skipArgs s sorts args
    else a :: args

/-- The row of a cheapest alignment, with the numbers of arguments that were matched and of
pads. -/
def cheapestRow (relName : String) : ℕ → List SmtSort → List Expr → List Expr × ℕ × ℕ
  | _, [], _ => ([], 0, 0)
  | idx, s :: sorts, args =>
    match skipArgs s sorts args with
    | [] =>
      let (row, matched, padded) := cheapestRow relName (idx + 1) sorts []
      (padVar relName idx s :: row, matched, padded + 1)
    | a :: args =>
      if a.sort = s ∧ alignCost (a :: args) (s :: sorts) = alignCost args sorts then
        let (row, matched, padded) := cheapestRow relName (idx + 1) sorts args
        (a :: row, matched + 1, padded)
      else
        let (row, matched, padded) := cheapestRow relName (idx + 1) sorts (a :: args)
        (padVar relName idx s :: row, matched, padded + 1)

/-- The checks at the end of both alignments with skips. -/
def acceptSkips (args : List Expr) (declSorts : List SmtSort) :
    List Expr × ℕ × ℕ → Option (List Expr × Bool)
  | (row, matched, padded) =>
    if matched = 0 ∨ args.length - declSorts.length + 4 < padded then none
    else some (row, decide (0 < padded))

/-- `align_args_to_decl_sorts_with_skips_and_padding`. -/
def alignArgsToDeclSortsWithSkipsAndPadding (relName : String) (args : List Expr)
    (declSorts : List SmtSort) : Option (List Expr × Bool) :=
  (acceptSkips args declSorts (greedySkipRow relName 0 declSorts args)).or
    (acceptSkips args declSorts (cheapestRow relName 0 declSorts args))

/-! ### The repair of one application -/

section Repair

variable (showSort : SmtSort → String)

/-- The pads in front, or at the end, of arguments that could not be aligned. -/
def padEnds (relName : String) (args : List Expr) (declSorts : List SmtSort) : List Expr :=
  let missing := declSorts.length - args.length
  let sorts := args.map Expr.sort
  if sorts == declSorts.drop missing && sorts != declSorts.take args.length then
    (declSorts.take missing).mapIdx (taggedPadVar showSort relName) ++ args
  else
    args ++ (declSorts.drop args.length).mapIdx fun i =>
      taggedPadVar showSort relName (args.length + i)

/-- `normalized_relation_args`: the new arguments, and whether pads are used. -/
def normalizedRelationArgs (relations : List RelationDecl)
    (templates : String → List (List Expr)) (relName : String) (args : List Expr) :
    Option (List Expr × Bool) := do
  let declSorts ← relSorts relations relName
  if args.length = declSorts.length then
    if argSortsMatchDecl args declSorts then none
    else (alignArgsToDeclSortsWithPadding relName args declSorts).map (·, true)
  else if declSorts.length < args.length then
    ((trimRelationArgsToDecl (templates relName) args declSorts).map (·, false)).or
      (alignArgsToDeclSortsWithSkipsAndPadding relName args declSorts)
  else
    let aligned := ((templates relName).findSome? (alignArgsToTemplate relName args declSorts)).or
      (alignArgsToDeclSortsWithPadding relName args declSorts)
    some (aligned.getD (padEnds showSort relName args declSorts), true)

/-! ### Templates -/

mutual

/-- The function applications in a term, arguments first. -/
def funcApps : Expr → List (String × List Expr)
  | .var _ _ => []
  | .app (.funcApp name _) args => funcAppsList args ++ [(name, args)]
  | .app _ args => funcAppsList args
  | .quant _ _ b => funcApps b

/-- The function applications in a list of terms. -/
def funcAppsList : List Expr → List (String × List Expr)
  | [] => []
  | e :: es => funcApps e ++ funcAppsList es

end

/-- The applications of a rule, in the order in which they are collected. -/
def ruleApps (rule : Rule) : List (String × List Expr) :=
  (rule.head.name, rule.head.args) ::
    ((rule.body.relation.map fun a => (a.name, a.args)).toList ++
      rule.body.constraints.flatMap funcApps)

/-- `collect_full_relation_templates`: the full applications of a relation. -/
def collectFullRelationTemplates (vc : ChcVc) (name : String) : List (List Expr) :=
  (((vc.rules.flatMap ruleApps).filter fun app => app.1 == name &&
    (relSorts vc.relations app.1).any (argSortsMatchDecl app.2)).map Prod.snd).eraseDups

/-! ### The pass -/

variable (relations : List RelationDecl) (templates : String → List (List Expr))

/-- Normalized arguments, and whether pads were put in. -/
def normalizeArgs (relName : String) (args : List Expr) : List Expr × Bool :=
  (normalizedRelationArgs showSort relations templates relName args).getD (args, false)

mutual

/-- `PadRelationExprs`: the applications inside a term are normalized, arguments first. -/
def padRelationExprs : Expr → Expr × Bool
  | .var n s => (.var n s, false)
  | .app op args =>
    let (args, padded) := padRelationExprsList args
    match op with
    | .funcApp name s =>
      let (args, padded') := normalizeArgs showSort relations templates name args
      (.app (.funcApp name s) args, padded || padded')
    | op => (.app op args, padded)
  | .quant q vs b =>
    let (b, padded) := padRelationExprs b
    (.quant q vs b, padded)

/-- `PadRelationExprs` on a list of terms. -/
def padRelationExprsList : List Expr → List Expr × Bool
  | [] => ([], false)
  | e :: es =>
    let (e, padded) := padRelationExprs e
    let (es, padded') := padRelationExprsList es
    (e :: es, padded || padded')

end

/-- A relation application with normalized arguments. -/
def fixApp (app : RelationApp) : RelationApp × Bool :=
  let (args, padded) := normalizeArgs showSort relations templates app.name app.args
  (⟨app.name, args⟩, padded)

/-- The loop body of `fixup_relation_app_arities`. -/
def fixRule (rule : Rule) : Rule × Bool :=
  let (head, padded) := fixApp showSort relations templates rule.head
  let (constraints, padded') := padRelationExprsList showSort relations templates
    rule.body.constraints
  match rule.body.relation with
  | none => (⟨⟨none, constraints⟩, head⟩, padded || padded')
  | some app =>
    let (app, padded'') := fixApp showSort relations templates app
    (⟨⟨some app, constraints⟩, head⟩, padded || padded' || padded'')

end Repair

mutual

/-- The variable nodes of a term, in the order in which a stack visits them. -/
def stackVars : Expr → List (String × SmtSort)
  | .var n s => [(n, s)]
  | .app _ args => stackVarsList args
  | .quant _ _ b => stackVars b

/-- The variable nodes of a list of terms, the last term first. -/
def stackVarsList : List Expr → List (String × SmtSort)
  | [] => []
  | e :: es => stackVarsList es ++ stackVars e

end

/-- Declares the variables of the rules whose names pass the test, with the sorts they are used
at. -/
def declareUsed (test : String → Bool) (vc : ChcVc) : ChcVc :=
  let terms := vc.rules.flatMap fun rule =>
    rule.head.args ++ (rule.body.relation.map RelationApp.args).getD [] ++ rule.body.constraints
  (((terms.flatMap stackVars).filter (test ·.1)).foldl fun vc (n, s) => vc.addVar n s) vc

theorem declareUsed_rules (test : String → Bool) (vc : ChcVc) :
    (declareUsed test vc).rules = vc.rules ∧ (declareUsed test vc).relations = vc.relations :=
  ChcVc.foldl_addVar _ vc

/-- The name of a pad of either repair. -/
def isPadName (name : String) : Bool := name.startsWith "__pad_" || name.startsWith "__cpad_"

/-- `fixup_relation_app_arities`. -/
def fixupRelationAppArities (showSort : SmtSort → String) (vc : ChcVc) : ChcVc :=
  let fixed := vc.rules.map
    (fixRule showSort vc.relations (collectFullRelationTemplates vc))
  let vc' := { vc with rules := fixed.map Prod.fst }
  if fixed.any Prod.snd then declareUsed isPadName vc' else vc'

end Relations

end TrustMc
