import Mathlib.Data.List.Dedup
import TrustMc.Scalarize.Identify
import TrustMc.Scalarize.Redeclare

/-!
# Arrays replaced by their lanes

Given the arrays to scalarize, a read at a tracked index becomes the lane variable, an equation
that defines an array becomes one equation a lane, and an argument that is an array becomes its
lanes (`expandRelationApp`). What column holds which array is planned from the names that all
applications of a relation have there; an argument without a name is read at the lanes of the
planned array.

A read at an index that is not constant, and any other mention that is left, rejects its array:
the rewrite is discarded, the array banned and the search repeated (`selectArrays`). A rejected
array is one of the candidates, so their number bounds the attempts
(`selectArrays_of_length_lt`).
-/

namespace TrustMc

namespace Scalarize

open DeadScalars

/-! ### Names of lanes -/

/-- `RewriteContext`. -/
structure RewriteContext where
  /-- The variables that were made for reads of untracked lanes. -/
  extraVars : List (String × SmtSort)
  /-- The number of the next of them. -/
  nextDeadConstLane : ℕ
  /-- The arrays that are read at an index that is not constant. -/
  rejectedArrays : List String

/-- `RewriteContext::new`. -/
def RewriteContext.new : RewriteContext := ⟨[], 0, []⟩

/-- `reject_array`. -/
def RewriteContext.rejectArray (ctx : RewriteContext) (name : String) : RewriteContext :=
  if name ∈ ctx.rejectedArrays then ctx
  else { ctx with rejectedArrays := ctx.rejectedArrays ++ [name] }

/-- `dead_const_lane_var`. -/
def RewriteContext.deadConstLaneVar (ctx : RewriteContext) (arrayName : String)
    (sort : SmtSort) : Expr × RewriteContext :=
  let name := arrayName ++ "_dead_const_lane_" ++ toString ctx.nextDeadConstLane
  (.var name sort,
    { ctx with
      nextDeadConstLane := ctx.nextDeadConstLane + 1
      extraVars := ctx.extraVars ++ [(name, sort)] })

/-- The variable of a lane: `scalar_input_name` or `scalar_output_name`. -/
def ScalarInfo.laneVar (info : ScalarInfo) (isOutput : Bool) (lane : ConstIdx × String) : Expr :=
  .var (if isOutput then lane.2 ++ "__out" else lane.2) info.elemSort

/-- The variables of all lanes. -/
def ScalarInfo.laneVars (info : ScalarInfo) (isOutput : Bool) : List Expr :=
  info.indexToScalar.map (info.laneVar isOutput)

/-- The lane of an index. -/
def ScalarInfo.lane (info : ScalarInfo) (idx : ConstIdx) : Option (ConstIdx × String) :=
  info.indexToScalar.find? (·.1 == idx)

section Infos

variable (infos : List ScalarInfo)

/-- `by_input`. -/
def byInput (name : String) : Option ScalarInfo := infos.reverse.find? (·.inputName == name)

/-- `by_output`. -/
def byOutput (name : String) : Option ScalarInfo := infos.reverse.find? (·.outputName == name)

/-- `scalar_info_for_array_var`: the array and whether the name is that of its output. -/
def scalarInfoForArrayVar (name : String) : Option (ScalarInfo × Bool) :=
  ((byInput infos name).map (·, false)).or ((byOutput infos name).map (·, true))

/-- `scalar_expr_for_array_var`. -/
def scalarExprForArrayVar (name : String) (idx : ConstIdx) : Option Expr := do
  let (info, isOutput) ← scalarInfoForArrayVar infos name
  (info.lane idx).map (info.laneVar isOutput)

/-! ### Terms -/

/-- The `Select` arm of `rewrite_expr` on an array variable. -/
def rewriteSelect (info : ScalarInfo) (isOutput : Bool) (name : String) (sort : SmtSort)
    (index : Expr) (ctx : RewriteContext) : Expr × RewriteContext :=
  match tryExtractConstIdx index with
  | some idx =>
    match info.lane idx with
    | some lane => (info.laneVar isOutput lane, ctx)
    | none => ctx.deadConstLaneVar name info.elemSort
  | none => ((Expr.var name sort).select index, ctx.rejectArray info.inputName)

mutual

/-- `rewrite_expr`. -/
def rewriteExpr : Expr → RewriteContext → Expr × RewriteContext
  | .var name sort, ctx => (.var name sort, ctx)
  | .app .select [.var name sort, index], ctx =>
    match scalarInfoForArrayVar infos name with
    | some (info, isOutput) => rewriteSelect info isOutput name sort index ctx
    | none =>
      let (newIndex, ctx) := rewriteExpr index ctx
      ((Expr.var name sort).select newIndex, ctx)
  | .app op args, ctx =>
    let (newArgs, ctx) := rewriteExprs args ctx
    (.app op newArgs, ctx)
  | .quant q vars body, ctx =>
    let (newBody, ctx) := rewriteExpr body ctx
    (.quant q vars newBody, ctx)

/-- `rewrite_expr` on a list of terms. -/
def rewriteExprs : List Expr → RewriteContext → List Expr × RewriteContext
  | [], ctx => ([], ctx)
  | e :: es, ctx =>
    let (newE, ctx) := rewriteExpr e ctx
    let (newEs, ctx) := rewriteExprs es ctx
    (newE :: newEs, ctx)

end

/-! ### Constraints -/

/-- `rewrite_expr_for_eq`. -/
def rewriteExprForEq (lhs rhs : Expr) (ctx : RewriteContext) : Expr × RewriteContext :=
  let (newLhs, ctx) := rewriteExpr infos lhs ctx
  let (newRhs, ctx) := rewriteExpr infos rhs ctx
  (newLhs.eq newRhs, ctx)

/-- Every lane is equated with the value, which is rewritten for each lane. -/
def laneInits (info : ScalarInfo) (isOutput : Bool) (value : Expr) :
    List (ConstIdx × String) → RewriteContext → List Expr × RewriteContext
  | [], ctx => ([], ctx)
  | lane :: lanes, ctx =>
    let (newValue, ctx) := rewriteExpr infos value ctx
    let (rest, ctx) := laneInits info isOutput value lanes ctx
    ((info.laneVar isOutput lane).eq newValue :: rest, ctx)

/-- `build_scalar_store_constraints`. -/
def buildScalarStoreConstraints (info : ScalarInfo) (stores : List (ConstIdx × Expr))
    (default : Option Expr) : List Expr :=
  info.indexToScalar.map fun lane =>
    (info.laneVar true lane).eq
      (((storedValue stores lane.1).or default).getD (info.laneVar false lane))

/-- `build_scalar_input_store_constraints`. -/
def buildScalarInputStoreConstraints (info : ScalarInfo) (stores : List (ConstIdx × Expr))
    (default : Option Expr) : List Expr :=
  info.indexToScalar.filterMap fun lane =>
    ((storedValue stores lane.1).or default).map (info.laneVar false lane).eq

/-- `build_scalar_copy_constraints`. -/
def buildScalarCopyConstraints (info : ScalarInfo) (base : String) : List Expr :=
  info.indexToScalar.filterMap fun lane =>
    (scalarExprForArrayVar infos base lane.1).map (info.laneVar true lane).eq

/-- `build_scalar_store_constraints_from_base`. -/
def buildScalarStoreConstraintsFromBase (info : ScalarInfo) (base : String)
    (stores : List (ConstIdx × Expr)) : List Expr :=
  info.indexToScalar.filterMap fun lane =>
    ((storedValue stores lane.1).or (scalarExprForArrayVar infos base lane.1)).map
      (info.laneVar true lane).eq

/-- A chain of stores that an output is equated with. -/
def rewriteOutputStore (info : ScalarInfo) (valSide : Expr) : Option (List Expr) := do
  let (base, stores) ← decomposeStoreChain valSide
  if base = info.inputName then some (buildScalarStoreConstraints info stores none)
  else if base = constArrayBase then
    some (buildScalarStoreConstraints info stores (constArrayDefaultForStoreChain valSide))
  else if (scalarInfoForArrayVar infos base).isSome then
    some (buildScalarStoreConstraintsFromBase infos info base stores)
  else none

/-- An array that an output is equated with. -/
def rewriteOutputCopy (info : ScalarInfo) (valSide : Expr) : Option (List Expr) :=
  let isScalarized := fun name => (scalarInfoForArrayVar infos name).isSome
  match valSide with
  | .var name _ =>
    if name = info.inputName then
      some (info.indexToScalar.map fun lane =>
        (info.laneVar true lane).eq (info.laneVar false lane))
    else if isScalarized name then some (buildScalarCopyConstraints infos info name)
    else none
  | _ =>
    (transparentForwardedArrayBase isScalarized valSide).map
      (buildScalarCopyConstraints infos info)

/-- `try_rewrite_output_constraint`. -/
def tryRewriteOutputConstraint (varSide valSide : Expr) (ctx : RewriteContext) :
    Option (List Expr × RewriteContext) := do
  let info ← byOutput infos (← asVarName varSide)
  let plain := (rewriteExprForEq infos varSide valSide ctx).map ([·]) id
  match valSide with
  | .app .store _ => pure (((rewriteOutputStore infos info valSide).map (·, ctx)).getD plain)
  | .app (.constArray _) [value] => pure (laneInits infos info true value info.indexToScalar ctx)
  | _ => pure (((rewriteOutputCopy infos info valSide).map (·, ctx)).getD plain)

/-- `try_rewrite_input_init`. -/
def tryRewriteInputInit (varSide valSide : Expr) (ctx : RewriteContext) :
    Option (List Expr × RewriteContext) := do
  let info ← byInput infos (← asVarName varSide)
  match valSide with
  | .app (.constArray _) [value] => pure (laneInits infos info false value info.indexToScalar ctx)
  | .app .store _ =>
    let (base, stores) ← decomposeStoreChain valSide
    if base = constArrayBase then
      pure (buildScalarInputStoreConstraints info stores
        (constArrayDefaultForStoreChain valSide), ctx)
    else none
  | _ => none

/-- `rewrite_constraint`. -/
def rewriteConstraint (constraint : Expr) (ctx : RewriteContext) : List Expr × RewriteContext :=
  let special :=
    match constraint with
    | .app .eq [lhs, rhs] =>
      (((tryRewriteOutputConstraint infos lhs rhs ctx).or
        (tryRewriteOutputConstraint infos rhs lhs ctx)).or
          (tryRewriteInputInit infos lhs rhs ctx)).or (tryRewriteInputInit infos rhs lhs ctx)
    | _ => none
  special.getD ((rewriteExpr infos constraint ctx).map ([·]) id)

/-- `rewrite_constraint` on the constraints of a rule. -/
def rewriteConstraints : List Expr → RewriteContext → List Expr × RewriteContext
  | [], ctx => ([], ctx)
  | c :: cs, ctx =>
    let (new, ctx) := rewriteConstraint infos c ctx
    let (rest, ctx) := rewriteConstraints cs ctx
    (new ++ rest, ctx)

/-! ### Applications -/

/-- `PlanSlot`. -/
inductive PlanSlot
  /-- No application names a variable here. -/
  | unknown
  /-- Every variable that is named here is the array, before or after the step. -/
  | array (info : ScalarInfo)
  /-- The applications disagree. -/
  | conflict

/-- What one more argument tells about its column. -/
def PlanSlot.observe (slot : PlanSlot) (arg : Expr) : PlanSlot :=
  match asVarName arg with
  | none => slot
  | some name =>
    match slot, (scalarInfoForArrayVar infos name).map Prod.fst with
    | .conflict, _ | _, none => .conflict
    | .unknown, some info => .array info
    | .array seen, some info => if seen = info then .array seen else .conflict

/-- The array that a column holds. -/
def PlanSlot.info : PlanSlot → Option ScalarInfo
  | .array info => some info
  | _ => none

/-- `observe`: one application; if it does not have the declared arity, all columns conflict. -/
def observePlan (arity : ℕ) (columns : List PlanSlot) (app : RelationApp) : List PlanSlot :=
  if app.args.length ≠ arity then columns.map fun _ => .conflict
  else List.zipWith (PlanSlot.observe infos) columns app.args

/-- `scalarize_position_plan`. -/
def scalarizePositionPlan (vc : ChcVc) (name : String) : List (Option ScalarInfo) :=
  match declArity vc name with
  | none => []
  | some arity =>
    ((DeadArgs.appsOf vc name).foldl (observePlan infos arity)
      (List.replicate arity .unknown)).map PlanSlot.info

/-- The arguments that replace one: the lanes of the array that it names, or its values at the
lanes of the array that the column holds. -/
def expandArg (planned : Option ScalarInfo) (arg : Expr) : List Expr :=
  match (asVarName arg).bind (scalarInfoForArrayVar infos) with
  | some (info, isOutput) => info.laneVars isOutput
  | none =>
    match planned with
    | some info => info.indexToScalar.map fun lane => arg.select lane.1.toExpr
    | none => [arg]

/-- `expand_relation_app`. -/
def expandRelationApp (plan : String → List (Option ScalarInfo)) (app : RelationApp) :
    RelationApp :=
  ⟨app.name, app.args.zipIdx.flatMap fun p => expandArg infos (plan app.name)[p.2]?.join p.1⟩

/-! ### Staging -/

/-- A rule that is rewritten: the new constraints are rewritten once more. -/
def stageRule (plan : String → List (Option ScalarInfo)) (rule : Rule) (ctx : RewriteContext) :
    Rule × RewriteContext :=
  let (constraints, ctx) := rewriteConstraints infos rule.body.constraints ctx
  let (constraints, ctx) := rewriteExprs infos constraints ctx
  (⟨⟨rule.body.relation.map (expandRelationApp infos plan), constraints⟩,
    expandRelationApp infos plan rule.head⟩, ctx)

/-- Rules that are rewritten one after the other. -/
def stageRules (plan : String → List (Option ScalarInfo)) :
    List Rule → RewriteContext → List Rule × RewriteContext
  | [], ctx => ([], ctx)
  | rule :: rules, ctx =>
    let (staged, ctx) := stageRule infos plan rule ctx
    let (rest, ctx) := stageRules plan rules ctx
    (staged :: rest, ctx)

/-- `stage_rule_rewrites`. -/
def stageRuleRewrites (vc : ChcVc) : List Rule × RewriteContext :=
  stageRules infos (scalarizePositionPlan infos vc) vc.rules .new

/-- `residual_scalarized_array_mentions`. -/
def residualScalarizedArrayMentions (staged : List Rule) : List String :=
  let terms := staged.flatMap fun rule =>
    rule.body.constraints ++ rule.head.args ++ (rule.body.relation.map RelationApp.args).getD []
  (terms.flatMap Expr.varNames).filterMap fun name =>
    (scalarInfoForArrayVar infos name).map fun p => p.1.inputName

end Infos

/-- The loop of `scalarize_vc`: arrays whose rewrite is rejected are banned. -/
def selectArrays (vc : ChcVc) :
    ℕ → List String → Option (List ScalarInfo × List Rule × RewriteContext)
  | 0, _ => none
  | n + 1, banned =>
    let infos := identifyScalarizableArrays vc banned
    if infos = [] then none
    else
      let (staged, ctx) := stageRuleRewrites infos vc
      let rejected := residualScalarizedArrayMentions infos staged ++ ctx.rejectedArrays
      if rejected = [] then some (infos, staged, ctx)
      else selectArrays vc n (banned ++ rejected)

/-! ### The commitment -/

/-- The variables that the rewrite adds. -/
def addedVars (infos : List ScalarInfo) (ctx : RewriteContext) : List (String × SmtSort) :=
  (infos.flatMap fun info => info.indexToScalar.flatMap fun lane =>
    [(lane.2, info.elemSort), (lane.2 ++ "__out", info.elemSort)]) ++ ctx.extraVars

/-- The rewrite is committed: the rules, the declarations and the variables. -/
def commitRewrite (vc : ChcVc) (infos : List ScalarInfo) (staged : List Rule)
    (ctx : RewriteContext) : ChcVc :=
  (addedVars infos ctx).foldl (fun vc (n, s) => vc.addVar n s)
    { vc with
      rules := staged
      relations := vc.relations.map (redeclare (staged.flatMap Rule.apps)) }

/-! ### The attempts

What is rejected is one of the arrays, so that every attempt has fewer candidates than the one
before. -/

/-- The rejected arrays are among the names. -/
def RewriteContext.RejectsOnly (names : List String) (ctx : RewriteContext) : Prop :=
  ∀ name ∈ ctx.rejectedArrays, name ∈ names

section Rejected

variable {infos : List ScalarInfo} {ctx : RewriteContext}

theorem mem_of_scalarInfoForArrayVar {name : String} {p : ScalarInfo × Bool}
    (h : scalarInfoForArrayVar infos name = some p) : p.1 ∈ infos := by
  rcases Option.or_eq_some_iff.1 h with h | ⟨-, h⟩
  · obtain ⟨info, hinfo, rfl⟩ := Option.map_eq_some_iff.1 h
    exact List.mem_reverse.1 (List.mem_of_find?_eq_some hinfo)
  · obtain ⟨info, hinfo, rfl⟩ := Option.map_eq_some_iff.1 h
    exact List.mem_reverse.1 (List.mem_of_find?_eq_some hinfo)

theorem rejectsOnly_rewriteSelect {info : ScalarInfo} (hinfo : info ∈ infos) {isOutput : Bool}
    {name : String} {sort : SmtSort} {index : Expr}
    (h : ctx.RejectsOnly (infos.map ScalarInfo.inputName)) :
    (rewriteSelect info isOutput name sort index ctx).2.RejectsOnly
      (infos.map ScalarInfo.inputName) := by
  unfold rewriteSelect
  split
  · split
    · exact h
    · exact h
  · intro rejected hrejected
    change rejected ∈ (ctx.rejectArray info.inputName).rejectedArrays at hrejected
    rw [RewriteContext.rejectArray] at hrejected
    split_ifs at hrejected
    · exact h rejected hrejected
    · rcases List.mem_append.1 hrejected with hrejected | hrejected
      · exact h rejected hrejected
      · exact List.mem_singleton.1 hrejected ▸ List.mem_map_of_mem hinfo

mutual

theorem rejectsOnly_rewriteExpr : ∀ (e : Expr) {ctx : RewriteContext},
    ctx.RejectsOnly (infos.map ScalarInfo.inputName) →
      (rewriteExpr infos e ctx).2.RejectsOnly (infos.map ScalarInfo.inputName)
  | .var _ _, _, h => h
  | .quant _ _ body, _, h => rejectsOnly_rewriteExpr body h
  | .app op args, ctx, h => by
    rw [rewriteExpr.eq_def]
    split
    · exact h
    · rename_i index heq
      split
      · exact rejectsOnly_rewriteSelect (mem_of_scalarInfoForArrayVar ‹_›) h
      · obtain ⟨rfl, rfl⟩ := Expr.app.inj heq
        exact rejectsOnly_rewriteExpr index h
    · rename_i heq
      obtain ⟨rfl, rfl⟩ := Expr.app.inj heq
      exact rejectsOnly_rewriteExprs args h
    · rename_i heq
      cases heq

theorem rejectsOnly_rewriteExprs : ∀ (es : List Expr) {ctx : RewriteContext},
    ctx.RejectsOnly (infos.map ScalarInfo.inputName) →
      (rewriteExprs infos es ctx).2.RejectsOnly (infos.map ScalarInfo.inputName)
  | [], _, h => h
  | e :: es, _, h => rejectsOnly_rewriteExprs es (rejectsOnly_rewriteExpr e h)

end

theorem rejectsOnly_laneInits {info : ScalarInfo} {isOutput : Bool} {value : Expr}
    {lanes : List (ConstIdx × String)} (h : ctx.RejectsOnly (infos.map ScalarInfo.inputName)) :
    (laneInits infos info isOutput value lanes ctx).2.RejectsOnly
      (infos.map ScalarInfo.inputName) := by
  induction lanes generalizing ctx with
  | nil => exact h
  | cons lane lanes ih => exact ih (rejectsOnly_rewriteExpr value h)

theorem rejectsOnly_getD {new : Option (List Expr)} {plain : List Expr × RewriteContext}
    (h : ctx.RejectsOnly (infos.map ScalarInfo.inputName))
    (hplain : plain.2.RejectsOnly (infos.map ScalarInfo.inputName)) :
    ((new.map (·, ctx)).getD plain).2.RejectsOnly (infos.map ScalarInfo.inputName) := by
  cases new with
  | none => exact hplain
  | some new => exact h

theorem rejectsOnly_tryRewriteOutputConstraint {varSide valSide : Expr}
    {r : List Expr × RewriteContext} (h : ctx.RejectsOnly (infos.map ScalarInfo.inputName))
    (hr : tryRewriteOutputConstraint infos varSide valSide ctx = some r) :
    r.2.RejectsOnly (infos.map ScalarInfo.inputName) := by
  unfold tryRewriteOutputConstraint at hr
  obtain ⟨name, -, hr⟩ := Option.bind_eq_some_iff.1 hr
  obtain ⟨info, -, hr⟩ := Option.bind_eq_some_iff.1 hr
  have hplain : (rewriteExprForEq infos varSide valSide ctx).2.RejectsOnly
      (infos.map ScalarInfo.inputName) :=
    rejectsOnly_rewriteExpr valSide (rejectsOnly_rewriteExpr varSide h)
  dsimp only at hr
  split at hr
  · obtain rfl := Option.some.inj hr
    exact rejectsOnly_getD h hplain
  · obtain rfl := Option.some.inj hr
    exact rejectsOnly_laneInits h
  · obtain rfl := Option.some.inj hr
    exact rejectsOnly_getD h hplain

theorem rejectsOnly_tryRewriteInputInit {varSide valSide : Expr}
    {r : List Expr × RewriteContext} (h : ctx.RejectsOnly (infos.map ScalarInfo.inputName))
    (hr : tryRewriteInputInit infos varSide valSide ctx = some r) :
    r.2.RejectsOnly (infos.map ScalarInfo.inputName) := by
  unfold tryRewriteInputInit at hr
  obtain ⟨name, -, hr⟩ := Option.bind_eq_some_iff.1 hr
  obtain ⟨info, -, hr⟩ := Option.bind_eq_some_iff.1 hr
  split at hr
  · obtain rfl := Option.some.inj hr
    exact rejectsOnly_laneInits h
  · obtain ⟨⟨base, stores⟩, -, hr⟩ := Option.bind_eq_some_iff.1 hr
    dsimp only at hr
    split_ifs at hr
    obtain rfl := Option.some.inj hr
    exact h
  · cases hr

theorem rejectsOnly_rewriteConstraint (c : Expr)
    (h : ctx.RejectsOnly (infos.map ScalarInfo.inputName)) :
    (rewriteConstraint infos c ctx).2.RejectsOnly (infos.map ScalarInfo.inputName) := by
  have hplain : ((rewriteExpr infos c ctx).map ([·]) id).2.RejectsOnly
      (infos.map ScalarInfo.inputName) := rejectsOnly_rewriteExpr c h
  unfold rewriteConstraint
  dsimp only
  split
  · rename_i lhs rhs
    cases hspecial : (((tryRewriteOutputConstraint infos lhs rhs ctx).or
        (tryRewriteOutputConstraint infos rhs lhs ctx)).or
          (tryRewriteInputInit infos lhs rhs ctx)).or (tryRewriteInputInit infos rhs lhs ctx) with
    | none => exact hplain
    | some r =>
      rcases Option.or_eq_some_iff.1 hspecial with hspecial | ⟨-, hr⟩
      · rcases Option.or_eq_some_iff.1 hspecial with hspecial | ⟨-, hr⟩
        · rcases Option.or_eq_some_iff.1 hspecial with hr | ⟨-, hr⟩
          · exact rejectsOnly_tryRewriteOutputConstraint h hr
          · exact rejectsOnly_tryRewriteOutputConstraint h hr
        · exact rejectsOnly_tryRewriteInputInit h hr
      · exact rejectsOnly_tryRewriteInputInit h hr
  · exact hplain

theorem rejectsOnly_rewriteConstraints (cs : List Expr)
    (h : ctx.RejectsOnly (infos.map ScalarInfo.inputName)) :
    (rewriteConstraints infos cs ctx).2.RejectsOnly (infos.map ScalarInfo.inputName) := by
  induction cs generalizing ctx with
  | nil => exact h
  | cons c cs ih => exact ih (rejectsOnly_rewriteConstraint c h)

theorem rejectsOnly_stageRules {plan : String → List (Option ScalarInfo)} (rules : List Rule)
    (h : ctx.RejectsOnly (infos.map ScalarInfo.inputName)) :
    (stageRules infos plan rules ctx).2.RejectsOnly (infos.map ScalarInfo.inputName) := by
  induction rules generalizing ctx with
  | nil => exact h
  | cons rule rules ih =>
    exact ih (rejectsOnly_rewriteExprs _ (rejectsOnly_rewriteConstraints _ h))

/-- What a rewrite rejects is one of the arrays. -/
theorem rejected_subset {vc : ChcVc} {name : String}
    (h : name ∈ residualScalarizedArrayMentions infos (stageRuleRewrites infos vc).1 ++
      (stageRuleRewrites infos vc).2.rejectedArrays) :
    name ∈ infos.map ScalarInfo.inputName := by
  rcases List.mem_append.1 h with h | h
  · obtain ⟨mentioned, -, hname⟩ := List.mem_filterMap.1 h
    obtain ⟨p, hp, rfl⟩ := Option.map_eq_some_iff.1 hname
    exact List.mem_map_of_mem (mem_of_scalarInfoForArrayVar hp)
  · have hnew : RewriteContext.new.RejectsOnly (infos.map ScalarInfo.inputName) :=
      fun _ hnil => nomatch hnil
    exact rejectsOnly_stageRules vc.rules hnew name h

end Rejected

/-- The arrays are declared and not banned. -/
theorem mem_inputVars {vc : ChcVc} {banned : List String} {info : ScalarInfo}
    (h : info ∈ identifyScalarizableArrays vc banned) :
    info.inputName ∈ (inputVars vc banned).map Prod.fst := by
  obtain ⟨name, hname, hinfo⟩ := List.mem_filterMap.1 h
  dsimp only at hinfo
  split_ifs at hinfo
  obtain ⟨v, -, hinfo⟩ := Option.bind_eq_some_iff.1 hinfo
  obtain ⟨s, -, hinfo⟩ := Option.bind_eq_some_iff.1 hinfo
  obtain rfl := Option.some.inj hinfo
  exact List.mem_dedup.1 hname

/-- Banning a candidate leaves fewer. -/
theorem length_inputVars_lt {vc : ChcVc} {banned rejected : List String} {name : String}
    (hname : name ∈ (inputVars vc banned).map Prod.fst) (hrejected : name ∈ rejected) :
    (inputVars vc (banned ++ rejected)).length < (inputVars vc banned).length := by
  obtain ⟨v, hv, rfl⟩ := List.mem_map.1 hname
  have hfilter : inputVars vc (banned ++ rejected) =
      (inputVars vc banned).filter fun v => decide (v.1 ∉ rejected) := by
    rw [inputVars, inputVars, List.filter_filter]
    refine List.filter_congr fun v _ => ?_
    by_cases hbanned : v.1 ∈ banned
    · simp [hbanned]
    · by_cases hrejected : v.1 ∈ rejected
      · simp [hrejected]
      · simp [hbanned, hrejected]
  rw [hfilter]
  exact List.length_filter_lt_length_iff_exists.2 ⟨v, hv, by simpa using hrejected⟩

/-- **The candidates bound the attempts.** -/
theorem selectArrays_of_length_lt {vc : ChcVc} {m n : ℕ} {banned : List String}
    (hm : (inputVars vc banned).length < m) (hn : (inputVars vc banned).length < n) :
    selectArrays vc m banned = selectArrays vc n banned := by
  induction m generalizing n banned with
  | zero => exact absurd hm (Nat.not_lt_zero _)
  | succ m ih =>
    cases n with
    | zero => exact absurd hn (Nat.not_lt_zero _)
    | succ n =>
      rw [selectArrays, selectArrays]
      dsimp only
      set infos := identifyScalarizableArrays vc banned with hinfos
      set rejected := residualScalarizedArrayMentions infos (stageRuleRewrites infos vc).1 ++
        (stageRuleRewrites infos vc).2.rejectedArrays with hrejected
      split_ifs with hnone hdone
      · rfl
      · rfl
      · obtain ⟨name, hname⟩ := List.exists_mem_of_ne_nil _ hdone
        obtain ⟨info, hinfo, heq⟩ := List.mem_map.1 (rejected_subset hname)
        have hinput : name ∈ (inputVars vc banned).map Prod.fst := heq ▸ mem_inputVars hinfo
        have hlt := length_inputVars_lt hinput hname
        exact ih (by omega) (by omega)

end Scalarize

end TrustMc
