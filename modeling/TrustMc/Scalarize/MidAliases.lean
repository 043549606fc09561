import TrustMc.Scalarize.CarryLanes
import TrustMc.Scalarize.ConstIdx

/-!
# Aliases of intermediate frames

A composed rule names an array that it leaves alone once more for every block it passes
(`X__mid_bbN`) and equates the names. `collapseMidAliases` puts one of two equated names for the
other throughout the rule, until no such equation is left; every step drops an equation, so
the number of constraints bounds the steps (`collapseLoop_complete`). A rule that defines an
alias in another way is left alone.
-/

namespace TrustMc

namespace Scalarize

/-- `is_mid_name`. -/
def isMidName (name : String) : Bool := nameContains name "__mid_bb"

/-- The alias that an equation of two array variables defines, with the variable that replaces
it: `as_mid_identity` and the choice of a direction. -/
def asMidIdentity : Expr → Option (String × Expr)
  | .app .eq [.var a s, .var b t] =>
    if s.isArray && t.isArray && (isMidName a || isMidName b) then
      if isMidName a then some (a, .var b t) else some (b, .var a s)
    else none
  | _ => none

mutual

/-- `substitute_var`. -/
def substituteVar (mid : String) (root : Expr) : Expr → Expr
  | .var name sort => if name = mid then root else .var name sort
  | .app op args => .app op (substituteVarList mid root args)
  | .quant q vars body => .quant q vars (substituteVar mid root body)

/-- `substitute_var` on a list of terms. -/
def substituteVarList (mid : String) (root : Expr) : List Expr → List Expr
  | [] => []
  | e :: es => substituteVar mid root e :: substituteVarList mid root es

end

/-- `substitute_in_app`. -/
def substituteInApp (mid : String) (root : Expr) (app : RelationApp) : RelationApp :=
  ⟨app.name, app.args.map (substituteVar mid root)⟩

/-- `is_tautological_eq`. -/
def isTautologicalEq : Expr → Bool
  | .app .eq [lhs, rhs] => lhs == rhs
  | _ => false

/-- The term is an array variable and an alias. -/
def isMidArray : Expr → Bool
  | .var name sort => isMidName name && sort.isArray
  | _ => false

/-- `rule_has_non_identity_mid_definition`. -/
def ruleHasNonIdentityMidDefinition (constraints : List Expr) : Bool :=
  constraints.any fun constraint =>
    match constraint with
    | .app .eq [lhs, rhs] =>
      isMidArray lhs && (asVarName rhs).isNone || isMidArray rhs && (asVarName lhs).isNone
    | _ => false

/-! ### The pass -/

/-- One alias is replaced. -/
def collapseStep (mid : String) (root : Expr) (rule : Rule) : Rule :=
  ⟨⟨rule.body.relation.map (substituteInApp mid root),
      (rule.body.constraints.map (substituteVar mid root)).filter (!isTautologicalEq ·)⟩,
    substituteInApp mid root rule.head⟩

/-- The loop over the aliases of one rule. -/
def collapseLoop : ℕ → Rule → Rule
  | 0, rule => rule
  | n + 1, rule =>
    match rule.body.constraints.findSome? asMidIdentity with
    | none => rule
    | some (mid, root) => collapseLoop n (collapseStep mid root rule)

/-- The aliases of one rule. -/
def collapseRule (rule : Rule) : Rule :=
  if ruleHasNonIdentityMidDefinition rule.body.constraints then rule
  else collapseLoop rule.body.constraints.length rule

/-- `collapse_mid_aliases`. -/
def collapseMidAliases (vc : ChcVc) : ChcVc := { vc with rules := vc.rules.map collapseRule }

/-! ### The loop -/

/-- The equation that defines an alias becomes a tautology. -/
theorem isTautologicalEq_substituteVar {c root : Expr} {mid : String}
    (h : asMidIdentity c = some (mid, root)) :
    isTautologicalEq (substituteVar mid root c) = true := by
  match c, h with
  | .app .eq [.var a s, .var b t], h =>
    simp only [asMidIdentity] at h
    split_ifs at h
    · obtain ⟨rfl, rfl⟩ := Prod.mk.inj (Option.some.inj h)
      simp [substituteVar, substituteVarList, isTautologicalEq]
    · obtain ⟨rfl, rfl⟩ := Prod.mk.inj (Option.some.inj h)
      simp [substituteVar, substituteVarList, isTautologicalEq]

/-- Every step drops a constraint. -/
theorem length_collapseStep {rule : Rule} {mid : String} {root : Expr}
    (h : rule.body.constraints.findSome? asMidIdentity = some (mid, root)) :
    (collapseStep mid root rule).body.constraints.length < rule.body.constraints.length := by
  obtain ⟨c, hc, hdef⟩ := List.exists_of_findSome?_eq_some h
  have hmem := List.mem_map_of_mem (f := substituteVar mid root) hc
  have htaut := isTautologicalEq_substituteVar hdef
  calc ((rule.body.constraints.map (substituteVar mid root)).filter
        (!isTautologicalEq ·)).length
      < (rule.body.constraints.map (substituteVar mid root)).length :=
        List.length_filter_lt_length_iff_exists.2 ⟨_, hmem, by simp [htaut]⟩
    _ = rule.body.constraints.length := List.length_map _

/-- **The number of constraints bounds the steps**: no alias is left that an equation defines. -/
theorem collapseLoop_complete {n : ℕ} {rule : Rule} (h : rule.body.constraints.length ≤ n) :
    (collapseLoop n rule).body.constraints.findSome? asMidIdentity = none := by
  induction n generalizing rule with
  | zero =>
    rw [collapseLoop, List.length_eq_zero_iff.1 (Nat.le_zero.1 h), List.findSome?_nil]
  | succ n ih =>
    rw [collapseLoop]
    split
    · assumption
    · exact ih (Nat.le_of_lt_succ ((length_collapseStep ‹_›).trans_le h))

end Scalarize

end TrustMc
