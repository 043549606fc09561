import TrustMc.Core.Vc

/-!
# Free array bases

`normalizeFreeArrayBases` replaces the base of a store chain by a constant array when the base
is a variable of array sort that no relation application mentions. Only the bases of store
chains are replaced: the variable's other occurrences, and the constraints on it, stay.
-/

namespace TrustMc

namespace FreeArrays

/-! ### Free array variables -/

/-- `collect_relation_vars`: every variable name in the arguments, bound ones included. -/
def collectRelationVars (app : RelationApp) : List String := app.args.flatMap Expr.varNames

/-- The variables that occur in a relation application. -/
def essentialVars (vc : ChcVc) : List String :=
  vc.rules.flatMap fun rule =>
    collectRelationVars rule.head ++ rule.body.relation.toList.flatMap collectRelationVars

/-- The declared array variables that occur in no relation application. -/
def freeArrayVars (vc : ChcVc) : List String :=
  (vc.vars.filter fun v => v.2.isArray && decide (v.1 ∉ essentialVars vc)).map Prod.fst

/-! ### Store chains -/

/-- `find_store_chain_base`. -/
def findStoreChainBase : Expr → Option (String × SmtSort)
  | .var name sort => some (name, sort)
  | .store array _ _ => findStoreChainBase array
  | _ => none

/-- `rebuild_store_chain_with_base`. -/
def rebuildStoreChainWithBase (newBase : Expr) : Expr → Expr
  | .var _ _ => newBase
  | .store array index value => .store (rebuildStoreChainWithBase newBase array) index value
  | e => e

/-- `make_default_value`. -/
def makeDefaultValue (sort : SmtSort) (suffix : String) : Expr :=
  match sort.bitvecWidth with
  | some width => .bitVecConst (0 : BitVec width)
  | none =>
    if sort.isBool then .boolConst false
    else if sort.isInt then .intConst 0
    else .var ("__default_elem_" ++ suffix) sort

/-- The base of a store chain, when it is a free array: its name, index and element sort. -/
def freeBase (free : List String) : Expr → Option (String × SmtSort × SmtSort)
  | .store array index value =>
    (findStoreChainBase (.store array index value)).bind fun base =>
      if base.1 ∈ free then base.2.arraySort.map fun arrSort => (base.1, arrSort) else none
  | _ => none

/-- The constant array that replaces a free base. -/
def constBase (base : String × SmtSort × SmtSort) : Expr :=
  .app (.constArray base.2.1) [makeDefaultValue base.2.2 base.1]

/-! ### The pass -/

mutual

/-- `rewrite_free_bases_in_expr`: the rewritten term and the number of replacements. The
arms for stores, equations and selects do what the general one does. -/
def rewriteFreeBasesInExpr (free : List String) : Expr → Expr × ℕ
  | .var name sort => (.var name sort, 0)
  | .app op args =>
    match freeBase free (.app op args) with
    | some base => (rebuildStoreChainWithBase (constBase base) (.app op args), 1)
    | none =>
      let (newArgs, count) := rewriteFreeBasesInList free args
      if count > 0 then (.app op newArgs, count) else (.app op args, 0)
  | .quant q vars body =>
    let (newBody, count) := rewriteFreeBasesInExpr free body
    if count > 0 then (.quant q vars newBody, count) else (.quant q vars body, 0)

/-- The rewritten terms of a list and the number of replacements. -/
def rewriteFreeBasesInList (free : List String) : List Expr → List Expr × ℕ
  | [] => ([], 0)
  | e :: es =>
    let (newE, count) := rewriteFreeBasesInExpr free e
    let (newEs, count') := rewriteFreeBasesInList free es
    (newE :: newEs, count + count')

end

/-- The rewrite of one rule and the number of replacements. -/
def normalizeRule (free : List String) (rule : Rule) : Rule × ℕ :=
  let (newConstraints, count) := rewriteFreeBasesInList free rule.body.constraints
  if count > 0 then ({ rule with body := { rule.body with constraints := newConstraints } }, count)
  else (rule, 0)

/-- `normalize_free_array_bases`: the rewritten condition and the number of replacements. -/
def normalizeFreeArrayBases (vc : ChcVc) : ChcVc × ℕ :=
  let free := freeArrayVars vc
  if free.isEmpty then (vc, 0)
  else
    ({ vc with rules := vc.rules.map fun rule => (normalizeRule free rule).1 },
      (vc.rules.map fun rule => (normalizeRule free rule).2).sum)

end FreeArrays

end TrustMc
