import TrustMc.Budget.Fixpoint
import TrustMc.Core.Vc
import TrustMc.ConstProp.Subst

/-!
# Known constants of a rule

What constant propagation learns from one rule: constants that flow through the equations of
its constraints (`propagateThroughEqualities`), through arrays that are stored to and read
back (`resolveArrayStoreSelects`), and to `__out` variables that no constraint mentions
(`propagateToUnconstrainedOutVars`).

* Constraints are flattened first, so that equations under conjunctions are seen.
* A loop of the source that runs until nothing changes adds a name to a map in every round
  that changes something, and an equation adds at most one name; the number of equations
  bounds the rounds.
-/

namespace TrustMc

namespace ConstProp

open Budget

/-! ### Equations -/

mutual

/-- `flatten_and`. -/
def flattenAnd : Expr → List Expr
  | .app .and children => flattenAndList children
  | e => [e]

/-- `flatten_and` on the children of a conjunction. -/
def flattenAndList : List Expr → List Expr
  | [] => []
  | e :: es => flattenAnd e ++ flattenAndList es

end

/-- `flatten_conjunctions`. -/
def flattenConjunctions (constraints : List Expr) : List Expr := flattenAndList constraints

/-- Records a constant for a name that has none yet. -/
def learn (known : Known) (name : String) (constant : Option Expr) : Known :=
  match constant with
  | some c => if known.containsKey name then known else known.insert name c
  | none => known

/-- The constant a term has after substitution, if it has one. -/
def evaluate (known : Known) (e : Expr) : Option Expr :=
  let evaluated := substituteVars e known
  if isConstant evaluated then some evaluated else tryEvalToConst evaluated

/-- The arms of the loop of `propagate_through_equalities`. -/
def propagateEq (known : Known) (lhs rhs : Expr) : Known :=
  match lhs, rhs with
  | .var a _, .var b _ =>
    match known.lookup b with
    | some c => learn known a (some c)
    | none => learn known b (known.lookup a)
  | .var name _, rhs => learn known name (if isConstant rhs then some rhs else evaluate known rhs)
  | lhs, .var name _ => learn known name (if isConstant lhs then some lhs else evaluate known lhs)
  | _, _ => known

/-- One constraint of the loop of `propagate_through_equalities`. -/
def propagateStep (known : Known) : Expr → Known
  | .app .eq [lhs, rhs] => propagateEq known lhs rhs
  | _ => known

/-! ### Arrays -/

/-- Whether a term is a store. -/
def isStore : Expr → Bool
  | .app .store _ => true
  | _ => false

/-- Records the store a variable is equated with. -/
def recordStore (known stores : Known) (varSide storeSide : Expr) : Known :=
  match varSide with
  | .var name _ =>
    let sub := substituteVars storeSide known
    if isStore sub then stores.insert name sub else stores
  | _ => stores

/-- One constraint of the store definitions of `resolve_array_store_selects`. -/
def collectStore (known stores : Known) : Expr → Known
  | .app .eq [lhs, rhs] => recordStore known (recordStore known stores lhs rhs) rhs lhs
  | _ => stores

/-- The array variables equated with each other. -/
def arrayAlias : Expr → Option (String × String)
  | .app .eq [.var a s, .var b s'] => if s.isArray ∧ s = s' then some (a, b) else none
  | _ => none

/-- One alias of the loop of `propagate_store_aliases`. -/
def propagateAlias (stores : Known) (alias_ : String × String) : Known :=
  match stores.lookup alias_.1, stores.lookup alias_.2 with
  | some store, none => stores.insert alias_.2 store
  | none, some store => stores.insert alias_.1 store
  | _, _ => stores

/-- `propagate_store_aliases`. -/
def propagateStoreAliases (stores : Known) (aliases : List (String × String)) : Known :=
  untilStable (fun stores => aliases.foldl propagateAlias stores) (aliases.length + 1) stores

/-- `expand_array_stores_bounded`. -/
def expandArrayStoresBounded (stores known : Known) : ℕ → Expr → Expr
  | 0, e => e
  | depth + 1, e =>
    match e with
    | .app .store [array, index, value] =>
      let inner :=
        match array with
        | .var name _ => (stores.lookup name).map (substituteVars · known)
        | _ => none
      (expandArrayStoresBounded stores known depth (inner.getD array)).store index value
    | e => e

/-- `resolve_select_from_store`. -/
def resolveSelectFromStore (varSide selectSide : Expr) (known stores : Known) :
    Option (String × Expr) :=
  match varSide with
  | .var name _ =>
    if known.containsKey name then none
    else
      match substituteVars selectSide known with
      | .app .select [.var arrName _, index] => do
        let store ← stores.lookup arrName
        let expanded := expandArrayStoresBounded stores known 8 (substituteVars store known)
        let val ← evalSelectStoreConst expanded index
        if isConstant val then some (name, val) else none
      | _ => none
  | _ => none

/-- One constraint of the last loop of `resolve_array_store_selects`. -/
def resolveStep (stores known : Known) : Expr → Known
  | .app .eq [lhs, rhs] =>
    match (resolveSelectFromStore lhs rhs known stores).or
        (resolveSelectFromStore rhs lhs known stores) with
    | some (name, val) => known.insert name val
    | none => known
  | _ => known

/-- `resolve_array_store_selects`. -/
def resolveArrayStoreSelects (flat : List Expr) (known : Known) : Known :=
  let stores := flat.foldl (collectStore known) []
  if stores.isEmpty then known
  else
    let stores := propagateStoreAliases stores (flat.filterMap arrayAlias)
    untilStable (fun known => flat.foldl (resolveStep stores) known) (flat.length + 1) known

/-- `propagate_through_equalities`. -/
def propagateThroughEqualities (constraints : List Expr) (known : Known) : Known :=
  let flat := flattenConjunctions constraints
  resolveArrayStoreSelects flat
    (untilStable (fun known => flat.foldl propagateStep known) (flat.length + 1) known)

/-! ### Unconstrained output variables -/

mutual

/-- `collect_constraint_vars`: the variables outside the arguments of datatype constructors
and uninterpreted functions. -/
def collectConstraintVars (inDt : Bool) : Expr → List String
  | .var name _ => if inDt then [] else [name]
  | .app op args =>
    match op with
    | .datatypeConstructor _ _ _ | .funcApp _ _ => collectConstraintVarsList true args
    | _ => collectConstraintVarsList inDt args
  | .quant _ _ body => collectConstraintVars inDt body

/-- `collect_constraint_vars` on a list of terms. -/
def collectConstraintVarsList (inDt : Bool) : List Expr → List String
  | [] => []
  | e :: es => collectConstraintVars inDt e ++ collectConstraintVarsList inDt es

end

/-- `name.strip_suffix("__out")`. -/
def stripOutSuffix (name : String) : Option String :=
  (stripPrefix "__out".toList.reverse name.toList.reverse).map fun rest =>
    String.ofList rest.reverse

/-- One head argument of `propagate_to_unconstrained_out_vars`. -/
def propagateOutVar (constrainedVars : List String) (known : Known) : Expr → Known
  | .var name _ =>
    match stripOutSuffix name with
    | some base => if name ∈ constrainedVars then known else learn known name (known.lookup base)
    | none => known
  | _ => known

/-- `propagate_to_unconstrained_out_vars`. -/
def propagateToUnconstrainedOutVars (headArgs constraints : List Expr) (known : Known) : Known :=
  let constrainedVars := collectConstraintVarsList false (flattenConjunctions constraints)
  headArgs.foldl (propagateOutVar constrainedVars) known

/-! ### Arguments -/

/-- A head argument that is a known variable is replaced by its constant. -/
def resolveArg (known : Known) (arg : Expr) : Expr :=
  match arg with
  | .var name s => (known.lookup name).getD (.var name s)
  | arg => arg

/-- `resolve_head_args`. -/
def resolveHeadArgs (rule : Rule) : List Expr :=
  rule.head.args.map (resolveArg (propagateThroughEqualities rule.body.constraints []))

/-- The variables a rule equates, each with the last it is equated with. -/
def varEquiv (constraints : List Expr) : List (String × String) :=
  constraints.foldl (fun equiv e =>
    match e with
    | .app .eq [.var a _, .var b _] => (b, a) :: (a, b) :: equiv
    | _ => equiv) []

/-- `detect_identity_positions`. -/
def detectIdentityPositions (rule : Rule) : List ℕ :=
  match rule.body.relation with
  | none => []
  | some bodyRel =>
    if bodyRel.name ≠ rule.head.name then []
    else
      let equiv := varEquiv rule.body.constraints
      (List.range (min rule.head.args.length bodyRel.args.length)).filter fun i =>
        match rule.head.args[i]?, bodyRel.args[i]? with
        | some (.var headName _), some (.var bodyName _) =>
          headName == bodyName || equiv.lookup headName == some bodyName
        | _, _ => false

end ConstProp

end TrustMc
