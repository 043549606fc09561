import TrustMc.Core.Vc
import TrustMc.Straightline.Simplify

/-!
# The straight-line prover

The prover enumerates symbolic frames of the relations: a frame is a list of argument
terms together with the facts its path established. A rule is applied to a frame of its
body relation by binding the rule's variables to the frame's terms (`initialEnv`), running
the constraints to a fixpoint that binds further names and records facts
(`applyConstraints`), and substituting into the head (`applyRule`). The enumeration
(`enumerate`) repeats passes over all rules until nothing changes; it gives up as soon as
an `error` rule can be applied.

* Giving up is `Walk.bail`, which the outcome reports as `NotProven`.
* A set of frames is iterated in an order the hasher chooses: the parameter `order`.
* The map of frame sets is kept as one list of named frames; a name is a key of the map
  when a frame of that name is in the list.
-/

namespace TrustMc

namespace Straightline

open Budget

/-- `MAX_RULES`. -/
def maxRules : ℕ := 256

/-- `MAX_FRAMES_PER_RELATION`. -/
def maxFramesPerRelation : ℕ := 64

/-- `MAX_TOTAL_FRAMES`. -/
def maxTotalFrames : ℕ := 512

/-- `MAX_STRAIGHTLINE_RECURSION_DEPTH`. -/
def maxStraightlineRecursionDepth : ℕ := 512

/-- `MAX_STRAIGHTLINE_NODE_VISITS`. -/
def maxStraightlineNodeVisits : ℕ := 2000000

/-- `Frame`: argument terms and the facts of the path to them. -/
structure Frame where
  /-- The terms the arguments have. -/
  args : List Expr
  /-- What the path established. -/
  facts : PathFacts
  deriving DecidableEq

/-- `ConstraintStatus`. -/
inductive ConstraintStatus
  | feasible | infeasible | unsupported
  deriving DecidableEq

/-- `StraightlineOutcome`. -/
inductive StraightlineOutcome
  | notProven | safe | vacuousUnreachableChecks
  deriving DecidableEq

/-! ### Bounds from comparisons -/

/-- The operands and the kind of an unsigned comparison. -/
def unsignedCmpOf : Expr → Option (Expr × Expr × UnsignedCmp)
  | .app (.bvCmp .ult) [l, r] => some (l, r, .lt)
  | .app (.bvCmp .ule) [l, r] => some (l, r, .le)
  | .app (.bvCmp .ugt) [l, r] => some (l, r, .gt)
  | .app (.bvCmp .uge) [l, r] => some (l, r, .ge)
  | _ => none

/-- The comparison of a term with a constant, at its width. -/
def orientedCmp (e : Expr) (negated : Bool) : Option (Expr × ℕ × UnsignedCmp × ℕ) := do
  let (lhs, rhs, kind) ← unsignedCmpOf e
  if lhs.sort ≠ rhs.sort then none
  else
    let width ← lhs.sort.bitvecWidth
    let (bounded, constant, kind) ← orient lhs rhs (if negated then kind.negated else kind)
    some (bounded, constant, kind, width)

/-- `unsigned_upper_bound_from_cmp`. -/
def unsignedUpperBoundFromCmp (e : Expr) (negated : Bool) : Option (Expr × ℕ × ℕ) := do
  let (bounded, constant, kind, width) ← orientedCmp e negated
  match kind with
  | .lt => some (bounded, constant, width)
  | .le =>
    if bvMask width ≤ constant then none
    else if 2 ^ 128 ≤ constant + 1 then none
    else some (bounded, constant + 1, width)
  | .gt | .ge => none

/-- `unsigned_lower_bound_from_cmp`. -/
def unsignedLowerBoundFromCmp (e : Expr) (negated : Bool) : Option (Expr × ℕ × ℕ) := do
  let (bounded, constant, kind, width) ← orientedCmp e negated
  match kind with
  | .gt => if 2 ^ 128 ≤ constant + 1 then none else some (bounded, constant + 1, width)
  | .ge => some (bounded, constant, width)
  | .lt | .le => none

/-- Feasible unless the bounds of the facts contradict each other. -/
def statusOfBounds (facts : PathFacts) : ConstraintStatus × PathFacts :=
  (if facts.boundsContradict then .infeasible else .feasible, facts)

/-- `record_unsigned_upper_bound`. -/
def recordUnsignedUpperBound (lhs rhs : Expr) (facts : PathFacts) :
    Option (ConstraintStatus × PathFacts) :=
  if lhs.sort ≠ rhs.sort ∨ lhs.sort.isBitvec = false then some (.unsupported, facts)
  else do
    let (bound, width) ← bvConstU128 rhs
    if bound = 0 then some (.infeasible, facts)
    else some (statusOfBounds (facts.addUnsignedUpperBound lhs bound width))

/-- `record_unsigned_upper_bound_from_cmp`. -/
def recordUnsignedUpperBoundFromCmp (e : Expr) (negated : Bool) (facts : PathFacts) :
    Option (ConstraintStatus × PathFacts) := do
  let (bounded, bound, width) ← unsignedUpperBoundFromCmp e negated
  if bound = 0 then some (.infeasible, facts)
  else some (statusOfBounds (facts.addUnsignedUpperBound bounded bound width))

/-- `record_unsigned_lower_bound_from_cmp`. -/
def recordUnsignedLowerBoundFromCmp (e : Expr) (negated : Bool) (facts : PathFacts) :
    Option (ConstraintStatus × PathFacts) := do
  let (bounded, bound, width) ← unsignedLowerBoundFromCmp e negated
  if bvMask width < bound then some (.infeasible, facts)
  else some (statusOfBounds (facts.addUnsignedLowerBound bounded bound width))

/-- The bound a comparison gives: the upper one, else the lower one. -/
def recordBoundFromCmp (e : Expr) (negated : Bool) (facts : PathFacts) :
    ConstraintStatus × PathFacts :=
  match recordUnsignedUpperBoundFromCmp e negated facts with
  | some r => r
  | none => (recordUnsignedLowerBoundFromCmp e negated facts).getD (.feasible, facts)

/-! ### Names -/

mutual

/-- `expr_mentions_var`. -/
def exprMentionsVar (target : String) : Expr → Bool
  | .var n _ => n == target
  | .app _ args => exprsMentionVar target args
  | .quant _ _ b => exprMentionsVar target b

/-- `expr_mentions_var` on some term of a list. -/
def exprsMentionVar (target : String) : List Expr → Bool
  | [] => false
  | e :: es => exprMentionsVar target e || exprsMentionVar target es

end

mutual

/-- The names of the variable nodes that satisfy a test. -/
def anyVarName (p : String → Bool) : Expr → Bool
  | .var n _ => p n
  | .app _ args => anyVarNames p args
  | .quant _ _ b => anyVarName p b

/-- The names of the variable nodes of a list of terms. -/
def anyVarNames (p : String → Bool) : List Expr → Bool
  | [] => false
  | e :: es => anyVarName p e || anyVarNames p es

end

/-- `name.contains(pattern)`. -/
def nameContains (name pattern : String) : Bool :=
  name.toList.tails.any (pattern.toList.isPrefixOf ·)

/-- The term mentions a havocked name. -/
def mentionsHavoc (e : Expr) : Bool := anyVarName (nameContains · "__havoc_") e

/-! ### Constraints -/

/-- `initial_env`: the rule's names for the terms of the frame. -/
def initialEnv (body : Option RelationApp) (frame : Frame) : Option SymEnv :=
  match body with
  | none => some []
  | some body =>
    if body.args.length ≠ frame.args.length then none
    else
      (body.args.zip frame.args).foldlM
        (fun env (arg, value) =>
          match arg with
          | .var name s => if s ≠ value.sort then none else some (env.insert name value)
          | _ => none) []

/-- What a path knows while the constraints of a rule run: bindings and facts. -/
structure PathState where
  /-- The bindings. -/
  env : SymEnv
  /-- The facts. -/
  facts : PathFacts
  deriving DecidableEq

section Constraints

variable (maxDepth fuel : ℕ)

/-- `simplify_with_facts`, from the top. -/
def simplifyTop (facts : PathFacts) (e : Expr) : Walk Expr :=
  simplifyWithFacts maxDepth facts fuel 0 e

/-- `substitute`. -/
def substitute (env : SymEnv) (e : Expr) : Walk Expr := substituteInner maxDepth env fuel 0 [] e

/-- `is_tautological_self_binding`. -/
def isTautologicalSelfBinding (env : SymEnv) (name : String) (value : Expr) : Bool :=
  match env.lookup name with
  | some (.var boundName s) =>
    boundName == name && s == value.sort && !exprMentionsVar name value
  | _ => false

/-- `bind_env_var`. -/
def bindEnvVar (st : PathState) (name : String) (value : Expr) :
    Walk (ConstraintStatus × PathState) :=
  let bound : PathState := { st with env := st.env.insert name value }
  if isTautologicalSelfBinding st.env name value then pure (.feasible, bound)
  else
    match st.env.lookup name with
    | none => pure (.feasible, bound)
    | some existing => do
      let eq ← Walk.ofOption (tryApp .eq [existing, value])
      match ← Walk.attempt (simplifyTop maxDepth fuel .none eq) with
      | some (.app (.boolConst true) _) => pure (.feasible, st)
      | some (.app (.boolConst false) _) => pure (.infeasible, st)
      | _ => pure (.unsupported, st)

/-- A constraint that is an equation: bind a side that is a name the other side does not
mention. -/
def applyEq (st : PathState) (lhs rhs : Expr) : Walk (ConstraintStatus × PathState) :=
  let bindRight : Walk (ConstraintStatus × PathState) :=
    match rhs with
    | .var name s =>
      if exprMentionsVar name lhs then pure (.feasible, st)
      else if lhs.sort ≠ s then pure (.unsupported, st)
      else bindEnvVar maxDepth fuel st name lhs
    | _ => pure (.feasible, st)
  match lhs with
  | .var name s =>
    if exprMentionsVar name rhs then bindRight
    else if s ≠ rhs.sort then pure (.unsupported, st)
    else bindEnvVar maxDepth fuel st name rhs
  | _ => bindRight

/-- A constraint that is a negation. -/
def applyNot (st : PathState) (inner : Expr) : Walk (ConstraintStatus × PathState) :=
  match inner with
  | .app .eq [lhs, rhs] => pure (.feasible, { st with facts := st.facts.addDisequality lhs rhs })
  | .var name .bool => bindEnvVar maxDepth fuel st name (.boolConst false)
  | inner =>
    let (status, facts) := recordBoundFromCmp inner true st.facts
    pure (status, { st with facts })

/-- What a simplified constraint adds to the path; `nested` runs the conjuncts of a
conjunction. -/
def assume (nested : List Expr → PathState → Walk (ConstraintStatus × PathState))
    (st : PathState) (simplified : Expr) : Walk (ConstraintStatus × PathState) :=
  match simplified with
  | .app (.boolConst false) _ => pure (.infeasible, st)
  | .app (.boolConst true) _ => pure (.feasible, st)
  | .var name .bool => bindEnvVar maxDepth fuel st name (.boolConst true)
  | .app .and children => nested children st
  | .app .eq [lhs, rhs] => applyEq maxDepth fuel st lhs rhs
  | .app (.bvCmp .ult) [lhs, rhs] =>
    let (status, facts) := (recordUnsignedUpperBound lhs rhs st.facts).getD (.feasible, st.facts)
    pure (status, { st with facts })
  | .app (.bvCmp f) args =>
    if f = .ule ∨ f = .ugt ∨ f = .uge then
      let (status, facts) := recordBoundFromCmp (.app (.bvCmp f) args) false st.facts
      pure (status, { st with facts })
    else pure (.feasible, st)
  | .app .not [inner] => applyNot maxDepth fuel st inner
  | _ => pure (.feasible, st)

/-- `apply_constraint`. -/
def applyConstraint (nested : List Expr → PathState → Walk (ConstraintStatus × PathState))
    (st : PathState) (constraint : Expr) : Walk (ConstraintStatus × PathState) := do
  match ← Walk.attempt (substitute maxDepth fuel st.env constraint) with
  | none => pure (.unsupported, st)
  | some substituted =>
    match ← Walk.attempt (simplifyTop maxDepth fuel st.facts substituted) with
    | none => pure (.unsupported, st)
    | some simplified => assume maxDepth fuel nested st simplified

/-- One pass over the constraints: stops at an infeasible one, and remembers an
unsupported one. -/
def constraintPass (one : PathState → Expr → Walk (ConstraintStatus × PathState)) :
    List Expr → ConstraintStatus → PathState → Walk (ConstraintStatus × PathState)
  | [], status, st => pure (status, st)
  | c :: cs, status, st => do
    match ← one st c with
    | (.infeasible, st) => pure (.infeasible, st)
    | (.unsupported, st) => constraintPass one cs .unsupported st
    | (.feasible, st) => constraintPass one cs status st

/-- The passes, until one changes nothing. -/
def constraintPasses (one : PathState → Expr → Walk (ConstraintStatus × PathState))
    (constraints : List Expr) : ℕ → PathState → Walk (ConstraintStatus × PathState)
  | 0, st => pure (.unsupported, st)
  | passes + 1, st => do
    let (status, st') ← constraintPass one constraints .feasible st
    if status = .infeasible ∨ st' = st then pure (status, st')
    else constraintPasses one constraints passes st'

/-- `max_passes`. -/
def maxPasses (constraints : List Expr) : ℕ := max (constraints.length * 4 + 8) 16

/-- `apply_constraint_fixpoint`; `nesting` bounds the nesting of conjunctions. -/
def applyConstraintFixpoint : ℕ → List Expr → PathState → Walk (ConstraintStatus × PathState)
  | 0, _, st => pure (.unsupported, st)
  | nesting + 1, constraints, st =>
    constraintPasses (applyConstraint maxDepth fuel (applyConstraintFixpoint nesting)) constraints
      (maxPasses constraints) st

end Constraints

/-! ### Rules -/

/-- `relation_args_match_decl`: a later declaration of a name replaces an earlier one. -/
def relationArgsMatchDecl (relations : List RelationDecl) (name : String)
    (args : List Expr) : Bool :=
  match relations.reverse.find? (·.name == name) with
  | none => false
  | some decl => args.map Expr.sort == decl.argSorts

/-- One rule applied to one frame of its body relation: the head's frame, or `none` when
the constraints cannot hold. Gives up on a rule of `error` that can be applied. -/
def applyRule (maxDepth fuel : ℕ) (relations : List RelationDecl) (rule : Rule) (frame : Frame) :
    Walk (Option Frame) := do
  let env ← Walk.ofOption (initialEnv rule.body.relation frame)
  let (status, st) ←
    applyConstraintFixpoint maxDepth fuel fuel rule.body.constraints ⟨env, frame.facts⟩
  match status with
  | .infeasible => pure none
  | .unsupported => Walk.bail
  | .feasible =>
    if rule.head.name = "error" then Walk.bail
    else
      let args ← rule.head.args.mapM fun arg => do
        simplifyTop maxDepth fuel st.facts (← substitute maxDepth fuel st.env arg)
      if relationArgsMatchDecl relations rule.head.name args then pure (some ⟨args, st.facts⟩)
      else Walk.bail

/-! ### The enumeration -/

/-- The frames reached, in the order of insertion, with the pending work. -/
structure Enumeration where
  /-- The frames reached, each with its relation. -/
  reachable : List (String × Frame)
  /-- The relations pushed and not popped. -/
  worklist : List String
  /-- A frame was inserted in this pass. -/
  changed : Bool
  deriving DecidableEq

namespace Enumeration

/-- No frame yet. -/
def initial : Enumeration := ⟨[], [], false⟩

/-- `reachable.get(name)`. -/
def frames (st : Enumeration) (name : String) : List Frame :=
  (st.reachable.filter (·.1 == name)).map (·.2)

/-- Inserts a frame; gives up when a frame budget is exceeded. -/
def record (st : Enumeration) (name : String) (frame : Frame) : Walk Enumeration :=
  if (name, frame) ∈ st.reachable then pure st
  else
    let reachable := st.reachable ++ [(name, frame)]
    let st' : Enumeration := ⟨reachable, st.worklist ++ [name], true⟩
    if maxFramesPerRelation < (st'.frames name).length ∨ maxTotalFrames < reachable.length then
      Walk.bail
    else pure st'

end Enumeration

section Enumerate

variable (maxDepth fuel : ℕ) (order : List (String × Frame) → List Frame → List Frame)
  (vc : ChcVc)

/-- The frames a rule is applied to. -/
def bodyFrames (st : Enumeration) (rule : Rule) : List Frame :=
  match rule.body.relation with
  | none => [⟨[], .none⟩]
  | some body => order st.reachable (st.frames body.name)

/-- A rule applied to one frame, and what that adds. -/
def visitFrame (rule : Rule) (st : Enumeration) (frame : Frame) : Walk Enumeration := do
  match ← applyRule maxDepth fuel vc.relations rule frame with
  | none => pure st
  | some headFrame => st.record rule.head.name headFrame

/-- A rule applied to every frame of its body relation. -/
def visitRule (st : Enumeration) (rule : Rule) : Walk Enumeration :=
  (bodyFrames order st rule).foldlM (visitFrame maxDepth fuel vc rule) st

/-- The passes over the rules, until one changes nothing. -/
def enumerate : ℕ → Enumeration → Walk Enumeration
  | 0, _ => Walk.bail
  | passes + 1, st => do
    let st ← vc.rules.foldlM (visitRule maxDepth fuel order vc) { st with changed := false }
    match st.changed, st.worklist with
    | false, _ => pure st
    | true, [] => pure st
    | true, _ :: worklist => enumerate passes { st with worklist }

end Enumerate

/-! ### The block graph -/

/-- `is_error_reachable_head`. -/
def isErrorReachableHead (name : String) : Bool := name == "error" || name.startsWith "error_p"

/-- The edges of the block graph, error relations excluded. -/
def blockEdges (vc : ChcVc) : List (String × String) :=
  vc.rules.filterMap fun rule =>
    match rule.body.relation with
    | none => none
    | some body =>
      if isErrorReachableHead rule.head.name || isErrorReachableHead body.name then none
      else some (body.name, rule.head.name)

/-- The successors of a block. -/
def successors (edges : List (String × String)) (name : String) : List String :=
  (edges.filter (·.1 == name)).map (·.2)

/-- The search of `loop_relations` for `start` from the blocks on the stack. Each edge is
pushed at most twice, which bounds the search. -/
def reachesStart (edges : List (String × String)) (start : String) :
    ℕ → List String → List String → Bool
  | 0, _, _ => false
  | _, [], _ => false
  | fuel + 1, node :: stack, seen =>
    if node = start then true
    else if node ∈ seen then reachesStart edges start fuel stack seen
    else reachesStart edges start fuel (successors edges node ++ stack) (node :: seen)

/-- `loop_relations`: the blocks on a cycle. -/
def loopRelations (vc : ChcVc) : List String :=
  let edges := blockEdges vc
  (edges.map (·.1) ++ edges.map (·.2)).filter fun start =>
    reachesStart edges start (2 * edges.length + 1) (successors edges start) []

/-- The exits: non-error heads that are no rule's body. -/
def sinks (vc : ChcVc) : List String :=
  (vc.rules.map (·.head.name)).filter fun head =>
    !isErrorReachableHead head &&
      vc.rules.all fun rule => rule.body.relation.all fun body => body.name != head

/-- The rules mention no havocked name. -/
def havocFree (vc : ChcVc) : Bool :=
  vc.rules.all fun rule =>
    rule.body.constraints.all (!mentionsHavoc ·) && rule.head.args.all (!mentionsHavoc ·)

/-- What a saturated enumeration proves. -/
def outcomeOf (vc : ChcVc) (st : Enumeration) : StraightlineOutcome :=
  if (loopRelations vc).any fun rel => (st.frames rel).isEmpty then .notProven
  else if !(sinks vc).isEmpty && (sinks vc).all fun sink => (st.frames sink).isEmpty then
    .vacuousUnreachableChecks
  else .safe

/-- `prove_straightline_safety_detailed`, with its node budget. -/
def proveStraightlineSafetyDetailed (nodeBudget : ℕ)
    (order : List (String × Frame) → List Frame → List Frame) (vc : ChcVc) :
    StraightlineOutcome :=
  if maxRules < vc.rules.length then .notProven
  else if !havocFree vc then .notProven
  else if vc.rules.all fun rule => rule.head.name != "error" then .notProven
  else
    let run := enumerate maxStraightlineRecursionDepth (nodeBudget + 1) order vc
      (maxTotalFrames + 2) .initial
    match (run.result nodeBudget).1 with
    | none => .notProven
    | some st => outcomeOf vc st

end Straightline

end TrustMc
