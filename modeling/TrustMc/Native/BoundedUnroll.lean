import Mathlib
import TrustMc.Budget.Fixpoint
import TrustMc.Native.ChcProblem

/-!
# Bounded unrolling

`boundedUnrollChcForRefutation` copies a cyclic problem's predicates once for each of the
levels `0, …, k` and its clauses once for each level, a clause along a retreating edge leading
to the next level. A problem outside the modelled domain declines: an acyclic problem, a
nonlinear body, a name with the reserved marker, an ungrounded clause, an unrecognized head.

* **Retreating edges** (`dfsRetreatingEdges`) are found by a depth-first search with an
  explicit stack; `dfsLoop_add` shows that the fuel of the model is never used up.
* **Grounding** (`problemIsGroundedForRefutation`) closes the variables of the body relation
  under defining equalities; `groundVars_stable` shows that the rounds reach a fixed point.

`none` is the `None` of the source and its panic on a predicate index out of range.
-/

namespace TrustMc

namespace Native

open Budget

/-- `UNROLL_LEVEL_MARKER`. -/
def unrollLevelMarker : String := "__trust_mc_bmc_unroll_l"

/-- `MAX_UNROLLED_PREDICATES`. -/
def maxUnrolledPredicates : ℕ := 65536

/-- `MAX_UNROLLED_CLAUSES`. -/
def maxUnrolledClauses : ℕ := 262144

/-- `GROUNDING_NODE_BUDGET`. -/
def groundingNodeBudget : ℕ := 200000

/-! ### Retreating edges -/

/-- The colours of the depth-first search. -/
inductive Color
  | white
  | gray
  | black
  deriving DecidableEq

/-- What the depth-first search updates. -/
structure DfsState where
  /-- The colour of each predicate. -/
  color : ℕ → Color
  /-- The retreating edges found so far. -/
  retreating : List (ℕ × ℕ)

/-- `successors`: the targets of the edges between declared predicates. -/
def successors (edges : List (ℕ × ℕ)) (predicateCount node : ℕ) : List ℕ :=
  (edges.filter fun e => e.1 == node && decide (e.1 < predicateCount) &&
    decide (e.2 < predicateCount)).map Prod.snd

/-- The inner loop of `dfs_retreating_edges`; the stack holds the next successor of each node
on it, the innermost first. -/
def dfsLoop (succs : ℕ → List ℕ) : ℕ → List (ℕ × ℕ) → DfsState → DfsState
  | 0, _, st => st
  | _ + 1, [], st => st
  | n + 1, (node, next) :: stack, st =>
    match (succs node)[next]? with
    | some succ =>
      match st.color succ with
      | .gray =>
        dfsLoop succs n ((node, next + 1) :: stack)
          { st with retreating := st.retreating ++ [(node, succ)] }
      | .white =>
        dfsLoop succs n ((succ, 0) :: (node, next + 1) :: stack)
          { st with color := Function.update st.color succ .gray }
      | .black => dfsLoop succs n ((node, next + 1) :: stack) st
    | none => dfsLoop succs n stack { st with color := Function.update st.color node .black }

/-- A search from each node takes at most this many steps. -/
def dfsFuel (succs : ℕ → List ℕ) (predicateCount : ℕ) : ℕ :=
  ∑ node ∈ Finset.range predicateCount, ((succs node).length + 1)

section Fuel

variable {succs : ℕ → List ℕ} {predicateCount : ℕ}

/-- The steps still to take: the successors not yet looked at of the nodes on the stack and
of the white nodes, and a last step for each of these nodes. -/
def dfsWork (succs : ℕ → List ℕ) (predicateCount : ℕ) (stack : List (ℕ × ℕ))
    (color : ℕ → Color) : ℕ :=
  (stack.map fun p => (succs p.1).length - p.2 + 1).sum +
    ∑ node ∈ Finset.range predicateCount,
      if color node = .white then (succs node).length + 1 else 0

/-- Discovering a node moves its steps from the white nodes to the stack. -/
theorem dfsWork_discover {color : ℕ → Color} {node : ℕ} (hnode : node < predicateCount)
    (hwhite : color node = .white) (stack : List (ℕ × ℕ)) :
    dfsWork succs predicateCount ((node, 0) :: stack) (Function.update color node .gray) =
      dfsWork succs predicateCount stack color := by
  have hmem : node ∈ Finset.range predicateCount := Finset.mem_range.2 hnode
  have hrest : ∑ i ∈ (Finset.range predicateCount).erase node,
      (if Function.update color node Color.gray i = .white then (succs i).length + 1 else 0) =
      ∑ i ∈ (Finset.range predicateCount).erase node,
        if color i = .white then (succs i).length + 1 else 0 := by
    refine Finset.sum_congr rfl fun i hi => ?_
    rw [Function.update_of_ne (Finset.ne_of_mem_erase hi)]
  unfold dfsWork
  rw [← Finset.add_sum_erase _ _ hmem, ← Finset.add_sum_erase _ _ hmem, hrest]
  simp [hwhite]
  omega

/-- With nothing on the stack there is no more to do than the fuel allows. -/
theorem dfsWork_nil_le (color : ℕ → Color) :
    dfsWork succs predicateCount [] color ≤ dfsFuel succs predicateCount := by
  unfold dfsWork dfsFuel
  simp only [List.map_nil, List.sum_nil, Nat.zero_add]
  refine Finset.sum_le_sum fun i _ => ?_
  split <;> omega

/-- Finishing a node adds no work. -/
theorem dfsWork_finish (stack : List (ℕ × ℕ)) (color : ℕ → Color) (node : ℕ) :
    dfsWork succs predicateCount stack (Function.update color node .black) ≤
      dfsWork succs predicateCount stack color := by
  unfold dfsWork
  refine Nat.add_le_add_left (Finset.sum_le_sum fun i _ => ?_) _
  by_cases hi : i = node
  · simp [hi]
  · rw [Function.update_of_ne hi]

/-- Looking at a successor takes a step. -/
theorem dfsWork_next {node next succ : ℕ} (hnext : (succs node)[next]? = some succ)
    (stack : List (ℕ × ℕ)) (color : ℕ → Color) :
    dfsWork succs predicateCount ((node, next + 1) :: stack) color + 1 =
      dfsWork succs predicateCount ((node, next) :: stack) color := by
  have hlt : next < (succs node).length := (List.getElem?_eq_some_iff.1 hnext).1
  simp [dfsWork]
  omega

/-- Taking a node from the stack takes a step. -/
theorem dfsWork_pop (node next : ℕ) (stack : List (ℕ × ℕ)) (color : ℕ → Color) :
    dfsWork succs predicateCount stack color + 1 ≤
      dfsWork succs predicateCount ((node, next) :: stack) color := by
  simp [dfsWork]

/-- **Enough fuel**: every step of the loop takes one from the work left, so fuel beyond it
changes nothing. -/
theorem dfsLoop_add (hsuccs : ∀ node, ∀ succ ∈ succs node, succ < predicateCount) {n m : ℕ}
    {stack : List (ℕ × ℕ)} {st : DfsState}
    (h : dfsWork succs predicateCount stack st.color ≤ n) :
    dfsLoop succs (n + m) stack st = dfsLoop succs n stack st := by
  induction n generalizing stack st with
  | zero =>
    cases stack with
    | nil => cases m <;> simp [dfsLoop]
    | cons p stack => simp [dfsWork] at h
  | succ n ih =>
    rw [Nat.add_right_comm]
    rcases stack with - | ⟨⟨node, next⟩, stack⟩
    · simp [dfsLoop]
    · unfold dfsLoop
      cases hnext : (succs node)[next]? with
      | none =>
        exact ih ((dfsWork_finish _ _ _).trans
          (Nat.le_of_succ_le_succ ((dfsWork_pop node next stack st.color).trans h)))
      | some succ =>
        have hstep : dfsWork succs predicateCount ((node, next + 1) :: stack) st.color ≤ n :=
          Nat.le_of_succ_le_succ ((dfsWork_next hnext stack st.color).trans_le h)
        cases hcolor : st.color succ with
        | gray =>
          simp only [hcolor]
          exact ih hstep
        | black =>
          simp only [hcolor]
          exact ih hstep
        | white =>
          simp only [hcolor]
          refine ih ?_
          have hmem := hsuccs node succ (List.mem_of_getElem? hnext)
          rw [dfsWork_discover hmem hcolor]
          exact hstep

end Fuel

/-- The outer loop of `dfs_retreating_edges`, on one root. -/
def dfsRoot (succs : ℕ → List ℕ) (predicateCount : ℕ) (st : DfsState) (root : ℕ) : DfsState :=
  if st.color root ≠ .white then st
  else
    dfsLoop succs (dfsFuel succs predicateCount) [(root, 0)]
      { st with color := Function.update st.color root .gray }

/-- The fuel of a root's search is never used up. -/
theorem dfsLoop_root {succs : ℕ → List ℕ} {predicateCount : ℕ}
    (hsuccs : ∀ node, ∀ succ ∈ succs node, succ < predicateCount) {st : DfsState} {root : ℕ}
    (hroot : root < predicateCount) (hwhite : st.color root = .white) (m : ℕ) :
    dfsLoop succs (dfsFuel succs predicateCount + m) [(root, 0)]
        { st with color := Function.update st.color root .gray } =
      dfsRoot succs predicateCount st root := by
  rw [dfsRoot, if_neg (by simp [hwhite])]
  refine dfsLoop_add hsuccs ?_
  rw [dfsWork_discover hroot hwhite]
  exact dfsWork_nil_le st.color

theorem lt_of_mem_successors {edges : List (ℕ × ℕ)} {predicateCount node succ : ℕ}
    (h : succ ∈ successors edges predicateCount node) : succ < predicateCount := by
  simp only [successors, List.mem_map, List.mem_filter, Bool.and_eq_true,
    decide_eq_true_eq] at h
  obtain ⟨e, ⟨-, -, h⟩, rfl⟩ := h
  exact h

/-- The order of `sort_unstable` on edges. -/
def edgeLe (e e' : ℕ × ℕ) : Prop := e.1 < e'.1 ∨ e.1 = e'.1 ∧ e.2 ≤ e'.2

instance : DecidableRel edgeLe := fun _ _ => inferInstanceAs (Decidable (_ ∨ _ ∧ _))

/-- `dfs_retreating_edges`. -/
def dfsRetreatingEdges (crate : ChcCrate) (problem : ChcProblem) (predicateCount : ℕ) :
    List (ℕ × ℕ) :=
  let succs := successors (crate.dependencyEdges problem) predicateCount
  let st := (List.range predicateCount).foldl (dfsRoot succs predicateCount)
    ⟨fun _ => .white, []⟩
  (st.retreating.insertionSort edgeLe).dedup

/-! ### Grounding -/

/-- The loop of `collect_expr_vars`, with the nodes it may still visit. -/
def collectExprVarsLoop : ℕ → List ChcExpr → List ChcVar → Option (List ChcVar)
  | _, [], vars => some vars
  | 0, _ :: _, _ => none
  | n + 1, node :: pending, vars =>
    match node with
    | .var v => collectExprVarsLoop n pending (vars ++ [v])
    | .op _ args | .predicateApp _ _ args | .funcApp _ _ args =>
      collectExprVarsLoop n (args.reverse ++ pending) vars
    | .bool _ | .int _ | .real _ _ | .bitVec _ _ | .constArrayMarker _ | .isTesterMarker _ =>
      collectExprVarsLoop n pending vars
    | .constArray _ value => collectExprVarsLoop n (value :: pending) vars
    | .unrecognized => none

/-- `collect_expr_vars`. -/
def collectExprVars (e : ChcExpr) : Option (List ChcVar) :=
  collectExprVarsLoop groundingNodeBudget [e] []

/-- The loop that flattens nested conjunctions; the nodes of the terms bound its steps. -/
def flattenLoop : ℕ → List ChcExpr → List ChcExpr → Option (List ChcExpr)
  | _, [], conjuncts => some conjuncts
  | 0, _ :: _, _ => none
  | n + 1, e :: pending, conjuncts =>
    if groundingNodeBudget < conjuncts.length + pending.length then none
    else
      match e with
      | .op .and args => flattenLoop n (args.reverse ++ pending) conjuncts
      | e => flattenLoop n pending (conjuncts ++ [e])

/-- The top-level conjuncts of a constraint. -/
def topConjuncts (constraint : Option ChcExpr) : Option (List ChcExpr) :=
  flattenLoop (ChcExpr.nodesList constraint.toList) constraint.toList []

/-- One orientation of a defining equality. -/
def groundSide (grounded : List ChcVar) (varSide defSide : ChcExpr) : Option (List ChcVar) :=
  match varSide with
  | .var v =>
    if v ∈ grounded then some grounded
    else
      (collectExprVars defSide).map fun defVars =>
        if ∀ w ∈ defVars, w ∈ grounded then grounded ++ [v] else grounded
  | _ => some grounded

/-- One conjunct of the grounding fixpoint. -/
def groundConjunct (grounded : List ChcVar) (conjunct : ChcExpr) : Option (List ChcVar) :=
  match conjunct with
  | .op .eq [lhs, rhs] =>
    (groundSide grounded lhs rhs).bind fun grounded => groundSide grounded rhs lhs
  | _ => some grounded

/-- One round of the grounding fixpoint. -/
def groundRound (conjuncts : List ChcExpr) (grounded : List ChcVar) : Option (List ChcVar) :=
  conjuncts.foldlM groundConjunct grounded

/-- The grounding fixpoint; every round but the last grounds a side of a conjunct. -/
def groundVars (conjuncts : List ChcExpr) (seed : List ChcVar) : Option (List ChcVar) :=
  untilStable (·.bind (groundRound conjuncts)) (2 * conjuncts.length + 1) (some seed)

section Stable

/-- The variables that are a side of a conjunct that is an equality. -/
def sideVars (conjuncts : List ChcExpr) : List ChcVar :=
  conjuncts.flatMap fun conjunct =>
    match conjunct with
    | .op .eq [lhs, rhs] =>
      [lhs, rhs].filterMap fun side =>
        match side with
        | .var v => some v
        | _ => none
    | _ => []

theorem length_sideVars_le (conjuncts : List ChcExpr) :
    (sideVars conjuncts).length ≤ 2 * conjuncts.length := by
  induction conjuncts with
  | nil => simp [sideVars]
  | cons c conjuncts ih =>
    have hc : (sideVars [c]).length ≤ 2 := by
      simp only [sideVars, List.flatMap_cons, List.flatMap_nil, List.append_nil]
      split
      · exact List.length_filterMap_le _ _
      · simp
    have hcons : sideVars (c :: conjuncts) = sideVars [c] ++ sideVars conjuncts := by
      simp [sideVars]
    rw [hcons, List.length_append, List.length_cons]
    omega

theorem grounds_groundSide {sides grounded grounded' : List ChcVar} {varSide defSide : ChcExpr}
    (hside : ∀ v, varSide = .var v → v ∈ sides)
    (h : groundSide grounded varSide defSide = some grounded') :
    Grows sides grounded grounded' := by
  unfold groundSide at h
  split at h
  · rename_i v
    split at h
    · obtain rfl := Option.some.inj h
      exact .refl _ _
    · obtain ⟨defVars, -, rfl⟩ := Option.map_eq_some_iff.1 h
      split
      · exact .insert (hside v rfl) ‹_›
      · exact .refl _ _
  · obtain rfl := Option.some.inj h
    exact .refl _ _

theorem grounds_groundConjunct {conjuncts : List ChcExpr} {grounded grounded' : List ChcVar}
    {conjunct : ChcExpr} (hmem : conjunct ∈ conjuncts)
    (h : groundConjunct grounded conjunct = some grounded') :
    Grows (sideVars conjuncts) grounded grounded' := by
  unfold groundConjunct at h
  split at h
  · rename_i lhs rhs
    obtain ⟨g, hg, h⟩ := Option.bind_eq_some_iff.1 h
    have hside : ∀ v, (lhs = .var v ∨ rhs = .var v) → v ∈ sideVars conjuncts := by
      intro v hv
      refine List.mem_flatMap.2 ⟨_, hmem, ?_⟩
      rcases hv with rfl | rfl <;> simp [List.mem_filterMap]
    exact (grounds_groundSide (fun v hv => hside v (Or.inl hv)) hg).trans
      (grounds_groundSide (fun v hv => hside v (Or.inr hv)) h)
  · obtain rfl := Option.some.inj h
    exact .refl _ _

theorem grounds_groundRound {conjuncts : List ChcExpr} {grounded grounded' : List ChcVar}
    (h : groundRound conjuncts grounded = some grounded') :
    Grows (sideVars conjuncts) grounded grounded' := by
  suffices ∀ cs ⊆ conjuncts, ∀ g, cs.foldlM groundConjunct g = some grounded' →
      Grows (sideVars conjuncts) g grounded' from this conjuncts (List.Subset.refl _) _ h
  intro cs
  induction cs with
  | nil =>
    intro _ g hg
    obtain rfl := Option.some.inj hg
    exact .refl _ _
  | cons c cs ih =>
    intro hcs g hg
    rw [List.foldlM_cons] at hg
    obtain ⟨g', hg', hg⟩ := Option.bind_eq_some_iff.1 hg
    exact (grounds_groundConjunct (hcs List.mem_cons_self) hg').trans
      (ih (fun _ hm => hcs (List.mem_cons_of_mem _ hm)) g' hg)

/-- **The grounding rounds reach a fixed point.** -/
theorem groundVars_stable (conjuncts : List ChcExpr) (seed : List ChcVar) :
    (groundVars conjuncts seed).bind (groundRound conjuncts) = groundVars conjuncts seed := by
  -- the sides that are not grounded yet
  let left : Option (List ChcVar) → ℕ := fun grounded =>
    grounded.elim 0 fun grounded => missing (sideVars conjuncts) grounded + 1
  refine untilStable_stable (P := fun _ => True) (f := (·.bind (groundRound conjuncts)))
    (fun _ _ => trivial) left ?_ trivial ?_
  · rintro (- | grounded) - hne
    · exact absurd rfl hne
    · rw [Option.bind_some] at hne ⊢
      cases hround : groundRound conjuncts grounded with
      | none => exact Nat.succ_pos _
      | some grounded' =>
        refine Nat.succ_lt_succ ((grounds_groundRound hround).missing_lt ?_)
        rintro rfl
        exact hne hround
  · exact Nat.succ_le_succ ((List.length_filter_le _ _).trans (length_sideVars_le conjuncts))

end Stable

/-- The variables of a list of terms. -/
def collectAll (es : List ChcExpr) : Option (List ChcVar) :=
  (es.mapM collectExprVars).map List.flatten

/-- The argument terms of a clause head. -/
def ClauseHead.args : ClauseHead → List ChcExpr
  | .predicate _ args => args
  | _ => []

/-- `clause_is_grounded_for_refutation`. -/
def clauseIsGroundedForRefutation (clause : HornClause) : Bool :=
  if clause.body.predicates.isEmpty then false
  else
    (do
      let seed ← collectAll (clause.body.predicates.flatMap Prod.snd)
      let conjuncts ← topConjuncts clause.body.constraint
      let grounded ← groundVars conjuncts seed
      let clauseVars ← collectAll (conjuncts ++ clause.head.args)
      return decide (∀ v ∈ clauseVars, v ∈ grounded)).getD false

/-- Some clause with a body derives the predicate. -/
def hasIncoming (problem : ChcProblem) (entry : ℕ) : Bool :=
  problem.clauses.any fun clause =>
    !clause.body.predicates.isEmpty &&
      match clause.head with
      | .predicate id _ => id == entry
      | _ => false

/-- `problem_is_grounded_for_refutation`. -/
def problemIsGroundedForRefutation (problem : ChcProblem) : Bool :=
  match problem.clauses.filter fun clause => clause.body.predicates.isEmpty with
  | [entryFact] =>
    match entryFact.head with
    | .predicate entryPredicate entryArgs =>
      !hasIncoming problem entryPredicate &&
        (collectAll (entryFact.body.constraint.toList ++ entryArgs)).isSome &&
        (problem.clauses.filter fun clause => !clause.body.predicates.isEmpty).all
          clauseIsGroundedForRefutation
    | _ => false
  | _ => false

/-! ### Level copies -/

/-- The name of a predicate's copy. -/
def levelName (name : String) (level : ℕ) : String :=
  name ++ unrollLevelMarker ++ toString level

/-- Declares the copies of one level. -/
def declareLevel (crate : ChcCrate) (level : ℕ) :
    List Predicate → ChcProblem → ChcProblem × List ℕ
  | [], unrolled => (unrolled, [])
  | predicate :: predicates, unrolled =>
    let (unrolled, id) :=
      crate.declarePredicate unrolled (levelName predicate.name level) predicate.argSorts
    let (unrolled, row) := declareLevel crate level predicates unrolled
    (unrolled, id :: row)

/-- Declares the copies of the levels of a list. -/
def declareLevels (crate : ChcCrate) (predicates : List Predicate) :
    List ℕ → ChcProblem → ChcProblem × List (List ℕ)
  | [], unrolled => (unrolled, [])
  | level :: levels, unrolled =>
    let (unrolled, row) := declareLevel crate level predicates unrolled
    let (unrolled, rows) := declareLevels crate predicates levels unrolled
    (unrolled, row :: rows)

/-- `level_predicates[level][id]`. -/
def levelId (levelPredicates : List (List ℕ)) (level id : ℕ) : Option ℕ :=
  levelPredicates[level]?.bind fun row => row[id]?

/-- Whether the clause's edge is one of the retreating ones. -/
def isBackEdge (backEdges : List (ℕ × ℕ)) (clause : HornClause) (id : ℕ) : Bool :=
  clause.body.predicates.head?.any fun app => backEdges.contains (app.1, id)

/-- One pass through the clause loop: declines (`none`), skips the clause (`some none`) or
gives the clause's copy. -/
def copyClause (levelPredicates : List (List ℕ)) (backEdges : List (ℕ × ℕ)) (levels level : ℕ)
    (clause : HornClause) : Option (Option HornClause) :=
  if clause.body.predicates.isEmpty ∧ 0 < level then some none
  else do
    let bodyPredicates ← clause.body.predicates.mapM fun app =>
      (levelId levelPredicates level app.1).map fun id => (id, app.2)
    match clause.head with
    | .false => some (some ⟨⟨bodyPredicates, clause.body.constraint⟩, .false⟩)
    | .predicate id args =>
      let headLevel := if isBackEdge backEdges clause id then level + 1 else level
      if levels ≤ headLevel then some none
      else
        (levelId levelPredicates headLevel id).map fun id =>
          some ⟨⟨bodyPredicates, clause.body.constraint⟩, .predicate id args⟩
    | .unrecognized => none

/-- Adds the copies of the clauses of a list, each at its level. -/
def addCopies (crate : ChcCrate) (copy : ℕ × HornClause → Option (Option HornClause)) :
    List (ℕ × HornClause) → ChcProblem → Option ChcProblem
  | [], unrolled => some unrolled
  | lc :: lcs, unrolled =>
    match copy lc with
    | none => none
    | some none => addCopies crate copy lcs unrolled
    | some (some clause) => addCopies crate copy lcs (crate.addClause unrolled clause)

/-- The clauses at every level, in the order of the two loops. -/
def leveledClauses (levels : ℕ) (clauses : List HornClause) : List (ℕ × HornClause) :=
  (List.range levels).flatMap fun level => clauses.map fun clause => (level, clause)

/-! ### The transformation -/

/-- `checked_add` on `usize`. -/
def checkedAdd (a b : ℕ) : Option ℕ := if a + b < 2 ^ 64 then some (a + b) else none

/-- `checked_mul` on `usize`. -/
def checkedMul (a b : ℕ) : Option ℕ := if a * b < 2 ^ 64 then some (a * b) else none

/-- `BoundedUnrolledChc`. -/
structure BoundedUnrolledChc where
  /-- The unrolled problem. -/
  problem : ChcProblem
  /-- The number of retreating edges a derivation may traverse. -/
  k : UInt32

/-- The problems the transformation models. -/
def inDomain (crate : ChcCrate) (problem : ChcProblem) : Bool :=
  crate.hasCycles problem &&
    !(problem.clauses.any fun clause => decide (1 < clause.body.predicates.length)) &&
    !(problem.isFixedpointFormat || problem.hasStrippedBodyForall ||
      !problem.datatypeDefs.isEmpty || problem.hasActionDecomposition) &&
    !(problem.predicates.any fun pred =>
      decide (unrollLevelMarker.toList <:+: pred.name.toList)) &&
    problemIsGroundedForRefutation problem

/-- `bounded_unroll_chc_for_refutation`. -/
def boundedUnrollChcForRefutation (crate : ChcCrate) (problem : ChcProblem) (k : UInt32) :
    Option BoundedUnrolledChc :=
  if !inDomain crate problem then none
  else do
    let predicateCount := problem.predicates.length
    let backEdges := dfsRetreatingEdges crate problem predicateCount
    let levels ← checkedAdd k.toNat 1
    if maxUnrolledPredicates < (← checkedMul predicateCount levels) ∨
        maxUnrolledClauses < (← checkedMul problem.clauses.length levels) then none
    else
      let (unrolled, levelPredicates) :=
        declareLevels crate problem.predicates (List.range levels) crate.new
      let unrolled ← addCopies crate
        (fun lc => copyClause levelPredicates backEdges levels lc.1 lc.2)
        (leveledClauses levels problem.clauses) unrolled
      if crate.hasCycles unrolled then none
      else some ⟨unrolled, k⟩

end Native

end TrustMc
