import TrustMc.DirectSmt.Abstraction
import TrustMc.DirectSmt.Slicing
import TrustMc.DirectSmt.Values

/-!
# Asking the solver

`solveConstraints` decides whether constraints are satisfiable: it probes slices of them, then
asks for all of them, and if that stays undecided it asks for their abstraction.

The solver is a parameter. It may answer that it does not know, but where it answers it is right
(`Solver.Right`) about the theories it decides for, and then so is what is made of its answers:

* `satisfiable_of_sat`: constraints called satisfiable hold under some assignment;
* `not_satisfiable_of_unsat`: constraints called unsatisfiable hold under none, though the answer
  may be one about a slice or about the abstraction;
* `solveConstraints_ne_undecided`: a solver that always answers leaves nothing undecided.
-/

namespace TrustMc.DirectSmt

open Native

/-! ### The solver -/

/-- `SmtResult`. -/
inductive SmtResult
  | sat (model : List (String × SmtValue))
  | unsat
  | unsatWithCore
  | unsatWithFarkas
  | unknown

/-- `SolveOutcomeTag`. -/
inductive SolveOutcomeTag
  | sat
  | unsat
  | undecided
  deriving DecidableEq

/-- `is_unsat`. -/
def SmtResult.isUnsat : SmtResult → Bool
  | .unsat | .unsatWithCore | .unsatWithFarkas => true
  | _ => false

/-- `model`, which is there if and only if the answer `is_sat`. -/
def SmtResult.model : SmtResult → Option (List (String × SmtValue))
  | .sat model => some model
  | _ => none

/-- `classify_smt_result`. -/
def classifySmtResult (result : SmtResult) : SolveOutcomeTag :=
  if result.model.isSome then .sat
  else if result.isUnsat then .unsat
  else .undecided

/-- `SmtContext`, with the clock and the switch the lane reads. -/
structure Solver where
  /-- The states of a context. -/
  State : Type
  /-- `make_smt_context`. -/
  makeSmtContext : ChcProblem → State
  /-- `reset`. -/
  reset : State → State
  /-- `check_sat_with_timeout`, in milliseconds. -/
  checkSatWithTimeout : State → ChcExpr → ℕ → SmtResult × State
  /-- The time, in milliseconds. -/
  now : State → ℕ
  /-- `slicing_disabled`. -/
  slicingDisabled : Bool

/-- The solver is right about the theories whenever it answers. -/
structure Solver.Right (solver : Solver) (𝓜 : Set Theory) : Prop where
  /-- A formula called satisfiable holds under some assignment. -/
  sat : ∀ s e timeout, classifySmtResult (solver.checkSatWithTimeout s e timeout).1 = .sat →
    ∃ T ∈ 𝓜, ∃ ρ : ChcEnv T, e.Holds ρ
  /-- A formula called unsatisfiable holds under none. -/
  unsat : ∀ s e timeout, classifySmtResult (solver.checkSatWithTimeout s e timeout).1 = .unsat →
    ∀ T ∈ 𝓜, ∀ ρ : ChcEnv T, ¬ e.Holds ρ

/-- The solver always answers. -/
def Solver.NeverUnknown (solver : Solver) : Prop :=
  ∀ s e timeout, classifySmtResult (solver.checkSatWithTimeout s e timeout).1 ≠ .undecided

/-! ### Solving -/

/-- `SMT_QUERY_TIMEOUT`. -/
def smtQueryTimeout : ℕ := 1000

/-- `slice_phase_budget`. -/
def slicePhaseBudget : ℕ := smtQueryTimeout

/-- `slice_probe_timeout`. -/
def sliceProbeTimeout : ℕ := min (max (smtQueryTimeout / 4) 20) smtQueryTimeout

/-- `SolveOutcome`. -/
inductive SolveOutcome
  | sat (model : Json)
  | unsat
  | undecided

section Solve

variable (crate : ExprCrate) (solver : Solver)

/-- The loop over the slices: whether one of them is unsatisfiable. -/
def probeSlices (conjuncts : List ChcExpr) (started : ℕ) :
    List (List ℕ) → solver.State → Bool × solver.State
  | [], smt => (false, smt)
  | slice :: slices, smt =>
    if slicePhaseBudget ≤ solver.now smt - started then (false, smt)
    else
      let subset := slice.filterMap fun index => conjuncts[index]?
      let (result, smt) := solver.checkSatWithTimeout (solver.reset smt) (crate.andAll subset)
        sliceProbeTimeout
      if classifySmtResult result = .unsat then (true, smt)
      else probeSlices conjuncts started slices smt

/-- `slicing_proves_unsat`. -/
def slicingProvesUnsat (smt : solver.State) (constraints : List ChcExpr) : Bool × solver.State :=
  if solver.slicingDisabled then (false, smt)
  else
    let conjuncts := flatConjuncts crate constraints
    let slices := relevanceSlices crate conjuncts
    if slices.isEmpty then (false, smt)
    else probeSlices crate solver conjuncts (solver.now smt) slices smt

/-- The fields of the JSON object of a model. -/
def modelToJson (model : List (String × SmtValue)) : Json :=
  .obj (model.map fun (name, value) => (name, smtValueToJson value))

/-- `solve_constraints`. -/
def solveConstraints (smt : solver.State) (constraints : List ChcExpr) :
    SolveOutcome × solver.State :=
  let (sliced, smt) := slicingProvesUnsat crate solver smt constraints
  if sliced then (.unsat, smt)
  else
    let (result, smt) := solver.checkSatWithTimeout (solver.reset smt)
      (crate.andAll constraints) smtQueryTimeout
    match classifySmtResult result with
    | .sat => (.sat (modelToJson (result.model.getD [])), smt)
    | .unsat => (.unsat, smt)
    | .undecided =>
      let (abstractResult, smt) := solver.checkSatWithTimeout (solver.reset smt)
        (crate.andAll (abstractWideNonlinear crate constraints)) smtQueryTimeout
      match classifySmtResult abstractResult with
      | .unsat => (.unsat, smt)
      | _ => (.undecided, smt)

variable {crate solver} {𝓜 : Set Theory}

/-! ### Answers are right -/

/-- The constraints hold under some assignment. -/
def Satisfiable (𝓜 : Set Theory) (constraints : List ChcExpr) : Prop :=
  ∃ T ∈ 𝓜, ∃ ρ : ChcEnv T, ∀ c ∈ constraints, c.Holds ρ

/-- A probed slice is a subset of the conjuncts, so all of them are unsatisfiable. -/
theorem not_holds_of_probeSlices (hcrate : crate.Lawful) (hsolver : solver.Right 𝓜)
    {conjuncts : List ChcExpr} {started : ℕ} {slices : List (List ℕ)} {smt : solver.State}
    (h : (probeSlices crate solver conjuncts started slices smt).1 = true) {T : Theory}
    (hT : T ∈ 𝓜) (ρ : ChcEnv T) : ¬ ∀ c ∈ conjuncts, c.Holds ρ := by
  induction slices generalizing smt with
  | nil => cases h
  | cons slice slices ih =>
    rw [probeSlices] at h
    split_ifs at h with hbudget
    dsimp only at h
    split_ifs at h with hunsat
    · intro hall
      refine hsolver.unsat _ _ _ hunsat T hT ρ ((hcrate.holds_andAll ρ _).2 fun c hc => ?_)
      obtain ⟨index, -, hindex⟩ := List.mem_filterMap.1 hc
      exact hall c (List.mem_of_getElem? hindex)
    · exact ih h

theorem not_holds_of_slicing (hcrate : crate.Lawful) (hsolver : solver.Right 𝓜)
    {constraints : List ChcExpr} {smt : solver.State}
    (h : (slicingProvesUnsat crate solver smt constraints).1 = true) {T : Theory} (hT : T ∈ 𝓜)
    (ρ : ChcEnv T) : ¬ ∀ c ∈ constraints, c.Holds ρ := by
  intro hall
  rw [slicingProvesUnsat] at h
  split_ifs at h
  dsimp only at h
  split_ifs at h
  refine not_holds_of_probeSlices hcrate hsolver h hT ρ fun c hc => ?_
  -- flattening keeps the meaning
  obtain ⟨e, he, hc⟩ := List.mem_flatMap.1 hc
  exact (hcrate.holds_conjuncts ρ e).2 (hall e he) c hc

/-- The outcomes of `solveConstraints`. -/
theorem solveConstraints_cases (crate : ExprCrate) (solver : Solver) (smt : solver.State)
    (constraints : List ChcExpr) :
    ((slicingProvesUnsat crate solver smt constraints).1 = true ∧
        (solveConstraints crate solver smt constraints).1 = .unsat) ∨
      ∃ s, (classifySmtResult (solver.checkSatWithTimeout s (crate.andAll constraints)
            smtQueryTimeout).1 = .sat ∧
          ∃ model, (solveConstraints crate solver smt constraints).1 = .sat model) ∨
        (classifySmtResult (solver.checkSatWithTimeout s (crate.andAll constraints)
            smtQueryTimeout).1 = .unsat ∧
          (solveConstraints crate solver smt constraints).1 = .unsat) ∨
        (classifySmtResult (solver.checkSatWithTimeout s (crate.andAll constraints)
            smtQueryTimeout).1 = .undecided ∧
          ((solveConstraints crate solver smt constraints).1 = .undecided ∨
            (∃ s', classifySmtResult (solver.checkSatWithTimeout s'
                (crate.andAll (abstractWideNonlinear crate constraints)) smtQueryTimeout).1 =
                  .unsat) ∧
              (solveConstraints crate solver smt constraints).1 = .unsat)) := by
  rw [solveConstraints]
  cases hsliced : (slicingProvesUnsat crate solver smt constraints).1 with
  | true => exact .inl ⟨rfl, by simp [hsliced]⟩
  | false =>
    refine .inr ⟨solver.reset (slicingProvesUnsat crate solver smt constraints).2, ?_⟩
    simp only [hsliced, Bool.false_eq_true, if_false]
    cases hfull : classifySmtResult (solver.checkSatWithTimeout
        (solver.reset (slicingProvesUnsat crate solver smt constraints).2)
        (crate.andAll constraints) smtQueryTimeout).1 with
    | sat => exact .inl ⟨rfl, _, rfl⟩
    | unsat => exact .inr (.inl ⟨rfl, rfl⟩)
    | undecided =>
      refine .inr (.inr ⟨rfl, ?_⟩)
      dsimp only
      split
      · rename_i habstract
        exact .inr ⟨⟨_, habstract⟩, rfl⟩
      · exact .inl rfl

/-- **A model**: constraints called satisfiable hold under some assignment. -/
theorem satisfiable_of_sat (hcrate : crate.Lawful) (hsolver : solver.Right 𝓜)
    {smt : solver.State} {constraints : List ChcExpr} {model : Json}
    (h : (solveConstraints crate solver smt constraints).1 = .sat model) :
    Satisfiable 𝓜 constraints := by
  rcases solveConstraints_cases crate solver smt constraints with ⟨-, hout⟩ |
    ⟨s, ⟨hsat, -⟩ | ⟨-, hout⟩ | ⟨-, hout | ⟨-, hout⟩⟩⟩
  · rw [hout] at h
    cases h
  · obtain ⟨T, hT, ρ, hρ⟩ := hsolver.sat _ _ _ hsat
    exact ⟨T, hT, ρ, (hcrate.holds_andAll ρ _).1 hρ⟩
  all_goals
    rw [hout] at h
    cases h

/-- **No model**: constraints called unsatisfiable hold under no assignment. -/
theorem not_satisfiable_of_unsat (hcrate : crate.Lawful) (hsolver : solver.Right 𝓜)
    {smt : solver.State} {constraints : List ChcExpr}
    (h : (solveConstraints crate solver smt constraints).1 = .unsat) :
    ¬ Satisfiable 𝓜 constraints := by
  rintro ⟨T, hT, ρ, hρ⟩
  rcases solveConstraints_cases crate solver smt constraints with ⟨hsliced, -⟩ |
    ⟨s, ⟨-, model, hout⟩ | ⟨hunsat, -⟩ | ⟨-, hout | ⟨⟨s', hunsat⟩, -⟩⟩⟩
  · exact not_holds_of_slicing hcrate hsolver hsliced hT ρ hρ
  · rw [hout] at h
    cases h
  · exact hsolver.unsat _ _ _ hunsat T hT ρ ((hcrate.holds_andAll ρ _).2 hρ)
  · rw [hout] at h
    cases h
  · -- what satisfies the constraints can be extended to satisfy their abstraction
    obtain ⟨ρ', hρ'⟩ := abstractWideNonlinear_sound hcrate hρ
    exact hsolver.unsat _ _ _ hunsat T hT ρ' ((hcrate.holds_andAll ρ' _).2 hρ')

/-- A solver that always answers leaves nothing undecided. -/
theorem solveConstraints_ne_undecided (hsolver : solver.NeverUnknown) (smt : solver.State)
    (constraints : List ChcExpr) :
    (solveConstraints crate solver smt constraints).1 ≠ .undecided := by
  rcases solveConstraints_cases crate solver smt constraints with ⟨-, hout⟩ |
    ⟨s, ⟨-, model, hout⟩ | ⟨-, hout⟩ | ⟨hfull, -⟩⟩
  · simp [hout]
  · simp [hout]
  · simp [hout]
  · exact absurd hfull (hsolver _ _ _)

end Solve

end TrustMc.DirectSmt
