import TrustMc.DirectSmt.Acyclic
import TrustMc.DirectSmt.AlphaRename
import TrustMc.DirectSmt.Solve

/-!
# The search for a derivation of the error

The search keeps symbolic facts of the predicates: arguments, and the constraints under which
they are derived. Each pass puts the facts found so far into the body of every clause; if the
constraints are satisfiable, the head is a new fact, and for a query clause the error is
derivable. What the solver cannot decide or the caps cut off is remembered in `truncated`.

The lemmas say what a combination, a clause and a pass do to the facts:

* `all_pass`: a property of facts that clauses hand on from body to head is kept;
* `passFrom_ok`: after a pass that leaves out nothing, every combination of the facts before it
  is accounted for (`Covered`);
* `passFrom_settled`: a pass adds nothing to predicates whose combinations are accounted for.
-/

namespace TrustMc.DirectSmt

open Native

/-- `AcyclicUnsafeWitness`. -/
structure AcyclicUnsafeWitness where
  /-- The solver's model. -/
  model : Json
  /-- The clauses of the derivation, in order. -/
  derivationClauseIndices : List ℕ

/-- `AcyclicDecision`. -/
inductive AcyclicDecision
  | unsafeWith (witness : AcyclicUnsafeWitness)
  | safe
  | inconclusive

/-- `DerivationOutcome`. -/
inductive DerivationOutcome
  | witness (witness : AcyclicUnsafeWitness)
  | exhaustivelyNone
  | truncated

/-- `ReachFact`. -/
structure ReachFact where
  /-- The arguments of the predicate. -/
  args : List ChcExpr
  /-- The constraints of the derivation. -/
  constraints : List ChcExpr
  /-- The clauses of the derivation, in order. -/
  derivationClauseIndices : List ℕ

/-- `MAX_FACTS_PER_PREDICATE`. -/
def maxFactsPerPredicate : ℕ := 128

/-- `MAX_COMBINATIONS_PER_CLAUSE`. -/
def maxCombinationsPerClause : ℕ := 1024

/-- What the search keeps: the solver's context, the facts of each predicate, whether something
was left out, and whether the current pass has found something. -/
structure SearchState (S : Type) where
  smt : S
  facts : ℕ → List ReachFact
  truncated : Bool
  changed : Bool

/-- `body_fact_options`. -/
def bodyFactOptions (clause : HornClause) (facts : ℕ → List ReachFact) :
    Option (List (List ReachFact)) :=
  clause.body.predicates.mapM fun app =>
    if (facts app.1).isEmpty then none else some (facts app.1)

/-- The combinations of `FactCombinationIter`, the last position running fastest. -/
def factCombinations : List (List ReachFact) → List (List ReachFact)
  | [] => [[]]
  | facts :: options =>
    facts.flatMap fun fact => (factCombinations options).map fun combo => fact :: combo

section Search

variable (crate : ExprCrate) (solver : Solver)

/-- The constraints of a clause with facts put into its body. -/
def combinedConstraints (clause : HornClause) (combo : List ReachFact) : List ChcExpr :=
  ((combo.zip clause.body.predicates).flatMap fun (fact, app) =>
      fact.constraints ++
        (app.2.zip fact.args).map fun (bodyArg, factArg) => crate.eq bodyArg factArg) ++
    clause.body.constraint.toList

/-- One combination: the error is derived, or the state goes on. -/
def tryCombination (clauseIndex : ℕ) (clause : HornClause) (combo : List ReachFact)
    (st : SearchState solver.State) : Except AcyclicUnsafeWitness (SearchState solver.State) :=
  let constraints := combinedConstraints crate clause combo
  let (outcome, smt) := solveConstraints crate solver st.smt constraints
  let st := { st with smt }
  match outcome with
  | .unsat => .ok st
  | .undecided => .ok { st with truncated := true }
  | .sat model =>
    let indices := (combo.head?.elim [] ReachFact.derivationClauseIndices) ++ [clauseIndex]
    match clause.head with
    | .false => .error ⟨model, indices⟩
    | .predicate pred args =>
      let entry := st.facts pred
      -- a fact beyond the cap is dropped, after which safety is not claimed any more
      if maxFactsPerPredicate ≤ entry.length then .ok { st with truncated := true }
      else if entry.any fun fact => decide (fact.args = args ∧ fact.constraints = constraints) then
        .ok st
      else
        .ok { st with
          facts := Function.update st.facts pred (entry ++ [⟨args, constraints, indices⟩])
          changed := true }
    | .unrecognized => .ok st

/-- The loop over the combinations of a clause. -/
def combinationLoop (clauseIndex : ℕ) (clause : HornClause) : ℕ → List (List ReachFact) →
    SearchState solver.State → Except AcyclicUnsafeWitness (SearchState solver.State)
  | _, [], st => .ok st
  | checked, combo :: combos, st =>
    if maxCombinationsPerClause < checked + 1 then .ok { st with truncated := true }
    else do
      let st ← tryCombination crate solver clauseIndex clause combo st
      combinationLoop clauseIndex clause (checked + 1) combos st

/-- The work of a pass on one clause. -/
def clauseStep (clauseIndex : ℕ) (clause : HornClause) (st : SearchState solver.State) :
    Except AcyclicUnsafeWitness (SearchState solver.State) :=
  match bodyFactOptions clause st.facts with
  | none => .ok st
  | some options =>
    combinationLoop crate solver clauseIndex clause 0 (factCombinations options) st

/-- One pass over the clauses. -/
def pass (clauses : List HornClause) (st : SearchState solver.State) :
    Except AcyclicUnsafeWitness (SearchState solver.State) :=
  clauses.zipIdx.foldlM (fun st (clause, clauseIndex) =>
    clauseStep crate solver clauseIndex clause st) { st with changed := false }

/-- The passes, up to a number of them. -/
def searchLoop (clauses : List HornClause) : ℕ → SearchState solver.State → DerivationOutcome
  | 0, _ => .truncated
  | fuel + 1, st =>
    match pass crate solver clauses st with
    | .error witness => .witness witness
    | .ok st =>
      if !st.changed then (if st.truncated then .truncated else .exhaustivelyNone)
      else searchLoop clauses fuel st

/-- The state at the start of a search. -/
def SearchState.start (problem : ChcProblem) : SearchState solver.State :=
  ⟨solver.makeSmtContext problem, fun _ => [], false, false⟩

/-- `acyclic_error_derivation`. -/
def acyclicErrorDerivation (problem : ChcProblem) : DerivationOutcome :=
  match alphaRenamedClauses crate problem with
  | none => .truncated
  | some clauses =>
    searchLoop crate solver clauses (problem.predicates.length + problem.clauses.length + 1)
      (.start solver problem)

/-- `acyclic_direct_smt_decision`. -/
def acyclicDirectSmtDecision (problem : ChcProblem) : AcyclicDecision :=
  if !isAcyclicProblem crate problem ∨
      problem.clauses.any (fun clause => decide (1 < clause.body.predicates.length)) then
    .inconclusive
  else
    match acyclicErrorDerivation crate solver problem with
    | .witness witness => .unsafeWith witness
    | .exhaustivelyNone => .safe
    | .truncated => .inconclusive

/-! ### Combinations -/

/-- Lists of one length with equal values position by position. -/
theorem map_eq_of_zip {α β γ : Type*} {f : α → γ} {g : β → γ} {l : List α} {l' : List β}
    (hlen : l.length = l'.length) :
    (∀ p ∈ l.zip l', f p.1 = g p.2) ↔ l.map f = l'.map g := by
  induction l generalizing l' with
  | nil => cases l' <;> simp at hlen ⊢
  | cons a l ih =>
    cases l' with
    | nil => simp at hlen
    | cons b l' =>
      have hrest : l.length = l'.length := by simpa using hlen
      simp [← ih hrest]

/-- The combinations a clause is tried with. -/
def combos (clause : HornClause) (facts : ℕ → List ReachFact) : List (List ReachFact) :=
  ((bodyFactOptions clause facts).map factCombinations).getD []

/-- A linear clause is tried with each fact of its body predicate. -/
theorem combos_eq {clause : HornClause} (hlinear : clause.body.predicates.length ≤ 1)
    (facts : ℕ → List ReachFact) :
    combos clause facts =
      match clause.body.predicates with
      | [] => [[]]
      | app :: _ => (facts app.1).map fun fact => [fact] := by
  rw [combos, bodyFactOptions]
  match hpreds : clause.body.predicates with
  | [] => rfl
  | [app] =>
    by_cases hempty : facts app.1 = []
    · simp [hempty]
    · simp [hempty, factCombinations, List.map_eq_flatMap]
  | _ :: _ :: _ => simp [hpreds] at hlinear

theorem mem_combos {clause : HornClause} (hlinear : clause.body.predicates.length ≤ 1)
    {facts : ℕ → List ReachFact} {combo : List ReachFact} :
    combo ∈ combos clause facts ↔ (clause.body.predicates = [] ∧ combo = []) ∨
      ∃ app fact, clause.body.predicates = [app] ∧ fact ∈ facts app.1 ∧ combo = [fact] := by
  rw [combos_eq hlinear]
  match hpreds : clause.body.predicates with
  | [] => simp
  | [app] => simp [eq_comm]
  | _ :: _ :: _ => simp [hpreds] at hlinear

variable {crate solver}

/-- A combination is accounted for: its constraints are unsatisfiable or its fact is there. -/
def Covered (crate : ExprCrate) (𝓜 : Set Theory) (clause : HornClause) (combo : List ReachFact)
    (facts : ℕ → List ReachFact) : Prop :=
  Satisfiable 𝓜 (combinedConstraints crate clause combo) → ∃ pred args,
    clause.head = .predicate pred args ∧
      ∃ fact ∈ facts pred, fact.args = args ∧
        fact.constraints = combinedConstraints crate clause combo

/-- A later state: there are more facts, and what was left out is remembered. -/
structure Extends (st st' : SearchState solver.State) : Prop where
  facts : ∀ p, ∀ fact ∈ st.facts p, fact ∈ st'.facts p
  length : ∀ p, (st.facts p).length ≤ (st'.facts p).length
  truncated : st'.truncated = false → st.truncated = false
  unchanged : st'.changed = false → st.changed = false ∧ st'.facts = st.facts

theorem Extends.refl (st : SearchState solver.State) : Extends st st :=
  ⟨fun _ _ h => h, fun _ => le_rfl, id, fun h => ⟨h, rfl⟩⟩

theorem Extends.trans {st st' st'' : SearchState solver.State} (h : Extends st st')
    (h' : Extends st' st'') : Extends st st'' where
  facts p fact hfact := h'.facts p fact (h.facts p fact hfact)
  length p := (h.length p).trans (h'.length p)
  truncated ht := h.truncated (h'.truncated ht)
  unchanged hc :=
    ⟨(h.unchanged (h'.unchanged hc).1).1,
      (h'.unchanged hc).2.trans (h.unchanged (h'.unchanged hc).1).2⟩

theorem Covered.mono {𝓜 : Set Theory} {clause : HornClause} {combo : List ReachFact}
    {st st' : SearchState solver.State} (h : Covered crate 𝓜 clause combo st.facts)
    (hext : Extends st st') : Covered crate 𝓜 clause combo st'.facts := fun hsat => by
  obtain ⟨pred, args, hhead, fact, hfact, heq⟩ := h hsat
  exact ⟨pred, args, hhead, fact, hext.facts pred fact hfact, heq⟩

/-! ### One combination -/

section Combination

variable {𝓜 : Set Theory} {clauseIndex : ℕ} {clause : HornClause} {combo : List ReachFact}
  {st st' : SearchState solver.State}

/-- **What a combination does**: it adds nothing, or its fact. -/
theorem tryCombination_cases (hcrate : crate.Lawful) (hsolver : solver.Right 𝓜)
    (h : tryCombination crate solver clauseIndex clause combo st = .ok st') :
    (st'.facts = st.facts ∧ st'.changed = st.changed ∧
        (st'.truncated = true ∨ (st'.truncated = st.truncated ∧
          (clause.head ≠ .unrecognized → Covered crate 𝓜 clause combo st.facts)))) ∨
      ∃ pred args indices, clause.head = .predicate pred args ∧
        Satisfiable 𝓜 (combinedConstraints crate clause combo) ∧
        (∀ fact ∈ st.facts pred, ¬ (fact.args = args ∧
          fact.constraints = combinedConstraints crate clause combo)) ∧
        st'.facts = Function.update st.facts pred
          (st.facts pred ++ [⟨args, combinedConstraints crate clause combo, indices⟩]) ∧
        st'.changed = true ∧ st'.truncated = st.truncated := by
  rw [tryCombination] at h
  dsimp only at h
  cases hsolve : (solveConstraints crate solver st.smt
      (combinedConstraints crate clause combo)).1 with
  | unsat =>
    simp only [hsolve] at h
    obtain rfl := Except.ok.inj h
    exact .inl ⟨rfl, rfl, .inr ⟨rfl, fun _ hsat =>
      absurd hsat (not_satisfiable_of_unsat hcrate hsolver hsolve)⟩⟩
  | undecided =>
    simp only [hsolve] at h
    obtain rfl := Except.ok.inj h
    exact .inl ⟨rfl, rfl, .inl rfl⟩
  | sat model =>
    have hsat := satisfiable_of_sat hcrate hsolver hsolve
    simp only [hsolve] at h
    cases hhead : clause.head with
    | «false» =>
      simp only [hhead] at h
      cases h
    | unrecognized =>
      simp only [hhead] at h
      obtain rfl := Except.ok.inj h
      exact .inl ⟨rfl, rfl, .inr ⟨rfl, fun hne => absurd rfl hne⟩⟩
    | predicate pred args =>
      simp only [hhead] at h
      split_ifs at h with hcap hdup
      · obtain rfl := Except.ok.inj h
        exact .inl ⟨rfl, rfl, .inl rfl⟩
      · obtain rfl := Except.ok.inj h
        obtain ⟨fact, hfact, heq⟩ := List.any_eq_true.1 hdup
        exact .inl ⟨rfl, rfl, .inr ⟨rfl, fun _ _ =>
          ⟨pred, args, hhead, fact, hfact, of_decide_eq_true heq⟩⟩⟩
      · obtain rfl := Except.ok.inj h
        refine .inr ⟨pred, args, _, rfl, hsat, fun fact hfact heq => hdup ?_, rfl, rfl, rfl⟩
        exact List.any_eq_true.2 ⟨fact, hfact, decide_eq_true heq⟩

/-- The error is derived from satisfiable constraints of a query clause. -/
theorem of_tryCombination_error (hcrate : crate.Lawful) (hsolver : solver.Right 𝓜)
    {witness : AcyclicUnsafeWitness}
    (h : tryCombination crate solver clauseIndex clause combo st = .error witness) :
    clause.head = .false ∧ Satisfiable 𝓜 (combinedConstraints crate clause combo) := by
  rw [tryCombination] at h
  dsimp only at h
  cases hsolve : (solveConstraints crate solver st.smt
      (combinedConstraints crate clause combo)).1 with
  | unsat | undecided =>
    simp only [hsolve] at h
    cases h
  | sat model =>
    refine ⟨?_, satisfiable_of_sat hcrate hsolver hsolve⟩
    simp only [hsolve] at h
    cases hhead : clause.head with
    | «false» => rfl
    | unrecognized =>
      simp only [hhead] at h
      cases h
    | predicate pred args =>
      simp only [hhead] at h
      split_ifs at h

theorem extends_tryCombination (hcrate : crate.Lawful) (hsolver : solver.Right 𝓜)
    (h : tryCombination crate solver clauseIndex clause combo st = .ok st') : Extends st st' := by
  rcases tryCombination_cases hcrate hsolver h with ⟨hfacts, hchanged, htrunc⟩ |
    ⟨pred, args, indices, -, -, -, hfacts, hchanged, htrunc⟩
  · refine ⟨fun p fact hfact => hfacts ▸ hfact, fun p => (hfacts ▸ le_rfl), fun ht => ?_,
      fun hc => ⟨hchanged ▸ hc, hfacts⟩⟩
    rcases htrunc with htrunc | ⟨htrunc, -⟩
    · rw [htrunc] at ht
      cases ht
    · rwa [← htrunc]
  · refine ⟨fun p fact hfact => ?_, fun p => ?_, fun ht => htrunc ▸ ht, fun hc => ?_⟩
    · rw [hfacts]
      by_cases hp : p = pred
      · subst hp
        rw [Function.update_self]
        exact List.mem_append_left _ hfact
      · rwa [Function.update_of_ne hp]
    · rw [hfacts]
      by_cases hp : p = pred
      · subst hp
        rw [Function.update_self, List.length_append]
        exact Nat.le_add_right _ _
      · rw [Function.update_of_ne hp]
    · rw [hchanged] at hc
      cases hc

/-- A combination that leaves out nothing is accounted for. -/
theorem covered_of_tryCombination (hcrate : crate.Lawful) (hsolver : solver.Right 𝓜)
    (hhead : clause.head ≠ .unrecognized) (ht : st'.truncated = false)
    (h : tryCombination crate solver clauseIndex clause combo st = .ok st') :
    Covered crate 𝓜 clause combo st'.facts := by
  rcases tryCombination_cases hcrate hsolver h with ⟨hfacts, -, htrunc | ⟨-, hcov⟩⟩ |
    ⟨pred, args, indices, hpred, -, -, hfacts, -⟩
  · rw [htrunc] at ht
    cases ht
  · rw [hfacts]
    exact hcov hhead
  · refine fun _ => ⟨pred, args, hpred, ⟨args, _, indices⟩, ?_, rfl, rfl⟩
    rw [hfacts, Function.update_self]
    exact List.mem_append_right _ (List.mem_singleton.2 rfl)

/-- A combination that is accounted for adds nothing. -/
theorem tryCombination_of_covered (hcrate : crate.Lawful) (hsolver : solver.Right 𝓜)
    (hcov : Covered crate 𝓜 clause combo st.facts)
    (h : tryCombination crate solver clauseIndex clause combo st = .ok st') :
    st'.facts = st.facts ∧ st'.changed = st.changed := by
  rcases tryCombination_cases hcrate hsolver h with ⟨hfacts, hchanged, -⟩ |
    ⟨pred, args, indices, hpred, hsat, hnew, -⟩
  · exact ⟨hfacts, hchanged⟩
  · obtain ⟨pred', args', hpred', fact, hfact, heq⟩ := hcov hsat
    obtain ⟨rfl, rfl⟩ : pred = pred' ∧ args = args' := by simpa [hpred] using hpred'
    exact absurd heq (hnew fact hfact)

/-- A combination touches the facts of the head's predicate only. -/
theorem tryCombination_frame (hcrate : crate.Lawful) (hsolver : solver.Right 𝓜)
    (h : tryCombination crate solver clauseIndex clause combo st = .ok st') :
    (∀ p, (∀ args, clause.head ≠ .predicate p args) → st'.facts p = st.facts p) ∧
      ((∀ p args, clause.head ≠ .predicate p args) → st'.changed = st.changed) := by
  rcases tryCombination_cases hcrate hsolver h with ⟨hfacts, hchanged, -⟩ |
    ⟨pred, args, indices, hpred, -, -, hfacts, -⟩
  · exact ⟨fun p _ => congrFun hfacts p, fun _ => hchanged⟩
  · refine ⟨fun p hp => ?_, fun hne => absurd hpred (hne pred args)⟩
    rw [hfacts, Function.update_of_ne]
    rintro rfl
    exact hp args hpred

/-- A combination that is decided and within the cap leaves out nothing. -/
theorem tryCombination_truncated (hnever : solver.NeverUnknown)
    (hcap : ∀ p, (st'.facts p).length < maxFactsPerPredicate)
    (h : tryCombination crate solver clauseIndex clause combo st = .ok st') :
    st'.truncated = st.truncated := by
  rw [tryCombination] at h
  dsimp only at h
  cases hsolve : (solveConstraints crate solver st.smt
      (combinedConstraints crate clause combo)).1 with
  | unsat =>
    simp only [hsolve] at h
    obtain rfl := Except.ok.inj h
    rfl
  | undecided => exact absurd hsolve (solveConstraints_ne_undecided hnever _ _)
  | sat model =>
    simp only [hsolve] at h
    cases hhead : clause.head with
    | «false» =>
      simp only [hhead] at h
      cases h
    | unrecognized =>
      simp only [hhead] at h
      obtain rfl := Except.ok.inj h
      rfl
    | predicate pred args =>
      simp only [hhead] at h
      split_ifs at h with hfull hdup
      · obtain rfl := Except.ok.inj h
        exact absurd (hcap pred) (Nat.not_lt.2 hfull)
      · obtain rfl := Except.ok.inj h
        rfl
      · obtain rfl := Except.ok.inj h
        rfl

/-- Every fact has the property. -/
def AllFacts (P : ℕ → ReachFact → Prop) (facts : ℕ → List ReachFact) : Prop :=
  ∀ p, ∀ fact ∈ facts p, P p fact

/-- The facts a combination adds. -/
def HandsOn (crate : ExprCrate) (P : ℕ → ReachFact → Prop) (clause : HornClause)
    (combo : List ReachFact) : Prop :=
  ∀ pred args indices, clause.head = .predicate pred args →
    P pred ⟨args, combinedConstraints crate clause combo, indices⟩

theorem all_tryCombination (hcrate : crate.Lawful) (hsolver : solver.Right 𝓜)
    {P : ℕ → ReachFact → Prop} (hP : HandsOn crate P clause combo) (hall : AllFacts P st.facts)
    (h : tryCombination crate solver clauseIndex clause combo st = .ok st') :
    AllFacts P st'.facts := by
  rcases tryCombination_cases hcrate hsolver h with ⟨hfacts, -⟩ |
    ⟨pred, args, indices, hpred, -, -, hfacts, -⟩
  · rwa [hfacts]
  · intro p fact hfact
    rw [hfacts] at hfact
    by_cases hp : p = pred
    · subst hp
      rw [Function.update_self, List.mem_append, List.mem_singleton] at hfact
      rcases hfact with hfact | rfl
      · exact hall p fact hfact
      · exact hP p args indices hpred
    · rw [Function.update_of_ne hp] at hfact
      exact hall p fact hfact

end Combination

/-! ### One clause -/

section Clause

variable {𝓜 : Set Theory} {clauseIndex : ℕ} {clause : HornClause}
  {st st' : SearchState solver.State}

/-- **What the combinations of a clause do**: the state is extended, and if nothing was left out
they are all accounted for. -/
theorem combinationLoop_ok (hcrate : crate.Lawful) (hsolver : solver.Right 𝓜)
    (hhead : clause.head ≠ .unrecognized) {checked : ℕ} {combos : List (List ReachFact)}
    (h : combinationLoop crate solver clauseIndex clause checked combos st = .ok st') :
    Extends st st' ∧ (st'.truncated = false → ∀ combo ∈ combos,
      Covered crate 𝓜 clause combo st'.facts) := by
  induction combos generalizing checked st with
  | nil =>
    obtain rfl := Except.ok.inj h
    exact ⟨.refl st, fun _ => by simp⟩
  | cons combo combos ih =>
    rw [combinationLoop] at h
    split_ifs at h with hcap
    · obtain rfl := Except.ok.inj h
      refine ⟨⟨fun _ _ h => h, fun _ => le_rfl, fun ht => ?_, fun hc => ⟨hc, rfl⟩⟩, fun ht => ?_⟩
      · cases ht
      · cases ht
    · obtain ⟨st₁, h₁, h₂⟩ := bind_eq_ok.1 h
      obtain ⟨hext, hcov⟩ := ih h₂
      refine ⟨(extends_tryCombination hcrate hsolver h₁).trans hext, fun ht => ?_⟩
      refine List.forall_mem_cons.2 ⟨?_, hcov ht⟩
      exact (covered_of_tryCombination hcrate hsolver hhead (hext.truncated ht) h₁).mono hext

theorem combinationLoop_frame (hcrate : crate.Lawful) (hsolver : solver.Right 𝓜) {checked : ℕ}
    {combos : List (List ReachFact)}
    (h : combinationLoop crate solver clauseIndex clause checked combos st = .ok st') :
    (∀ p, (∀ args, clause.head ≠ .predicate p args) → st'.facts p = st.facts p) ∧
      ((∀ p args, clause.head ≠ .predicate p args) → st'.changed = st.changed) := by
  induction combos generalizing checked st with
  | nil =>
    obtain rfl := Except.ok.inj h
    exact ⟨fun _ _ => rfl, fun _ => rfl⟩
  | cons combo combos ih =>
    rw [combinationLoop] at h
    split_ifs at h with hcap
    · obtain rfl := Except.ok.inj h
      exact ⟨fun _ _ => rfl, fun _ => rfl⟩
    · obtain ⟨st₁, h₁, h₂⟩ := bind_eq_ok.1 h
      obtain ⟨hfacts, hchanged⟩ := tryCombination_frame hcrate hsolver h₁
      obtain ⟨hfacts', hchanged'⟩ := ih h₂
      exact ⟨fun p hp => (hfacts' p hp).trans (hfacts p hp),
        fun hne => (hchanged' hne).trans (hchanged hne)⟩

theorem combinationLoop_of_covered (hcrate : crate.Lawful) (hsolver : solver.Right 𝓜)
    {checked : ℕ} {combos : List (List ReachFact)}
    (hcov : ∀ combo ∈ combos, Covered crate 𝓜 clause combo st.facts)
    (h : combinationLoop crate solver clauseIndex clause checked combos st = .ok st') :
    st'.facts = st.facts ∧ st'.changed = st.changed := by
  induction combos generalizing checked st with
  | nil =>
    obtain rfl := Except.ok.inj h
    exact ⟨rfl, rfl⟩
  | cons combo combos ih =>
    obtain ⟨hcombo, hcov⟩ := List.forall_mem_cons.1 hcov
    rw [combinationLoop] at h
    split_ifs at h with hcap
    · obtain rfl := Except.ok.inj h
      exact ⟨rfl, rfl⟩
    · obtain ⟨st₁, h₁, h₂⟩ := bind_eq_ok.1 h
      obtain ⟨hfacts, hchanged⟩ := tryCombination_of_covered hcrate hsolver hcombo h₁
      obtain ⟨hfacts', hchanged'⟩ := ih (fun combo hc => hfacts ▸ hcov combo hc) h₂
      exact ⟨hfacts'.trans hfacts, hchanged'.trans hchanged⟩

theorem all_combinationLoop (hcrate : crate.Lawful) (hsolver : solver.Right 𝓜)
    {P : ℕ → ReachFact → Prop} {checked : ℕ} {combos : List (List ReachFact)}
    (hP : ∀ combo ∈ combos, HandsOn crate P clause combo) (hall : AllFacts P st.facts)
    (h : combinationLoop crate solver clauseIndex clause checked combos st = .ok st') :
    AllFacts P st'.facts := by
  induction combos generalizing checked st with
  | nil =>
    obtain rfl := Except.ok.inj h
    exact hall
  | cons combo combos ih =>
    obtain ⟨hcombo, hP⟩ := List.forall_mem_cons.1 hP
    rw [combinationLoop] at h
    split_ifs at h with hcap
    · obtain rfl := Except.ok.inj h
      exact hall
    · obtain ⟨st₁, h₁, h₂⟩ := bind_eq_ok.1 h
      exact ih hP (all_tryCombination hcrate hsolver hcombo hall h₁) h₂

theorem combinationLoop_truncated (hcrate : crate.Lawful) (hsolver : solver.Right 𝓜)
    (hnever : solver.NeverUnknown) (hhead : clause.head ≠ .unrecognized) {checked : ℕ}
    {combos : List (List ReachFact)}
    (hcap : ∀ p, (st'.facts p).length < maxFactsPerPredicate)
    (hcombos : checked + combos.length ≤ maxCombinationsPerClause)
    (h : combinationLoop crate solver clauseIndex clause checked combos st = .ok st') :
    st'.truncated = st.truncated := by
  induction combos generalizing checked st with
  | nil =>
    obtain rfl := Except.ok.inj h
    rfl
  | cons combo combos ih =>
    rw [List.length_cons] at hcombos
    rw [combinationLoop, if_neg (by omega)] at h
    obtain ⟨st₁, h₁, h₂⟩ := bind_eq_ok.1 h
    have hext := (combinationLoop_ok hcrate hsolver hhead h₂).1
    refine (ih (by omega) h₂).trans (tryCombination_truncated hnever (fun p => ?_) h₁)
    exact Nat.lt_of_le_of_lt (hext.length p) (hcap p)

theorem of_combinationLoop_error (hcrate : crate.Lawful) (hsolver : solver.Right 𝓜)
    {checked : ℕ} {combos : List (List ReachFact)} {witness : AcyclicUnsafeWitness}
    (h : combinationLoop crate solver clauseIndex clause checked combos st = .error witness) :
    clause.head = .false ∧
      ∃ combo ∈ combos, Satisfiable 𝓜 (combinedConstraints crate clause combo) := by
  induction combos generalizing checked st with
  | nil => cases h
  | cons combo combos ih =>
    rw [combinationLoop] at h
    split_ifs at h with hcap
    rcases bind_eq_error.1 h with h | ⟨st₁, -, h⟩
    · obtain ⟨hhead, hsat⟩ := of_tryCombination_error hcrate hsolver h
      exact ⟨hhead, combo, List.mem_cons_self, hsat⟩
    · obtain ⟨hhead, combo', hmem, hsat⟩ := ih h
      exact ⟨hhead, combo', List.mem_cons_of_mem _ hmem, hsat⟩

/-- A clause is tried with its combinations. -/
theorem clauseStep_eq (crate : ExprCrate) (solver : Solver) (clauseIndex : ℕ)
    (clause : HornClause) (st : SearchState solver.State) :
    clauseStep crate solver clauseIndex clause st =
      combinationLoop crate solver clauseIndex clause 0 (combos clause st.facts) st := by
  rw [clauseStep, combos]
  cases bodyFactOptions clause st.facts with
  | none => rfl
  | some options => rfl

end Clause

/-! ### One pass -/

section Pass

variable {𝓜 : Set Theory} {st st' : SearchState solver.State}

/-- The clauses of a pass, from some state on. -/
def passFrom (crate : ExprCrate) (solver : Solver) (clauses : List (HornClause × ℕ))
    (st : SearchState solver.State) : Except AcyclicUnsafeWitness (SearchState solver.State) :=
  clauses.foldlM (fun st (clause, clauseIndex) =>
    clauseStep crate solver clauseIndex clause st) st

theorem passFrom_cons {c : HornClause × ℕ} {clauses : List (HornClause × ℕ)} :
    passFrom crate solver (c :: clauses) st =
      clauseStep crate solver c.2 c.1 st >>= passFrom crate solver clauses := by
  rw [passFrom, List.foldlM_cons]
  rfl

theorem pass_eq {clauses : List HornClause} :
    pass crate solver clauses st =
      passFrom crate solver clauses.zipIdx { st with changed := false } := rfl

/-- **A pass that leaves out nothing**: every combination of the facts before it is accounted
for after it. -/
theorem passFrom_ok (hcrate : crate.Lawful) (hsolver : solver.Right 𝓜)
    {clauses : List (HornClause × ℕ)} (hhead : ∀ c ∈ clauses, c.1.head ≠ .unrecognized)
    (h : passFrom crate solver clauses st = .ok st') :
    Extends st st' ∧ (st'.truncated = false → ∀ c ∈ clauses, ∃ st₁, Extends st st₁ ∧
      Extends st₁ st' ∧ ∀ combo ∈ combos c.1 st₁.facts,
        Covered crate 𝓜 c.1 combo st'.facts) := by
  induction clauses generalizing st with
  | nil =>
    obtain rfl := Except.ok.inj h
    exact ⟨.refl st, fun _ => by simp⟩
  | cons c clauses ih =>
    obtain ⟨hc, hhead⟩ := List.forall_mem_cons.1 hhead
    rw [passFrom_cons] at h
    obtain ⟨st₁, h₁, h₂⟩ := bind_eq_ok.1 h
    rw [clauseStep_eq] at h₁
    obtain ⟨hext₁, hcov₁⟩ := combinationLoop_ok hcrate hsolver hc h₁
    obtain ⟨hext, hcov⟩ := ih hhead h₂
    refine ⟨hext₁.trans hext, fun ht => List.forall_mem_cons.2 ⟨?_, fun c' hc' => ?_⟩⟩
    · exact ⟨st, .refl st, hext₁.trans hext, fun combo hcombo =>
        (hcov₁ (hext.truncated ht) combo hcombo).mono hext⟩
    · obtain ⟨st₂, hfrom, hto, hall⟩ := hcov ht c' hc'
      exact ⟨st₂, hext₁.trans hfrom, hto, hall⟩

/-- A pass of linear clauses that is decided and within the caps leaves out nothing. -/
theorem passFrom_truncated (hcrate : crate.Lawful) (hsolver : solver.Right 𝓜)
    (hnever : solver.NeverUnknown) {clauses : List (HornClause × ℕ)}
    (hhead : ∀ c ∈ clauses, c.1.head ≠ .unrecognized)
    (hlinear : ∀ c ∈ clauses, c.1.body.predicates.length ≤ 1)
    (hcap : ∀ p, (st'.facts p).length < maxFactsPerPredicate)
    (h : passFrom crate solver clauses st = .ok st') : st'.truncated = st.truncated := by
  induction clauses generalizing st with
  | nil =>
    obtain rfl := Except.ok.inj h
    rfl
  | cons c clauses ih =>
    obtain ⟨hc, hhead⟩ := List.forall_mem_cons.1 hhead
    obtain ⟨hlin, hlinear⟩ := List.forall_mem_cons.1 hlinear
    rw [passFrom_cons] at h
    obtain ⟨st₁, h₁, h₂⟩ := bind_eq_ok.1 h
    rw [clauseStep_eq] at h₁
    have hext := (passFrom_ok hcrate hsolver hhead h₂).1
    have hcap₁ : ∀ p, (st₁.facts p).length < maxFactsPerPredicate := fun p =>
      Nat.lt_of_le_of_lt (hext.length p) (hcap p)
    have hcap₀ : ∀ p, (st.facts p).length < maxFactsPerPredicate := fun p =>
      Nat.lt_of_le_of_lt ((combinationLoop_ok hcrate hsolver hc h₁).1.length p) (hcap₁ p)
    refine (ih hhead hlinear h₂).trans
      (combinationLoop_truncated hcrate hsolver hnever hc hcap₁ ?_ h₁)
    -- a linear clause has as many combinations as its body predicate has facts
    rw [combos_eq hlin, Nat.zero_add]
    cases c.1.body.predicates with
    | nil => exact Nat.one_le_two_pow (n := 10)
    | cons app rest =>
      rw [List.length_map]
      exact (hcap₀ app.1).le.trans (by decide)

/-- A property of the facts that every clause hands on from its body to its head is kept. -/
theorem all_passFrom (hcrate : crate.Lawful) (hsolver : solver.Right 𝓜)
    {P : ℕ → ReachFact → Prop} {clauses : List (HornClause × ℕ)}
    (hP : ∀ c ∈ clauses, ∀ facts, AllFacts P facts → ∀ combo ∈ combos c.1 facts,
      HandsOn crate P c.1 combo) (hall : AllFacts P st.facts) :
    (∀ st', passFrom crate solver clauses st = .ok st' → AllFacts P st'.facts) ∧
      ∀ witness, passFrom crate solver clauses st = .error witness →
        ∃ c ∈ clauses, c.1.head = .false ∧ ∃ facts, AllFacts P facts ∧
          ∃ combo ∈ combos c.1 facts, Satisfiable 𝓜 (combinedConstraints crate c.1 combo) := by
  induction clauses generalizing st with
  | nil =>
    refine ⟨fun st' h => ?_, fun witness h => by cases h⟩
    obtain rfl := Except.ok.inj h
    exact hall
  | cons c clauses ih =>
    obtain ⟨hc, hP⟩ := List.forall_mem_cons.1 hP
    rw [passFrom_cons, clauseStep_eq]
    have hnext : ∀ st₁, combinationLoop crate solver c.2 c.1 0 (combos c.1 st.facts) st =
        .ok st₁ → AllFacts P st₁.facts := fun st₁ h₁ =>
      all_combinationLoop hcrate hsolver (hc st.facts hall) hall h₁
    constructor
    · intro st' h
      obtain ⟨st₁, h₁, h₂⟩ := bind_eq_ok.1 h
      exact (ih hP (hnext st₁ h₁)).1 st' h₂
    · intro witness h
      rcases bind_eq_error.1 h with h | ⟨st₁, h₁, h₂⟩
      · obtain ⟨hhead, combo, hcombo, hsat⟩ := of_combinationLoop_error hcrate hsolver h
        exact ⟨c, List.mem_cons_self, hhead, st.facts, hall, combo, hcombo, hsat⟩
      · obtain ⟨c', hc', hrest⟩ := (ih hP (hnext st₁ h₁)).2 witness h₂
        exact ⟨c', List.mem_cons_of_mem _ hc', hrest⟩

theorem all_pass (hcrate : crate.Lawful) (hsolver : solver.Right 𝓜)
    {P : ℕ → ReachFact → Prop} {clauses : List HornClause}
    (hP : ∀ c ∈ clauses.zipIdx, ∀ facts, AllFacts P facts → ∀ combo ∈ combos c.1 facts,
      HandsOn crate P c.1 combo) (hall : AllFacts P st.facts) :
    (∀ st', pass crate solver clauses st = .ok st' → AllFacts P st'.facts) ∧
      ∀ witness, pass crate solver clauses st = .error witness →
        ∃ c ∈ clauses.zipIdx, c.1.head = .false ∧ ∃ facts, AllFacts P facts ∧
          ∃ combo ∈ combos c.1 facts, Satisfiable 𝓜 (combinedConstraints crate c.1 combo) := by
  rw [pass_eq]
  exact all_passFrom hcrate hsolver hP hall

/-- The combinations of a linear clause depend on the facts of its body predicate. -/
theorem combos_congr {clause : HornClause} (hlinear : clause.body.predicates.length ≤ 1)
    {facts facts' : ℕ → List ReachFact}
    (h : ∀ app ∈ clause.body.predicates, facts app.1 = facts' app.1) :
    combos clause facts = combos clause facts' := by
  rw [combos_eq hlinear, combos_eq hlinear]
  cases hpreds : clause.body.predicates with
  | nil => rfl
  | cons app rest =>
    dsimp only
    rw [h app (by simp [hpreds])]

/-- **Settled predicates**: where every combination that leads to certain predicates comes from
such predicates and is accounted for, a pass adds no facts to them. -/
theorem passFrom_settled (hcrate : crate.Lawful) (hsolver : solver.Right 𝓜) {Q : ℕ → Prop}
    {clauses : List (HornClause × ℕ)} {facts : ℕ → List ReachFact}
    (hlinear : ∀ c ∈ clauses, c.1.body.predicates.length ≤ 1)
    (hsettled : ∀ c ∈ clauses, ∀ q args, c.1.head = .predicate q args → Q q →
      (∀ app ∈ c.1.body.predicates, Q app.1) ∧
        ∀ combo ∈ combos c.1 facts, Covered crate 𝓜 c.1 combo facts)
    (hfacts : ∀ q, Q q → st.facts q = facts q)
    (h : passFrom crate solver clauses st = .ok st') :
    (∀ q, Q q → st'.facts q = facts q) ∧
      ((∀ c ∈ clauses, ∀ q args, c.1.head = .predicate q args → Q q) →
        st'.changed = st.changed) := by
  induction clauses generalizing st with
  | nil =>
    obtain rfl := Except.ok.inj h
    exact ⟨hfacts, fun _ => rfl⟩
  | cons c clauses ih =>
    obtain ⟨hlin, hlinear⟩ := List.forall_mem_cons.1 hlinear
    obtain ⟨hc, hsettled⟩ := List.forall_mem_cons.1 hsettled
    rw [passFrom_cons] at h
    obtain ⟨st₁, h₁, h₂⟩ := bind_eq_ok.1 h
    rw [clauseStep_eq] at h₁
    have hstep : (∀ q, Q q → st₁.facts q = facts q) ∧
        ((∀ q args, c.1.head = .predicate q args → Q q) → st₁.changed = st.changed) := by
      by_cases hhead : ∃ q args, c.1.head = .predicate q args ∧ Q q
      · -- the clause leads to a settled predicate: nothing is added
        obtain ⟨q, args, hq, hQ⟩ := hhead
        obtain ⟨hbody, hcov⟩ := hc q args hq hQ
        have hcombos : combos c.1 st.facts = combos c.1 facts :=
          combos_congr hlin fun app happ => hfacts app.1 (hbody app happ)
        have hnow : ∀ combo ∈ combos c.1 st.facts, Covered crate 𝓜 c.1 combo st.facts := by
          intro combo hcombo hsat
          obtain ⟨pred, args', hpred, fact, hfact, heq⟩ := hcov combo (hcombos ▸ hcombo) hsat
          obtain ⟨rfl, rfl⟩ : q = pred ∧ args = args' := by simpa [hq] using hpred
          exact ⟨q, args, hq, fact, by rwa [hfacts q hQ], heq⟩
        obtain ⟨hsame, hchanged⟩ := combinationLoop_of_covered hcrate hsolver hnow h₁
        exact ⟨fun p hp => (congrFun hsame p).trans (hfacts p hp), fun _ => hchanged⟩
      · obtain ⟨hframe, hchanged⟩ := combinationLoop_frame hcrate hsolver h₁
        refine ⟨fun p hp => (hframe p fun args hargs => hhead ⟨p, args, hargs, hp⟩).trans
          (hfacts p hp), fun hQ => hchanged fun q args hq => hhead ⟨q, args, hq, hQ q args hq⟩⟩
    obtain ⟨hrest, hchanged⟩ := ih hlinear hsettled hstep.1 h₂
    refine ⟨hrest, fun hQ => ?_⟩
    obtain ⟨hQc, hQ⟩ := List.forall_mem_cons.1 hQ
    exact (hchanged hQ).trans (hstep.2 hQc)

end Pass

end Search

end TrustMc.DirectSmt
