import TrustMc.DirectSmt.Instances
import TrustMc.DirectSmt.Replay

/-!
# What a replay establishes

* `run_of_pathLoop`: under an assignment that satisfies the constraints of the walk, the clauses of
  the trace are a derivation of the query.
* `of_readModel`: the model that was read gives values to the variables that were asked for, and
  to no other.
* `replay_counterexample_iff`: an accepted witness is a real counterexample if and only if the
  crate's collector reaches every variable of the path, and a witness is accepted where it does
  not (`replay_partial_model`).
-/

namespace TrustMc.DirectSmt

open Native Carriers.Val

/-! ### The walk -/

section Walk

variable {crate : ExprCrate} {problem : ChcProblem} {ns : String} {clauses : List HornClause}

theorem of_consumeHead {position : ℕ} {previousHead : Option (ℕ × List ChcExpr)}
    {predicates : List (ℕ × List ChcExpr)} {equalities : List ChcExpr}
    (h : consumeHead crate position previousHead predicates = .ok equalities) :
    (previousHead = none ∧ predicates = [] ∧ equalities = []) ∨
      ∃ p headArgs bodyArgs, previousHead = some (p, headArgs) ∧ predicates = [(p, bodyArgs)] ∧
        headArgs.length = bodyArgs.length ∧
        equalities = (bodyArgs.zip headArgs).map fun q => crate.eq q.1 q.2 := by
  match previousHead, predicates with
  | none, [] => exact .inl ⟨rfl, rfl, (Except.ok.inj h).symm⟩
  | none, _ :: _ => cases h
  | some (p, headArgs), [(q, bodyArgs)] =>
    rw [consumeHead] at h
    split_ifs at h with hguard
    rw [not_or, not_not, not_not] at hguard
    obtain ⟨rfl, hlen⟩ := hguard
    exact .inr ⟨p, headArgs, bodyArgs, rfl, rfl, hlen, (Except.ok.inj h).symm⟩
  | some _, [] => cases h
  | some _, _ :: _ :: _ => cases h

theorem of_leaveHead {position : ℕ} {head : ClauseHead} {isLast : Bool}
    {previousHead : Option (ℕ × List ChcExpr)}
    (h : leaveHead position head isLast = .ok previousHead) :
    previousHead = headApp head ∧ ((isLast = true ∧ head = .false) ∨
      (isLast = false ∧ ∃ p args, head = .predicate p args)) := by
  match head, isLast with
  | .predicate p args, false => exact ⟨(Except.ok.inj h).symm, .inr ⟨rfl, p, args, rfl⟩⟩
  | .false, true => exact ⟨(Except.ok.inj h).symm, .inl ⟨rfl, rfl⟩⟩
  | .false, false => cases h
  | .predicate _ _, true => cases h
  | .unrecognized, _ => cases h

/-- One clause of the walk. -/
theorem of_pathStep {traceLength position rawIndex : ℕ} {st st' : PathState}
    (h : pathStep crate clauses traceLength position rawIndex st = .ok st') :
    ∃ clause equalities, clauses[rawIndex]? = some clause ∧
      consumeHead crate position st.previousHead clause.body.predicates = .ok equalities ∧
      leaveHead position clause.head (decide (position + 1 = traceLength)) =
        .ok st'.previousHead ∧
      st'.constraints = st.constraints ++ equalities ++ clause.body.constraint.toList := by
  obtain ⟨clause, hclause, h⟩ := bind_eq_ok.1 h
  split_ifs at h
  obtain ⟨equalities, hconsume, h⟩ := bind_eq_ok.1 h
  obtain ⟨previousHead, hleave, h⟩ := bind_eq_ok.1 h
  obtain rfl := Except.ok.inj h
  exact ⟨clause, equalities, orError_eq_ok.1 hclause, hconsume, hleave, rfl⟩

/-- The constraints of one clause of a path. -/
theorem pathConstraints_cons {previousHead : Option (ℕ × List ChcExpr)} {index position : ℕ}
    {trace : List ℕ} {clause : HornClause} {equalities : List ChcExpr}
    (hclause : clauses[index]? = some clause)
    (hconsume : consumeHead crate position previousHead clause.body.predicates =
      .ok equalities) :
    pathConstraints crate clauses previousHead (index :: trace) =
      equalities ++ clause.body.constraint.toList ++
        pathConstraints crate clauses (headApp clause.head) trace := by
  rw [pathConstraints, hclause]
  rcases of_consumeHead hconsume with ⟨rfl, -, rfl⟩ | ⟨p, headArgs, bodyArgs, rfl, hbody, -, rfl⟩
  · simp [pathEqualities]
  · simp [pathEqualities, hbody]

/-- The walk composes the constraints along the path. -/
theorem constraints_of_pathLoop {traceLength position : ℕ} {trace : List ℕ} {st st' : PathState}
    (h : pathLoop crate clauses traceLength position trace st = .ok st') :
    st'.constraints = st.constraints ++ pathConstraints crate clauses st.previousHead trace := by
  induction trace generalizing position st with
  | nil =>
    obtain rfl := Except.ok.inj h
    simp [pathConstraints]
  | cons index trace ih =>
    obtain ⟨st₁, h₁, h₂⟩ := bind_eq_ok.1 h
    obtain ⟨clause, equalities, hclause, hconsume, hleave, hconstraints⟩ := of_pathStep h₁
    rw [pathConstraints_cons hclause hconsume, ih h₂, hconstraints, (of_leaveHead hleave).1]
    simp

/-- **The walk is a derivation**: under an assignment that satisfies its constraints, every clause
fires from the head before. The steps so far end in the head the walk has left. -/
theorem run_of_pathLoop (hcrate : crate.Lawful)
    (hfits : ∀ c ∈ problem.clauses, clauseFitsAlphaSubstitutionLimits crate c = true)
    (hget : ∀ i, clauses[i]? = problem.clauses[i]?.map (renamed crate ns i)) {T : Theory}
    {ρ : ChcEnv T} {position : ℕ} {trace : List ℕ} {st st' : PathState}
    (h : pathLoop crate clauses (position + trace.length) position trace st = .ok st')
    (hne : trace ≠ [])
    (hρ : ∀ k ∈ pathConstraints crate clauses st.previousHead trace, k.Holds ρ)
    {steps : List (HornClause × (reading T).Env)} (hnone : st.previousHead = none → steps = [])
    (hsome : ∀ p args, st.previousHead = some (p, args) →
      problem.Run (M := reading T) steps (some (p, args.map (·.eval ρ)))) :
    ∃ steps', problem.Run (M := reading T) (steps' ++ steps) none ∧
      steps'.reverse.map (fun s => some s.1) = trace.map (problem.clauses[·]?) := by
  induction trace generalizing position st steps with
  | nil => exact absurd rfl hne
  | cons index trace ih =>
    obtain ⟨st₁, h₁, h₂⟩ := bind_eq_ok.1 h
    obtain ⟨clause, equalities, hclause, hconsume, hleave, -⟩ := of_pathStep h₁
    rw [pathConstraints_cons hclause hconsume] at hρ
    obtain ⟨hown, hrest⟩ := List.forall_mem_append.1 hρ
    obtain ⟨hequalities, hconstraint⟩ := List.forall_mem_append.1 hown
    obtain ⟨c, hc, rfl⟩ : ∃ c, problem.clauses[index]? = some c ∧
        renamed crate ns index c = clause := by
      rw [hget] at hclause
      exact Option.map_eq_some_iff.1 hclause
    have hmem := List.mem_of_getElem? hc
    -- the clause fires under what the assignment gives it
    have hfires : ∀ f, c.head.Fact (M := reading T) (readRenamed crate ns index c ρ) f →
        problem.Run (M := reading T) ((c, readRenamed crate ns index c ρ) :: steps) f := by
      intro f hf
      have hholds : ∀ k ∈ c.body.constraint, k.Holds (readRenamed crate ns index c ρ) :=
        (holds_renamed_constraint hcrate (hfits c hmem)).1 fun k hk =>
          hconstraint k (Option.mem_toList.2 hk)
      rcases of_consumeHead hconsume with ⟨hprev, hbody, -⟩ |
        ⟨p, headArgs, bodyArgs', hprev, hbody, hlen, rfl⟩
      · obtain rfl := hnone hprev
        refine .entry hmem ⟨?_, hholds, hf⟩
        have hnil : c.body.predicates = [] := List.map_eq_nil_iff.1 (renamed_body ▸ hbody)
        rw [hnil]
        rfl
      · obtain ⟨app, happ, hpair⟩ := List.map_eq_singleton_iff.1 (renamed_body ▸ hbody)
        obtain ⟨rfl, rfl⟩ := Prod.mk.inj hpair
        have heqs : ∀ q ∈ (app.2.map (ChcExpr.subst (substitutions crate ns index c))).zip
            headArgs, q.1.eval ρ = q.2.eval ρ := fun q hq =>
          (hcrate.holds_eq ρ q.1 q.2).1 (hequalities _ (List.mem_map_of_mem hq))
        have hargs : (app.2.map (ChcExpr.subst (substitutions crate ns index c))).map
            (·.eval ρ) = headArgs.map (·.eval ρ) := (map_eq_of_zip hlen.symm).1 heqs
        rw [map_eval_renamed hcrate (hfits c hmem) fun e he =>
          mem_terms_body (by simp [happ]) he] at hargs
        refine .step (hsome app.1 headArgs hprev) hmem ⟨?_, hholds, hf⟩
        rw [happ]
        exact congrArg (fun vs => [some (app.1, vs)]) hargs
    obtain ⟨hprev₁, hlast⟩ := of_leaveHead hleave
    rcases hlast with ⟨hend, hhead⟩ | ⟨hend, p, args', hhead⟩
    · -- the last clause is a query
      have htrace : trace = [] := by
        have := of_decide_eq_true hend
        rw [List.length_cons] at this
        exact List.eq_nil_of_length_eq_zero (by omega)
      subst htrace
      refine ⟨[(c, readRenamed crate ns index c ρ)], hfires none ?_, by simp [hc]⟩
      rw [renamed_head_false.1 hhead]
      exact .false
    · obtain ⟨args, hargs, rfl⟩ := renamed_head.1 hhead
      have hne' : trace ≠ [] := by
        rintro rfl
        simp at hend
      have hvals : (args.map (ChcExpr.subst (substitutions crate ns index c))).map (·.eval ρ) =
          args.map (·.eval (readRenamed crate ns index c ρ)) :=
        map_eval_renamed hcrate (hfits c hmem) (fun e he => mem_terms_head hargs he) ρ
      have hfact := hfires (some (p,
          (args.map (ChcExpr.subst (substitutions crate ns index c))).map (·.eval ρ))) <| by
        rw [hargs]
        exact ClauseHead.fact_predicate.2 (congrArg (fun vs => some (p, vs)) hvals)
      rw [List.length_cons, show position + (trace.length + 1) = position + 1 + trace.length by
        omega] at h₂
      have hhead₁ : st₁.previousHead =
          some (p, args.map (ChcExpr.subst (substitutions crate ns index c))) := by
        rw [hprev₁, hhead]
        rfl
      obtain ⟨steps', hrun, hsteps⟩ := ih h₂ hne' (hprev₁ ▸ hrest)
        (fun hnone' => absurd (hnone'.symm.trans hhead₁) (by simp)) fun p' args' hsome' => by
          obtain ⟨rfl, rfl⟩ := Prod.mk.inj (Option.some.inj (hsome'.symm.trans hhead₁))
          exact hfact
      refine ⟨steps'.concat (c, readRenamed crate ns index c ρ), by simpa using hrun, ?_⟩
      rw [List.concat_eq_append, List.reverse_append, List.map_append, hsteps]
      simp [hc]

end Walk

/-! ### The variables of a path -/

section Variables

variable {crate : ExprCrate} {problem : ChcProblem} {ns : String} {clauses : List HornClause}

/-- A variable is the new variable of some clause's variable. -/
def IsOwn (crate : ExprCrate) (problem : ChcProblem) (ns : String) (v : ChcVar) : Prop :=
  ∃ i c u, problem.clauses[i]? = some c ∧ u ∈ crate.clauseVars c ∧ renamedVar crate ns i c u = v

/-- New variables have different names. -/
theorem IsOwn.eq_of_name {v v' : ChcVar} (h : IsOwn crate problem ns v)
    (h' : IsOwn crate problem ns v') (hname : v.name = v'.name) : v = v' := by
  obtain ⟨i, c, u, hc, hu, rfl⟩ := h
  obtain ⟨i', c', u', hc', hu', rfl⟩ := h'
  obtain ⟨rfl, hidx⟩ := replacementName_inj hname
  obtain rfl := Option.some.inj (hc.symm.trans hc')
  rw [(List.idxOf_inj hu).1 hidx]

theorem isOwn_of_mem_terms (hcrate : crate.Lawful)
    (hfits : ∀ c ∈ problem.clauses, clauseFitsAlphaSubstitutionLimits crate c = true) {i : ℕ}
    {c : HornClause} (hc : problem.clauses[i]? = some c) {e : ChcExpr}
    (he : e ∈ terms (renamed crate ns i c)) {v : ChcVar} (hv : v ∈ e.vars) :
    IsOwn crate problem ns v := by
  have hmem := List.mem_of_getElem? hc
  obtain ⟨e₀, he₀, rfl⟩ := exists_of_mem_terms_renamed he
  obtain ⟨u, hu, rfl⟩ := (vars_renamed hcrate (hfits c hmem) he₀).1 hv
  exact ⟨i, c, u, hc,
    (hcrate.mem_clauseVars c (hfits c hmem) u).2 (mem_vars_iff.2 ⟨e₀, he₀, hu⟩), rfl⟩

theorem of_mem_pathEqualities {previousHead : Option (ℕ × List ChcExpr)}
    {predicates : List (ℕ × List ChcExpr)} {k : ChcExpr}
    (hk : k ∈ pathEqualities crate previousHead predicates) :
    ∃ p headArgs app bodyArg headArg, previousHead = some (p, headArgs) ∧ app ∈ predicates ∧
      bodyArg ∈ app.2 ∧ headArg ∈ headArgs ∧ crate.eq bodyArg headArg = k := by
  match previousHead, predicates with
  | some (p, headArgs), [app] =>
    obtain ⟨⟨bodyArg, headArg⟩, hpair, rfl⟩ := List.mem_map.1 hk
    obtain ⟨hbodyArg, hheadArg⟩ := List.of_mem_zip hpair
    exact ⟨p, headArgs, app, bodyArg, headArg, rfl, List.mem_singleton.2 rfl, hbodyArg, hheadArg,
      rfl⟩
  | none, _ => exact absurd hk List.not_mem_nil
  | some _, [] => exact absurd hk List.not_mem_nil
  | some _, _ :: _ :: _ => exact absurd hk List.not_mem_nil

/-- The variables of a path are new variables. -/
theorem isOwn_of_path (hcrate : crate.Lawful)
    (hfits : ∀ c ∈ problem.clauses, clauseFitsAlphaSubstitutionLimits crate c = true)
    (hget : ∀ i, clauses[i]? = problem.clauses[i]?.map (renamed crate ns i))
    {previousHead : Option (ℕ × List ChcExpr)} {trace : List ℕ}
    (hprev : ∀ p args, previousHead = some (p, args) → ∀ e ∈ args, ∀ v ∈ e.vars,
      IsOwn crate problem ns v) {k : ChcExpr}
    (hk : k ∈ pathConstraints crate clauses previousHead trace) {v : ChcVar} (hv : v ∈ k.vars) :
    IsOwn crate problem ns v := by
  induction trace generalizing previousHead with
  | nil => exact absurd hk List.not_mem_nil
  | cons index trace ih =>
    rw [pathConstraints] at hk
    cases hclause : clauses[index]? with
    | none =>
      rw [hclause] at hk
      exact absurd hk List.not_mem_nil
    | some clause =>
      obtain ⟨c, hc, rfl⟩ : ∃ c, problem.clauses[index]? = some c ∧
          renamed crate ns index c = clause := by
        rw [hget] at hclause
        exact Option.map_eq_some_iff.1 hclause
      rw [hclause] at hk
      have hterm : ∀ e ∈ terms (renamed crate ns index c), v ∈ e.vars →
          IsOwn crate problem ns v := fun e he hv => isOwn_of_mem_terms hcrate hfits hc he hv
      rcases List.mem_append.1 hk with hk | hk
      · rcases List.mem_append.1 hk with hk | hk
        · -- an argument of the body, or of the head before
          obtain ⟨p, headArgs, app, bodyArg, headArg, hsome, happ, hbodyArg, hheadArg, rfl⟩ :=
            of_mem_pathEqualities hk
          rcases hcrate.vars_eq _ _ v hv with hv | hv
          · exact hterm bodyArg (mem_terms_body happ hbodyArg) hv
          · exact hprev p headArgs hsome headArg hheadArg v hv
        · exact hterm k (by simp [terms, Option.mem_toList.1 hk]) hv
      · refine ih (fun p args' hhead e he w hw => ?_) hk
        cases hh : (renamed crate ns index c).head with
        | predicate p' args =>
          rw [hh] at hhead
          obtain ⟨rfl, rfl⟩ := Prod.mk.inj (Option.some.inj hhead)
          exact isOwn_of_mem_terms hcrate hfits hc (mem_terms_head hh he) hw
        | «false» | unrecognized =>
          rw [hh] at hhead
          cases hhead

end Variables

/-! ### Reading the model -/

section Model

variable {crate : ExprCrate}

/-- The collected names are those of the variables, with their sorts. -/
theorem of_collectSorts {vs : List ChcVar} {acc sorts : List (String × ChcSort)}
    (h : collectSorts vs acc = .ok sorts) :
    (∀ p ∈ sorts, p ∈ acc ∨ ∃ v ∈ vs, p = (v.name, v.sort)) ∧ (∀ p ∈ acc, p ∈ sorts) ∧
      ∀ v ∈ vs, (v.name, v.sort) ∈ sorts := by
  induction vs generalizing acc with
  | nil =>
    obtain rfl := Except.ok.inj h
    exact ⟨fun p hp => .inl hp, fun p hp => hp, by simp⟩
  | cons v vs ih =>
    rw [collectSorts] at h
    cases hlookup : acc.lookup v.name with
    | some previousSort =>
      rw [hlookup] at h
      dsimp only at h
      split_ifs at h with hsort
      rw [not_not] at hsort
      subst hsort
      obtain ⟨hsub, hacc, hall⟩ := ih h
      obtain ⟨l₁, l₂, hacc', -⟩ := List.lookup_eq_some_iff.1 hlookup
      refine ⟨fun p hp => (hsub p hp).imp_right fun ⟨w, hw, hp⟩ =>
        ⟨w, List.mem_cons_of_mem _ hw, hp⟩, hacc, List.forall_mem_cons.2 ⟨hacc _ ?_, hall⟩⟩
      simp [hacc']
    | none =>
      rw [hlookup] at h
      obtain ⟨hsub, hacc, hall⟩ := ih h
      refine ⟨fun p hp => ?_, fun p hp => hacc p (List.mem_append_left _ hp),
        List.forall_mem_cons.2 ⟨hacc _ (by simp), hall⟩⟩
      rcases hsub p hp with hp | ⟨w, hw, hp⟩
      · rcases List.mem_append.1 hp with hp | hp
        · exact .inl hp
        · exact .inr ⟨v, List.mem_cons_self, List.mem_singleton.1 hp⟩
      · exact .inr ⟨w, List.mem_cons_of_mem _ hw, hp⟩

/-- Every variable is bound to its value. -/
theorem of_modelBindings {model : List (String × Json)} {sorts : List (String × ChcSort)}
    {bindings : List ChcExpr} (h : modelBindings crate model sorts = .ok bindings) :
    ∀ p ∈ sorts, ∃ json value, model.lookup p.1 = some json ∧
      parseModelValue crate p.1 p.2 json = .ok value ∧
        crate.eq (.var ⟨p.1, p.2⟩) value ∈ bindings := by
  induction sorts generalizing bindings with
  | nil => simp
  | cons p sorts ih =>
    obtain ⟨json, hjson, h⟩ := bind_eq_ok.1 h
    obtain ⟨value, hvalue, h⟩ := bind_eq_ok.1 h
    obtain ⟨rest, hrest, h⟩ := bind_eq_ok.1 h
    obtain rfl := Except.ok.inj h
    refine List.forall_mem_cons.2
      ⟨⟨json, value, orError_eq_ok.1 hjson, hvalue, List.mem_cons_self⟩, fun q hq => ?_⟩
    obtain ⟨json', value', hjson', hvalue', hmem⟩ := ih hrest q hq
    exact ⟨json', value', hjson', hvalue', List.mem_cons_of_mem _ hmem⟩

/-- **The model** gives values to the variables asked for, and to no other names. -/
theorem of_readModel {witness : AcyclicUnsafeWitness} {vs : List ChcVar}
    {bindings : List ChcExpr} (h : readModel crate witness vs = .ok bindings) :
    (∀ v ∈ vs, ∃ value, Decodes crate witness.model v value ∧
      crate.eq (.var v) value ∈ bindings) ∧
      ∀ v value, Decodes crate witness.model v value → ∃ v' ∈ vs, v'.name = v.name := by
  obtain ⟨sorts, hsorts, h⟩ := bind_eq_ok.1 h
  split_ifs at h
  obtain ⟨model, hmodel, h⟩ := bind_eq_ok.1 h
  rw [orError_eq_ok] at hmodel
  split_ifs at h with hlen hextra
  obtain ⟨hsub, -, hall⟩ := of_collectSorts hsorts
  constructor
  · intro v hv
    obtain ⟨json, value, hjson, hvalue, hmem⟩ := of_modelBindings h (v.name, v.sort)
      ((List.mem_insertionSort _).2 (hall v hv))
    exact ⟨value, ⟨model, json, hmodel, hjson, hvalue⟩, hmem⟩
  · rintro v value ⟨fields, json, hfields, hlookup, -⟩
    obtain rfl := Option.some.inj (hmodel.symm.trans hfields)
    -- the name is one of the collected ones
    have hkeys : ∀ binding ∈ model, ∃ p ∈ sorts, p.1 = binding.1 := by simpa using hextra
    obtain ⟨l₁, l₂, hmem, -⟩ := List.lookup_eq_some_iff.1 hlookup
    obtain ⟨p, hp, hname⟩ := hkeys (v.name, json) (by simp [hmem])
    rcases hsub p hp with hp | ⟨w, hw, rfl⟩
    · exact absurd hp List.not_mem_nil
    · exact ⟨w, hw, hname⟩

end Model

/-! ### Accepted witnesses -/

section Accepted

variable {crate : ExprCrate} {solver : Solver} {𝓜 : Set Theory} {problem : ChcProblem}
  {witness : AcyclicUnsafeWitness}

/-- What the replay has checked. -/
theorem of_replay (h : replayAcyclicDirectSmtWitness crate solver problem witness = .ok ()) :
    ∃ clauses path bindings, alphaRenamedClauses crate problem = some clauses ∧
      witness.derivationClauseIndices ≠ [] ∧
      pathLoop crate clauses witness.derivationClauseIndices.length 0
        witness.derivationClauseIndices ⟨[], [], none⟩ = .ok path ∧
      readModel crate witness (crate.vars (crate.andAll path.constraints)) = .ok bindings ∧
      ∃ model, (solveConstraints crate solver (solver.makeSmtContext problem)
        (path.constraints ++ bindings)).1 = .sat model := by
  rw [replayAcyclicDirectSmtWitness] at h
  dsimp only at h
  split_ifs at h with hbudget hcyclic hnonlinear hempty hlong
  obtain ⟨clauses, hren, h⟩ := bind_eq_ok.1 h
  obtain ⟨path, hpath, h⟩ := bind_eq_ok.1 h
  obtain ⟨bindings, hbindings, h⟩ := bind_eq_ok.1 h
  refine ⟨clauses, path, bindings, orError_eq_ok.1 hren, by simpa using hempty, hpath, hbindings,
    ?_⟩
  split at h
  · rename_i model hmodel
    exact ⟨model, hmodel⟩
  · cases h
  · cases h

/-- **When an accepted witness is a real counterexample.** Its trace is a derivation of the query.
The decoded model is an assignment of all variables of the path under which the constraints hold
if and only if the crate's collector finds all of them in the conjunction of the constraints. -/
theorem replay_counterexample_iff (hcrate : crate.Lawful) (hsolver : solver.Right 𝓜)
    (h : replayAcyclicDirectSmtWitness crate solver problem witness = .ok ()) :
    ∃ clauses, alphaRenamedClauses crate problem = some clauses ∧
      (∃ T ∈ 𝓜, DerivesQuery problem T witness.derivationClauseIndices) ∧
      (IsCounterexample crate 𝓜 problem clauses witness ↔
        ∀ k ∈ pathConstraints crate clauses none witness.derivationClauseIndices,
          ∀ v ∈ k.vars, v ∈ crate.vars (crate.andAll
            (pathConstraints crate clauses none witness.derivationClauseIndices))) := by
  obtain ⟨clauses, path, bindings, hren, hne, hwalk, hread, model, hsolve⟩ := of_replay h
  obtain ⟨hfits, ns, hget⟩ := alphaRenamedClauses_eq hcrate hren
  have hpath : path.constraints =
      pathConstraints crate clauses none witness.derivationClauseIndices := by
    simpa using constraints_of_pathLoop hwalk
  obtain ⟨hvalues, hnames⟩ := of_readModel hread
  obtain ⟨T, hT, ρ, hρ⟩ := satisfiable_of_sat hcrate hsolver hsolve
  obtain ⟨hholds, hbound⟩ := List.forall_mem_append.1 hρ
  rw [hpath] at hvalues hnames hholds
  have hderives : DerivesQuery problem T witness.derivationClauseIndices := by
    rw [← Nat.zero_add witness.derivationClauseIndices.length] at hwalk
    have hstart : (none : Option (ℕ × List ChcExpr)) = none →
        ([] : List (HornClause × (reading T).Env)) = [] := fun _ => rfl
    obtain ⟨steps, hrun, hsteps⟩ := run_of_pathLoop hcrate hfits hget hwalk hne hholds hstart
      fun p args hsome => by cases hsome
    exact ⟨steps, by simpa using hrun, hsteps⟩
  refine ⟨clauses, hren, ⟨T, hT, hderives⟩, ?_, fun hreach => ?_⟩
  · rintro ⟨T', -, -, ρ', hall⟩ k hk v hv
    obtain ⟨value, hvalue, -⟩ := (hall k hk).2 v hv
    obtain ⟨v', hv', hname⟩ := hnames v value hvalue
    -- the collected variable of that name is the variable itself
    obtain ⟨k', hk', hmem⟩ := hcrate.vars_andAll _ v' (hcrate.vars_subset _ v' hv')
    have hown := isOwn_of_path hcrate hfits hget (fun p args hsome => by cases hsome) hk hv
    have hown' := isOwn_of_path hcrate hfits hget (fun p args hsome => by cases hsome) hk' hmem
    rwa [hown.eq_of_name hown' hname.symm]
  · refine ⟨T, hT, hderives, ρ, fun k hk => ⟨hholds k hk, fun v hv => ?_⟩⟩
    obtain ⟨value, hvalue, hmem⟩ := hvalues v (hreach k hk v hv)
    exact ⟨value, hvalue, (hcrate.holds_eq ρ _ _).1 (hbound _ hmem)⟩

end Accepted

/-! ### A witness without a variable -/

section Deep

/-- A term under a number of negations. -/
def deepNot : ℕ → ChcExpr → ChcExpr
  | 0, e => e
  | n + 1, e => .op .not [deepNot n e]

theorem holds_deepNot {T : Theory} {ρ : ChcEnv T} (n : ℕ) (e : ChcExpr) :
    (deepNot n e).Holds ρ ↔ (Even n ↔ e.Holds ρ) := by
  induction n with
  | zero => simp [deepNot]
  | succ n ih => rw [deepNot, holds_not, ih, Nat.even_add_one]; tauto

theorem mem_vars_deepNot {v : ChcVar} (n : ℕ) : v ∈ (deepNot n (.var v)).vars := by
  induction n with
  | zero => simp [deepNot, ChcExpr.vars]
  | succ n ih => simpa [deepNot, ChcExpr.vars, ChcExpr.varsList] using ih

/-- A fact that holds under `499` negations of `b`, and a query that holds under `d`. -/
def deepProblem : ChcProblem where
  predicates := [⟨"p", []⟩]
  clauses :=
    [⟨⟨[], some (deepNot 499 (.var ⟨"b", .bool⟩))⟩, .predicate 0 []⟩,
      ⟨⟨[(0, [])], some (.var ⟨"d", .bool⟩)⟩, .false⟩]
  isFixedpointFormat := false
  hasStrippedBodyForall := false
  datatypeDefs := []
  hasActionDecomposition := false
  names_nodup := List.nodup_singleton _

/-- The variable of the fact, renamed apart. -/
def deepVar : ChcVar := ⟨"__trust_mc_direct_smt_alpha_0_c0_v0", .bool⟩

/-- The variable of the query, renamed apart. -/
def queryVar : ChcVar := ⟨"__trust_mc_direct_smt_alpha_0_c1_v0", .bool⟩

/-- A witness whose model has the variable of the query and not the one of the fact. -/
def deepWitness : AcyclicUnsafeWitness where
  model := .obj [(queryVar.name, .obj [("kind", .str "bool"), ("value", .bool true)])]
  derivationClauseIndices := [0, 1]

/-- The constraints of the walk along the trace, and the equalities of the model. -/
def deepRun : Option (List ChcExpr × List ChcExpr) := do
  let clauses ← alphaRenamedClauses treeCrate deepProblem
  let path ← (pathLoop treeCrate clauses 2 0 [0, 1] ⟨[], [], none⟩).toOption
  let bindings ← (readModel treeCrate deepWitness
    (treeCrate.vars (treeCrate.andAll path.constraints))).toOption
  return (path.constraints, bindings)

/-- The constraints of the walk. -/
def deepConstraints : List ChcExpr := [deepNot 499 (.var deepVar), .var queryVar]

/-- The equalities of the model. -/
def deepBindings : List ChcExpr := [.op .eq [.var queryVar, .bool true]]

set_option maxRecDepth 100000 in
private theorem deepRun_eq : deepRun = some (deepConstraints, deepBindings) := by
  decide +kernel

/-- The steps of the replay. -/
private theorem exists_of_deepRun :
    ∃ clauses path, alphaRenamedClauses treeCrate deepProblem = some clauses ∧
      pathLoop treeCrate clauses 2 0 [0, 1] ⟨[], [], none⟩ = .ok path ∧
      path.constraints = deepConstraints ∧
      readModel treeCrate deepWitness (treeCrate.vars (treeCrate.andAll path.constraints)) =
        .ok deepBindings := by
  have hrun := deepRun_eq
  simp only [deepRun, Option.bind_eq_bind, Option.bind_eq_some_iff, Option.pure_def,
    Option.some.injEq, Prod.mk.injEq] at hrun
  obtain ⟨clauses, hren, path, hpath, bindings, hbindings, hconstraints, rfl⟩ := hrun
  refine ⟨clauses, path, hren, ?_, hconstraints, ?_⟩
  · cases h : pathLoop treeCrate clauses 2 0 [0, 1] ⟨[], [], none⟩ with
    | ok p => simpa [h, Except.toOption] using hpath
    | error e => simp [h, Except.toOption] at hpath
  · cases h : readModel treeCrate deepWitness
      (treeCrate.vars (treeCrate.andAll path.constraints)) with
    | ok b => simpa [h, Except.toOption] using hbindings
    | error e => simp [h, Except.toOption] at hbindings

/-- The fact's variable is false, all others are true. -/
noncomputable def deepEnv : ChcEnv default := fun v =>
  match v with
  | ⟨name, .bool⟩ => decide (name ≠ deepVar.name)
  | ⟨_, _⟩ => (default : (default : Theory).toCarriers.Dom _)

private theorem eval_deepEnv (name : String) :
    (ChcExpr.var ⟨name, .bool⟩).eval deepEnv = ofBool (decide (name ≠ deepVar.name)) := by
  rw [ChcExpr.eval_var]
  rfl

private theorem satisfiable_deep :
    Satisfiable Set.univ (deepConstraints ++ deepBindings) := by
  have hdeep : (ChcExpr.var deepVar).eval deepEnv = ofBool false := eval_deepEnv deepVar.name
  have hquery : (ChcExpr.var queryVar).eval deepEnv = ofBool true := by
    rw [queryVar, eval_deepEnv]
    exact congrArg ofBool (by decide)
  refine ⟨default, Set.mem_univ _, deepEnv, ?_⟩
  simp only [deepConstraints, deepBindings, List.cons_append, List.nil_append,
    List.forall_mem_cons, holds_deepNot, holds_eq]
  refine ⟨?_, by simp [ChcExpr.Holds, hquery], by rw [hquery]; simp [ChcExpr.eval], by simp⟩
  exact iff_of_false (by decide) (by simp [ChcExpr.Holds, hdeep])

/-- The witness is accepted. -/
theorem replay_deep :
    replayAcyclicDirectSmtWitness treeCrate (exactSolver Set.univ) deepProblem deepWitness =
      .ok () := by
  obtain ⟨clauses, path, hren, hpath, hconstraints, hread⟩ := exists_of_deepRun
  have hsolve : ∃ model, (solveConstraints treeCrate (exactSolver Set.univ)
      ((exactSolver Set.univ).makeSmtContext deepProblem)
      (path.constraints ++ deepBindings)).1 = .sat model := by
    rw [hconstraints]
    cases h : (solveConstraints treeCrate (exactSolver Set.univ)
        ((exactSolver Set.univ).makeSmtContext deepProblem)
        (deepConstraints ++ deepBindings)).1 with
    | sat model => exact ⟨model, rfl⟩
    | unsat =>
      exact absurd satisfiable_deep
        (not_satisfiable_of_unsat treeCrate_lawful (exactSolver_right _) h)
    | undecided =>
      exact absurd h (solveConstraints_ne_undecided (exactSolver_neverUnknown _) _ _)
  obtain ⟨model, hmodel⟩ := hsolve
  have hacyclic : isAcyclicProblem treeCrate deepProblem = true := by decide +kernel
  rw [replayAcyclicDirectSmtWitness, if_neg (by decide), if_neg (by simp [hacyclic]),
    if_neg (by decide), if_neg (by decide), if_neg (by decide)]
  refine bind_eq_ok.2 ⟨clauses, orError_eq_ok.2 hren, bind_eq_ok.2 ⟨path, hpath,
    bind_eq_ok.2 ⟨deepBindings, hread, ?_⟩⟩⟩
  rw [hmodel]

/-- The witness is accepted, and its model does not assign the variable of the fact. -/
theorem replay_partial_model :
    replayAcyclicDirectSmtWitness treeCrate (exactSolver Set.univ) deepProblem deepWitness =
        .ok () ∧
      ∃ clauses, alphaRenamedClauses treeCrate deepProblem = some clauses ∧
        ¬ IsCounterexample treeCrate Set.univ deepProblem clauses deepWitness := by
  obtain ⟨clauses, path, hren, hpath, hconstraints, -⟩ := exists_of_deepRun
  refine ⟨replay_deep, clauses, hren, ?_⟩
  rintro ⟨T, -, -, ρ, hall⟩
  have hpaths : pathConstraints treeCrate clauses none [0, 1] = deepConstraints := by
    rw [← hconstraints]
    simpa using (constraints_of_pathLoop hpath).symm
  obtain ⟨value, ⟨fields, json, hfields, hlookup, -⟩, -⟩ :=
    (hall (deepNot 499 (.var deepVar)) (by
      rw [show deepWitness.derivationClauseIndices = [0, 1] from rfl, hpaths]
      exact List.mem_cons_self)).2 deepVar (mem_vars_deepNot 499)
  obtain rfl := Option.some.inj hfields
  have hmissing : [(queryVar.name, Json.obj [("kind", .str "bool"), ("value", .bool true)])].lookup
      deepVar.name = none := by decide
  exact Option.some_ne_none json (hlookup.symm.trans hmissing)

/-- The accepted witness is no counterexample: the collector does not reach a variable. -/
theorem replay_counterexample_iff_deep :
    ∃ clauses, alphaRenamedClauses treeCrate deepProblem = some clauses ∧
      (∃ T ∈ Set.univ, DerivesQuery deepProblem T [0, 1]) ∧
      (IsCounterexample treeCrate Set.univ deepProblem clauses deepWitness ↔
        ∀ k ∈ pathConstraints treeCrate clauses none [0, 1],
          ∀ v ∈ k.vars, v ∈ treeCrate.vars (treeCrate.andAll
            (pathConstraints treeCrate clauses none [0, 1]))) :=
  replay_counterexample_iff treeCrate_lawful (exactSolver_right _) replay_deep

end Deep

end TrustMc.DirectSmt
