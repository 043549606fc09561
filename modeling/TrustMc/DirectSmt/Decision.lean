import TrustMc.DirectSmt.Derivation
import TrustMc.DirectSmt.Instances

/-!
# The decision is exact

On a well-formed problem `acyclicDirectSmtDecision` says safe only if the query is not
derivable, and unsafe only if it is (`acyclicDirectSmtDecision_exact`).

* **What the search finds is derivable** (`FactOk`): under any assignment that satisfies its
  constraints, a symbolic fact is a derivable fact.
* **At a fixpoint nothing is missing** (`represented_of_derivable`): by induction on the
  derivation, every derivable fact is an instance of a symbolic one. The assignments of the
  clauses of a derivation are put together into one, as each clause has variables of its own
  and a clause cannot occur twice: the ranks of the heads of the clauses grow along it.
* **The passes converge** (`searchLoop_ne_truncated`): after as many passes as there are
  predicates, every predicate is settled.
-/

namespace TrustMc.DirectSmt

open Native Carriers.Val

/-! ### The constraints of a combination -/

section Combined

variable {crate : ExprCrate} {T : Theory} {ρ : ChcEnv T}

theorem holds_combined_nil {clause : HornClause} :
    (∀ k ∈ combinedConstraints crate clause [], k.Holds ρ) ↔
      ∀ k ∈ clause.body.constraint, k.Holds ρ := by
  simp [combinedConstraints]

theorem holds_combined_singleton (hcrate : crate.Lawful) {clause : HornClause}
    {app : ℕ × List ChcExpr} {fact : ReachFact} (hbody : clause.body.predicates = [app]) :
    (∀ k ∈ combinedConstraints crate clause [fact], k.Holds ρ) ↔
      (∀ k ∈ fact.constraints, k.Holds ρ) ∧
        (∀ p ∈ app.2.zip fact.args, p.1.eval ρ = p.2.eval ρ) ∧
        ∀ k ∈ clause.body.constraint, k.Holds ρ := by
  have heqs : (∀ k ∈ (app.2.zip fact.args).map fun p => crate.eq p.1 p.2, k.Holds ρ) ↔
      ∀ p ∈ app.2.zip fact.args, p.1.eval ρ = p.2.eval ρ := by
    rw [List.forall_mem_map]
    exact forall₂_congr fun p _ => hcrate.holds_eq ρ p.1 p.2
  rw [← heqs]
  simp only [combinedConstraints, hbody, List.zip_cons_cons, List.zip_nil_right,
    List.flatMap_cons, List.flatMap_nil, List.append_nil, List.forall_mem_append,
    Option.mem_toList, Option.mem_def, and_assoc]

/-- The variables of the constraints of a combination. -/
theorem vars_combined (hcrate : crate.Lawful) {clause : HornClause} {combo : List ReachFact}
    {k : ChcExpr} (hk : k ∈ combinedConstraints crate clause combo) {w : ChcVar}
    (hw : w ∈ k.vars) :
    (∃ e ∈ terms clause, w ∈ e.vars) ∨
      ∃ fact app, (fact, app) ∈ combo.zip clause.body.predicates ∧
        ∃ e ∈ fact.args ++ fact.constraints, w ∈ e.vars := by
  rcases List.mem_append.1 hk with hk | hk
  · obtain ⟨⟨fact, app⟩, hmem, hk⟩ := List.mem_flatMap.1 hk
    rcases List.mem_append.1 hk with hk | hk
    · exact .inr ⟨fact, app, hmem, k, List.mem_append_right _ hk, hw⟩
    · obtain ⟨⟨bodyArg, factArg⟩, hpair, rfl⟩ := List.mem_map.1 hk
      obtain ⟨hbody, hfact⟩ := List.of_mem_zip hpair
      rcases hcrate.vars_eq _ _ w hw with hw | hw
      · exact .inl ⟨bodyArg, mem_terms_body (List.of_mem_zip hmem).2 hbody, hw⟩
      · exact .inr ⟨fact, app, hmem, factArg, List.mem_append_left _ hfact, hw⟩
  · exact .inl ⟨k, by simp [terms, Option.mem_toList.1 hk], hw⟩

end Combined

/-! ### What is found is derivable -/

section Facts

variable {crate : ExprCrate} {problem : ChcProblem} {ns : String} {rank : ℕ → ℕ}

/-- What holds of a symbolic fact of a predicate: it has as many arguments as the predicate, its
instances are derivable, and its variables belong to clauses that lead to the predicate. -/
structure FactOk (crate : ExprCrate) (problem : ChcProblem) (ns : String) (rank : ℕ → ℕ) (p : ℕ)
    (fact : ReachFact) : Prop where
  arity : ∃ pred, problem.predicates[p]? = some pred ∧
    fact.args.length = pred.argSorts.length
  derivable : ∀ {T : Theory} (ρ : ChcEnv T), (∀ k ∈ fact.constraints, k.Holds ρ) →
    (problem.system (reading T)).Derivable (some (p, fact.args.map (·.eval ρ)))
  own : ∀ e ∈ fact.args ++ fact.constraints, ∀ w ∈ e.vars, ∃ i c,
    problem.clauses[i]? = some c ∧ (∃ u, renamedVar crate ns i c u = w) ∧
      ∃ q args, c.head = .predicate q args ∧ rank q ≤ rank p

/-- What the search assumes of a problem and a renaming of its clauses. -/
structure Setup (crate : ExprCrate) (problem : ChcProblem) (rank : ℕ → ℕ) : Prop where
  lawful : crate.Lawful
  wellFormed : WellFormed problem
  fits : ∀ c ∈ problem.clauses, clauseFitsAlphaSubstitutionLimits crate c = true
  linear : ∀ c ∈ problem.clauses, c.body.predicates.length ≤ 1
  rank_lt : ∀ p q, DependsOn problem p q → rank p < rank q

section Clause

variable {i : ℕ} {c : HornClause}

/-- **A satisfied combination derives the head**, under what the assignment gives the clause. -/
theorem Setup.derivable_of_combined (hs : Setup crate problem rank)
    (hc : problem.clauses[i]? = some c) {facts : ℕ → List ReachFact}
    (hall : AllFacts (FactOk crate problem ns rank) facts) {combo : List ReachFact}
    (hcombo : combo ∈ combos (renamed crate ns i c) facts) {T : Theory} {ρ : ChcEnv T}
    (hρ : ∀ k ∈ combinedConstraints crate (renamed crate ns i c) combo, k.Holds ρ)
    {f : ChcFact (reading T)}
    (hf : c.head.Fact (M := reading T) (readRenamed crate ns i c ρ) f) :
    (problem.system (reading T)).Derivable f := by
  have hmem : c ∈ problem.clauses := List.mem_of_getElem? hc
  have hfits := hs.fits c hmem
  rcases (mem_combos (by simpa [renamed_body] using hs.linear c hmem)).1 hcombo with
    ⟨hbody, rfl⟩ | ⟨app', fact, hbody, hfact, rfl⟩
  · have hconstraint := (holds_renamed_constraint hs.lawful hfits).1 (holds_combined_nil.1 hρ)
    refine .fact ⟨c, hmem, readRenamed crate ns i c ρ, ?_, hconstraint, hf⟩
    rw [renamed_body, List.map_eq_nil_iff] at hbody
    simp [hbody]
  · obtain ⟨hfacts, heqs, hconstraint⟩ := (holds_combined_singleton hs.lawful hbody).1 hρ
    obtain ⟨app, happ, rfl⟩ := List.map_eq_singleton_iff.1 (renamed_body ▸ hbody)
    have hok := hall _ fact hfact
    -- body and fact have as many arguments as the predicate
    obtain ⟨pred, hpred, hlen⟩ := hok.arity
    obtain ⟨pred', hpred', hlen'⟩ := hs.wellFormed c hmem app
      (List.mem_append_left _ (by simp [happ]))
    obtain rfl := Option.some.inj (hpred.symm.trans hpred')
    have hlens : (app.2.map (ChcExpr.subst (substitutions crate ns i c))).length =
        fact.args.length := by rw [List.length_map, hlen', hlen]
    have hargs : (app.2.map (ChcExpr.subst (substitutions crate ns i c))).map (·.eval ρ) =
        fact.args.map (·.eval ρ) := (map_eq_of_zip hlens).1 heqs
    rw [map_eval_renamed hs.lawful hfits fun e he => mem_terms_body (by simp [happ]) he] at hargs
    refine .step (hok.derivable ρ hfacts) ⟨c, hmem, readRenamed crate ns i c ρ, ?_,
      (holds_renamed_constraint hs.lawful hfits).1 hconstraint, hf⟩
    rw [happ]
    exact congrArg (fun vs => [some (app.1, vs)]) hargs

/-- **Clauses hand on** what holds of facts. -/
theorem Setup.handsOn (hs : Setup crate problem rank) (hc : problem.clauses[i]? = some c)
    {facts : ℕ → List ReachFact} (hall : AllFacts (FactOk crate problem ns rank) facts)
    {combo : List ReachFact} (hcombo : combo ∈ combos (renamed crate ns i c) facts) :
    HandsOn crate (FactOk crate problem ns rank) (renamed crate ns i c) combo := by
  have hmem : c ∈ problem.clauses := List.mem_of_getElem? hc
  intro pred args' indices hhead'
  obtain ⟨args, hhead, rfl⟩ := renamed_head.1 hhead'
  have hargs : ∀ e ∈ args, e ∈ terms c := fun e he => mem_terms_head hhead he
  refine ⟨?_, fun ρ hρ => ?_, fun e he w hw => ?_⟩
  · obtain ⟨p, hp, hlen⟩ := hs.wellFormed c hmem (pred, args)
      (List.mem_append_right _ (by simp [hhead]))
    exact ⟨p, hp, by simpa using hlen⟩
  · refine hs.derivable_of_combined hc hall hcombo hρ ?_
    rw [hhead]
    exact ClauseHead.fact_predicate.2
      (congrArg (fun vs => some (pred, vs)) (map_eval_renamed hs.lawful (hs.fits c hmem) hargs ρ))
  · -- a variable is the clause's own or comes with a fact of the body
    have hown : ∀ e' ∈ terms (renamed crate ns i c), w ∈ e'.vars → ∃ i c,
        problem.clauses[i]? = some c ∧ (∃ u, renamedVar crate ns i c u = w) ∧
          ∃ q args, c.head = .predicate q args ∧ rank q ≤ rank pred := by
      intro e' he' hw
      obtain ⟨e₀, he₀, rfl⟩ := exists_of_mem_terms_renamed he'
      obtain ⟨u, -, hu⟩ := (vars_renamed hs.lawful (hs.fits c hmem) he₀).1 hw
      exact ⟨i, c, hc, ⟨u, hu⟩, pred, args, hhead, le_rfl⟩
    rcases List.mem_append.1 he with he | he
    · exact hown e (mem_terms_head hhead' he) hw
    · rcases vars_combined hs.lawful he hw with ⟨e', he', hw⟩ | ⟨fact, app', hzip, e', he', hw⟩
      · exact hown e' he' hw
      · rcases (mem_combos (by simpa [renamed_body] using hs.linear c hmem)).1 hcombo with
          ⟨-, rfl⟩ | ⟨app, fact', hbody, hfact, rfl⟩
        · simp at hzip
        · rw [hbody] at hzip
          obtain ⟨rfl, rfl⟩ : fact = fact' ∧ app' = app := by simpa using hzip
          obtain ⟨j, d, hd, hu, q, dargs, hq, hle⟩ := (hall _ fact hfact).own e' he' w hw
          refine ⟨j, d, hd, hu, q, dargs, hq, hle.trans (hs.rank_lt _ _ ?_).le⟩
          obtain ⟨app₀, happ₀, rfl⟩ := List.map_eq_singleton_iff.1 (renamed_body ▸ hbody)
          exact ⟨c, hmem, by simp [happ₀], args, hhead⟩

end Clause

/-! ### At a fixpoint nothing is missing -/

section Fixpoint

open Classical in
/-- An assignment together with one of a clause's variables, put at their new names. -/
noncomputable def glue (crate : ExprCrate) (ns : String) (i : ℕ) (c : HornClause) {T : Theory}
    (ρc ρ : ChcEnv T) : ChcEnv T := fun w =>
  if h : ∃ u ∈ c.vars, renamedVar crate ns i c u = w then
    ((ChcExpr.var h.choose).eval ρc).as w.sort.toSmt
  else ρ w

variable {T : Theory} {i : ℕ} {c : HornClause} {ρc ρ : ChcEnv T}

/-- The clause reads its own assignment. -/
theorem Setup.readRenamed_glue (hs : Setup crate problem rank) (hc : c ∈ problem.clauses)
    {v : ChcVar} (hv : v ∈ c.vars) :
    readRenamed crate ns i c (glue crate ns i c ρc ρ) v = ρc v := by
  have hex : ∃ u ∈ c.vars, renamedVar crate ns i c u = renamedVar crate ns i c v := ⟨v, hv, rfl⟩
  have hmem := (hs.lawful.mem_clauseVars c (hs.fits c hc) _).2 hex.choose_spec.1
  have hu : hex.choose = v := (renamedVar_inj hex.choose_spec.2).2 rfl hmem
  have hglue : glue crate ns i c ρc ρ (renamedVar crate ns i c v) =
      ((ChcExpr.var hex.choose).eval ρc).as v.sort.toSmt := dif_pos hex
  rw [readRenamed, hglue, hu, ChcExpr.eval_var]
  exact as_mk _ _

/-- Other variables keep their values. -/
theorem glue_of_not {w : ChcVar} (h : ∀ u, renamedVar crate ns i c u ≠ w) :
    glue crate ns i c ρc ρ w = ρ w :=
  dif_neg fun ⟨u, _, hu⟩ => h u hu

/-- A fact of the search is an instance of a symbolic fact. -/
def Represented (facts : ℕ → List ReachFact) (f : ChcFact (reading T)) : Prop :=
  ∃ p, ∃ fact ∈ facts p, ∃ ρ : ChcEnv T, (∀ k ∈ fact.constraints, k.Holds ρ) ∧
    f = some (p, fact.args.map (·.eval ρ))

/-- A clause that fires from represented facts satisfies one of its combinations. -/
theorem Setup.exists_combo (hs : Setup crate problem rank) (hc : problem.clauses[i]? = some c)
    {facts : ℕ → List ReachFact} (hall : AllFacts (FactOk crate problem ns rank) facts)
    {prem : Option (ChcFact (reading T))} {f : ChcFact (reading T)}
    (hfires : c.FiresUnder (M := reading T) ρc prem f)
    (hprem : ∀ g ∈ prem, Represented facts g) :
    ∃ combo ∈ combos (renamed crate ns i c) facts, ∃ ρ : ChcEnv T,
      (∀ k ∈ combinedConstraints crate (renamed crate ns i c) combo, k.Holds ρ) ∧
        ∀ v ∈ c.vars, readRenamed crate ns i c ρ v = ρc v := by
  have hmem : c ∈ problem.clauses := List.mem_of_getElem? hc
  have hlinear : (renamed crate ns i c).body.predicates.length ≤ 1 := by
    simpa [renamed_body] using hs.linear c hmem
  have hconstraint : ∀ ρ, (∀ v ∈ c.vars, readRenamed crate ns i c ρ v = ρc v) →
      ∀ k ∈ (renamed crate ns i c).body.constraint, k.Holds ρ := by
    refine fun ρ hρ => (holds_renamed_constraint hs.lawful (hs.fits c hmem)).2 fun k hk => ?_
    have hterm : k ∈ terms c := by simp [terms, Option.mem_def.1 hk]
    exact (ChcExpr.holds_congr fun v hv => hρ v (mem_vars_iff.2 ⟨k, hterm, hv⟩)).2
      (hfires.constraint k hk)
  cases prem with
  | none =>
    have hbody : c.body.predicates = [] := List.map_eq_nil_iff.1 hfires.body
    have hread : ∀ v ∈ c.vars, readRenamed crate ns i c (glue crate ns i c ρc ρc) v = ρc v :=
      fun v hv => hs.readRenamed_glue hmem hv
    exact ⟨[], (mem_combos hlinear).2 (.inl ⟨by simp [renamed_body, hbody], rfl⟩),
      glue crate ns i c ρc ρc, holds_combined_nil.2 (hconstraint _ hread), hread⟩
  | some g =>
    obtain ⟨p, fact, hfact, ρ, hρ, rfl⟩ := hprem g rfl
    obtain ⟨app, happ, hval⟩ := List.map_eq_singleton_iff.1 hfires.body
    obtain ⟨rfl, hvals⟩ : app.1 = p ∧
        app.2.map (·.eval ρc) = fact.args.map (·.eval ρ) := by
      have hpair := Option.some.inj hval
      exact ⟨congrArg Prod.fst hpair, congrArg Prod.snd hpair⟩
    have hread : ∀ v ∈ c.vars, readRenamed crate ns i c (glue crate ns i c ρc ρ) v = ρc v :=
      fun v hv => hs.readRenamed_glue hmem hv
    -- the fact's variables are not the clause's: its head comes after its body
    have hfresh : ∀ e ∈ fact.args ++ fact.constraints, ∀ w ∈ e.vars,
        glue crate ns i c ρc ρ w = ρ w := by
      intro e he w hw
      refine glue_of_not fun u hu => ?_
      obtain ⟨j, d, hd, ⟨u', hu'⟩, q, args, hq, hle⟩ := (hall _ fact hfact).own e he w hw
      obtain rfl := (renamedVar_inj (hu.trans hu'.symm)).1
      obtain rfl := Option.some.inj (hc.symm.trans hd)
      have hlt := hs.rank_lt app.1 q ⟨c, hmem, by simp [happ], args, hq⟩
      omega
    have hbody : (renamed crate ns i c).body.predicates =
        [(app.1, app.2.map (ChcExpr.subst (substitutions crate ns i c)))] := by
      rw [renamed_body, happ]
      rfl
    have hargs : ∀ e ∈ app.2, e ∈ terms c := fun e he =>
      mem_terms_body (by simp [happ]) he
    have hleft : (app.2.map (ChcExpr.subst (substitutions crate ns i c))).map
        (·.eval (glue crate ns i c ρc ρ)) = app.2.map (·.eval ρc) := by
      rw [map_eval_renamed hs.lawful (hs.fits c hmem) hargs]
      exact List.map_congr_left fun e he => ChcExpr.eval_congr fun v hv =>
        hread v (mem_vars_iff.2 ⟨e, hargs e he, hv⟩)
    have hright : fact.args.map (·.eval (glue crate ns i c ρc ρ)) =
        fact.args.map (·.eval ρ) := List.map_congr_left fun e he =>
      ChcExpr.eval_congr fun w hw => hfresh e (List.mem_append_left _ he) w hw
    have hlens : (app.2.map (ChcExpr.subst (substitutions crate ns i c))).length =
        fact.args.length := by
      rw [List.length_map]
      simpa using congrArg List.length hvals
    refine ⟨[fact], (mem_combos hlinear).2 (.inr ⟨_, fact, hbody, hfact, rfl⟩),
      glue crate ns i c ρc ρ, (holds_combined_singleton hs.lawful hbody).2 ⟨fun k hk => ?_,
        (map_eq_of_zip hlens).2 (hleft.trans (hvals.trans hright.symm)), hconstraint _ hread⟩,
      hread⟩
    exact (ChcExpr.holds_congr fun w hw => hfresh k (List.mem_append_right _ hk) w hw).2 (hρ k hk)

/-- Every combination of every clause is accounted for. -/
def Closed (crate : ExprCrate) (problem : ChcProblem) (ns : String) (𝓜 : Set Theory)
    (facts : ℕ → List ReachFact) : Prop :=
  ∀ i c, problem.clauses[i]? = some c → ∀ combo ∈ combos (renamed crate ns i c) facts,
    Covered crate 𝓜 (renamed crate ns i c) combo facts

/-- **At a fixpoint nothing is missing**: by induction on the derivation. -/
theorem Setup.represented_of_derivable (hs : Setup crate problem rank) {𝓜 : Set Theory}
    (hT : T ∈ 𝓜) {facts : ℕ → List ReachFact}
    (hall : AllFacts (FactOk crate problem ns rank) facts)
    (hclosed : Closed crate problem ns 𝓜 facts) {f : ChcFact (reading T)}
    (hf : (problem.system (reading T)).Derivable f) : Represented facts f := by
  have hstep : ∀ prem f, (problem.system (reading T)).fires prem f →
      (∀ g ∈ prem, Represented facts g) → Represented facts f := by
    rintro prem f ⟨c, hmem, ρc, hbody, hconstraint, hhead⟩ hprem
    obtain ⟨i, hc⟩ := List.getElem?_of_mem hmem
    obtain ⟨combo, hcombo, ρ, hρ, hread⟩ :=
      hs.exists_combo hc hall ⟨hbody, hconstraint, hhead⟩ hprem
    obtain ⟨pred, args', hpred, fact, hfact, rfl, hcs⟩ := hclosed i c hc combo hcombo
      ⟨T, hT, ρ, hρ⟩
    obtain ⟨args, hargs, heq⟩ := renamed_head.1 hpred
    refine ⟨pred, fact, hfact, ρ, hcs ▸ hρ, ?_⟩
    rw [hargs] at hhead
    refine (ClauseHead.fact_predicate.1 hhead).trans (congrArg (fun vs => some (pred, vs)) ?_)
    have hterms : ∀ e ∈ args, e ∈ terms c := fun e he => mem_terms_head hargs he
    rw [heq, map_eval_renamed hs.lawful (hs.fits c hmem) hterms]
    exact (List.map_congr_left fun e he => ChcExpr.eval_congr fun v hv =>
      hread v (mem_vars_iff.2 ⟨e, hterms e he, hv⟩)).symm
  refine hf.invariant (fun f hf => hstep none f hf (by simp)) fun g f _ hg hf =>
    hstep (some g) f hf fun g' hg' => ?_
  obtain rfl := Option.some.inj hg'
  exact hg

/-- The query is not derivable at a fixpoint. -/
theorem Setup.not_refuted (hs : Setup crate problem rank) {𝓜 : Set Theory} (hT : T ∈ 𝓜)
    {facts : ℕ → List ReachFact} (hall : AllFacts (FactOk crate problem ns rank) facts)
    (hclosed : Closed crate problem ns 𝓜 facts) : ¬ problem.Refuted (reading T) := fun href => by
  obtain ⟨p, fact, -, ρ, -, heq⟩ := hs.represented_of_derivable hT hall hclosed href
  cases heq

end Fixpoint

/-! ### The passes -/

section Passes

variable {solver : Solver} {𝓜 : Set Theory} {clauses : List HornClause}
  {st : SearchState solver.State}

/-- The clauses of a pass are the renamed clauses of the problem. -/
theorem mem_zipIdx_renamed
    (hget : ∀ i, clauses[i]? = problem.clauses[i]?.map (renamed crate ns i))
    {c' : HornClause} {i : ℕ} : (c', i) ∈ clauses.zipIdx ↔
      ∃ c, problem.clauses[i]? = some c ∧ c' = renamed crate ns i c := by
  rw [List.mem_zipIdx_iff_getElem?, hget, Option.map_eq_some_iff]
  exact exists_congr fun c => and_congr_right fun _ => eq_comm

theorem Setup.recognized (hs : Setup crate problem rank)
    (hget : ∀ i, clauses[i]? = problem.clauses[i]?.map (renamed crate ns i)) :
    ∀ c ∈ clauses.zipIdx, c.1.head ≠ .unrecognized := by
  rintro ⟨c', i⟩ hc' hhead
  obtain ⟨c, hc, rfl⟩ := (mem_zipIdx_renamed hget).1 hc'
  have hfits := hs.fits c (List.mem_of_getElem? hc)
  rw [clauseFitsAlphaSubstitutionLimits, renamed_head_unrecognized.1 hhead] at hfits
  simp at hfits

theorem Setup.linear_renamed (hs : Setup crate problem rank)
    (hget : ∀ i, clauses[i]? = problem.clauses[i]?.map (renamed crate ns i)) :
    ∀ c ∈ clauses.zipIdx, c.1.body.predicates.length ≤ 1 := by
  rintro ⟨c', i⟩ hc'
  obtain ⟨c, hc, rfl⟩ := (mem_zipIdx_renamed hget).1 hc'
  simpa [renamed_body] using hs.linear c (List.mem_of_getElem? hc)

/-- A pass keeps what holds of the facts, and what it reports is a derivation of the query. -/
theorem Setup.pass_sound (hs : Setup crate problem rank) (hsolver : solver.Right 𝓜)
    (hget : ∀ i, clauses[i]? = problem.clauses[i]?.map (renamed crate ns i))
    (hall : AllFacts (FactOk crate problem ns rank) st.facts) :
    (∀ st', pass crate solver clauses st = .ok st' →
        AllFacts (FactOk crate problem ns rank) st'.facts) ∧
      ∀ witness, pass crate solver clauses st = .error witness →
        ∃ T ∈ 𝓜, problem.Refuted (reading T) := by
  have hP : ∀ c ∈ clauses.zipIdx, ∀ facts, AllFacts (FactOk crate problem ns rank) facts →
      ∀ combo ∈ combos c.1 facts, HandsOn crate (FactOk crate problem ns rank) c.1 combo := by
    rintro ⟨c', i⟩ hc' facts hfacts combo hcombo
    obtain ⟨c, hc, rfl⟩ := (mem_zipIdx_renamed hget).1 hc'
    exact hs.handsOn hc hfacts hcombo
  obtain ⟨hok, herror⟩ := all_pass hs.lawful hsolver hP hall
  refine ⟨hok, fun witness h => ?_⟩
  obtain ⟨⟨c', i⟩, hc', hhead, facts, hfacts, combo, hcombo, T, hT, ρ, hρ⟩ := herror witness h
  obtain ⟨c, hc, rfl⟩ := (mem_zipIdx_renamed hget).1 hc'
  refine ⟨T, hT, hs.derivable_of_combined hc hfacts hcombo hρ ?_⟩
  rw [renamed_head_false.1 hhead]
  exact .false

/-- A pass that finds nothing and leaves out nothing is a fixpoint. -/
theorem Setup.closed_of_pass (hs : Setup crate problem rank) (hsolver : solver.Right 𝓜)
    (hget : ∀ i, clauses[i]? = problem.clauses[i]?.map (renamed crate ns i))
    {st' : SearchState solver.State} (h : pass crate solver clauses st = .ok st')
    (hchanged : st'.changed = false) (ht : st'.truncated = false) :
    Closed crate problem ns 𝓜 st'.facts := by
  intro i c hc combo hcombo
  obtain ⟨-, hcov⟩ := passFrom_ok hs.lawful hsolver (hs.recognized hget) h
  obtain ⟨st₁, -, hto, hall⟩ := hcov ht _ ((mem_zipIdx_renamed hget).2 ⟨c, hc, rfl⟩)
  exact hall combo ((hto.unchanged hchanged).2 ▸ hcombo)

/-- **The search is right**: exhausted, it has reached a fixpoint; otherwise its witness is a
derivation of the query. -/
theorem Setup.searchLoop_sound (hs : Setup crate problem rank) (hsolver : solver.Right 𝓜)
    (hget : ∀ i, clauses[i]? = problem.clauses[i]?.map (renamed crate ns i)) {fuel : ℕ}
    (hall : AllFacts (FactOk crate problem ns rank) st.facts) :
    (searchLoop crate solver clauses fuel st = .exhaustivelyNone →
        ∃ facts, AllFacts (FactOk crate problem ns rank) facts ∧
          Closed crate problem ns 𝓜 facts) ∧
      ∀ witness, searchLoop crate solver clauses fuel st = .witness witness →
        ∃ T ∈ 𝓜, problem.Refuted (reading T) := by
  induction fuel generalizing st with
  | zero => exact ⟨fun h => (by cases h), fun witness h => (by cases h)⟩
  | succ fuel ih =>
    obtain ⟨hok, herror⟩ := hs.pass_sound hsolver hget hall
    rw [searchLoop]
    cases hpass : pass crate solver clauses st with
    | error witness => exact ⟨fun h => (by cases h), fun _ _ => herror witness hpass⟩
    | ok st' =>
      dsimp only
      cases hchanged : st'.changed with
      | true => simpa using ih (hok st' hpass)
      | false =>
        cases ht : st'.truncated with
        | true => exact ⟨fun h => (by cases h), fun witness h => (by cases h)⟩
        | false =>
          refine ⟨fun _ => ⟨st'.facts, hok st' hpass, ?_⟩, fun witness h => (by cases h)⟩
          exact hs.closed_of_pass hsolver hget hpass hchanged ht

/-! ### Convergence -/

/-- The states between the passes of a search. -/
inductive Visited (crate : ExprCrate) (solver : Solver) (clauses : List HornClause)
    (st : SearchState solver.State) : SearchState solver.State → Prop
  | start : Visited crate solver clauses st st
  | pass {st₁ st₂ : SearchState solver.State} (h : Visited crate solver clauses st st₁)
      (hpass : pass crate solver clauses st₁ = .ok st₂) : Visited crate solver clauses st st₂

/-- The predicates of rank below `k` are settled: whatever leads to them is accounted for. -/
def SettledBelow (crate : ExprCrate) (problem : ChcProblem) (ns : String) (rank : ℕ → ℕ)
    (𝓜 : Set Theory) (k : ℕ) (facts : ℕ → List ReachFact) : Prop :=
  ∀ i c, problem.clauses[i]? = some c → ∀ q args, c.head = .predicate q args → rank q < k →
    ∀ combo ∈ combos (renamed crate ns i c) facts,
      Covered crate 𝓜 (renamed crate ns i c) combo facts

/-- What a pass does to settled predicates: nothing. -/
theorem Setup.pass_settled (hs : Setup crate problem rank) (hsolver : solver.Right 𝓜)
    (hget : ∀ i, clauses[i]? = problem.clauses[i]?.map (renamed crate ns i)) {k : ℕ}
    (hsettled : SettledBelow crate problem ns rank 𝓜 k st.facts) {st' : SearchState solver.State}
    (h : pass crate solver clauses st = .ok st') :
    (∀ q, rank q < k → st'.facts q = st.facts q) ∧
      ((∀ c ∈ clauses.zipIdx, ∀ q args, c.1.head = .predicate q args → rank q < k) →
        st'.changed = false) := by
  rw [pass_eq] at h
  refine passFrom_settled (𝓜 := 𝓜) (Q := fun q => rank q < k) hs.lawful hsolver
    (hs.linear_renamed hget) ?_ (fun _ _ => rfl) h
  rintro ⟨c', i⟩ hc' q args' hhead hq
  obtain ⟨c, hc, rfl⟩ := (mem_zipIdx_renamed hget).1 hc'
  obtain ⟨args, hargs, rfl⟩ := renamed_head.1 hhead
  refine ⟨fun app happ => ?_, hsettled i c hc q args hargs hq⟩
  obtain ⟨app₀, happ₀, rfl⟩ := List.mem_map.1 happ
  exact (hs.rank_lt app₀.1 q ⟨c, List.mem_of_getElem? hc, List.mem_map_of_mem happ₀, args,
    hargs⟩).trans hq

/-- After a pass that leaves out nothing, the predicates of the next rank are settled as well. -/
theorem Setup.settled_succ (hs : Setup crate problem rank) (hsolver : solver.Right 𝓜)
    (hget : ∀ i, clauses[i]? = problem.clauses[i]?.map (renamed crate ns i)) {k : ℕ}
    (hsettled : SettledBelow crate problem ns rank 𝓜 k st.facts) {st' : SearchState solver.State}
    (h : pass crate solver clauses st = .ok st') (ht : st'.truncated = false) :
    SettledBelow crate problem ns rank 𝓜 (k + 1) st'.facts := by
  intro i c hc q args hq hlt combo hcombo
  have hmem := List.mem_of_getElem? hc
  obtain ⟨-, hcov⟩ := passFrom_ok hs.lawful hsolver (hs.recognized hget) h
  obtain ⟨st₁, hfrom, -, hall⟩ := hcov ht _ ((mem_zipIdx_renamed hget).2 ⟨c, hc, rfl⟩)
  obtain ⟨hsame, -⟩ := hs.pass_settled hsolver hget hsettled h
  -- the facts of the body were there before the pass
  have hlinear : (renamed crate ns i c).body.predicates.length ≤ 1 := by
    simpa [renamed_body] using hs.linear c hmem
  refine hall combo ((mem_combos hlinear).2 ?_)
  rcases (mem_combos hlinear).1 hcombo with hnil | ⟨app, fact, hbody, hfact, rfl⟩
  · exact .inl hnil
  · refine .inr ⟨app, fact, hbody, hfrom.facts app.1 fact ?_, rfl⟩
    obtain ⟨app₀, happ₀, rfl⟩ := List.map_eq_singleton_iff.1 (renamed_body ▸ hbody)
    have hrank := hs.rank_lt app₀.1 q ⟨c, hmem, by simp [happ₀], args, hq⟩
    rwa [hsame app₀.1 (by omega)] at hfact

/-- **The passes converge**: every pass settles the predicates of one more rank, and once all
are settled a pass finds nothing. -/
theorem Setup.searchLoop_ne_truncated (hs : Setup crate problem rank) (hsolver : solver.Right 𝓜)
    (hnever : solver.NeverUnknown)
    (hget : ∀ i, clauses[i]? = problem.clauses[i]?.map (renamed crate ns i))
    (hrank : ∀ p < problem.predicates.length, rank p < problem.predicates.length) {fuel k : ℕ}
    (hk : k ≤ problem.predicates.length) (hfuel : problem.predicates.length < fuel + k)
    (ht : st.truncated = false) (hsettled : SettledBelow crate problem ns rank 𝓜 k st.facts)
    (hcap : ∀ st', Visited crate solver clauses st st' →
      ∀ p, (st'.facts p).length < maxFactsPerPredicate) :
    searchLoop crate solver clauses fuel st ≠ .truncated := by
  induction fuel generalizing k st with
  | zero => omega
  | succ fuel ih =>
    rw [searchLoop]
    cases hpass : pass crate solver clauses st with
    | error witness => exact fun h => by cases h
    | ok st' =>
      have ht' : st'.truncated = false :=
        (passFrom_truncated hs.lawful hsolver hnever (hs.recognized hget)
          (hs.linear_renamed hget) (hcap st' (.pass .start hpass)) hpass).trans ht
      dsimp only
      cases hchanged : st'.changed with
      | false => simp [ht']
      | true =>
        have hlt : k < problem.predicates.length := by
          refine lt_of_le_of_ne hk fun heq => ?_
          obtain ⟨-, hsame⟩ := hs.pass_settled hsolver hget hsettled hpass
          refine absurd (hchanged.symm.trans (hsame ?_)) (by decide)
          -- every head is declared
          rintro ⟨c', i⟩ hc' q args' hhead
          obtain ⟨c, hc, rfl⟩ := (mem_zipIdx_renamed hget).1 hc'
          obtain ⟨args, hargs, -⟩ := renamed_head.1 hhead
          obtain ⟨pred, hpred, -⟩ := hs.wellFormed c (List.mem_of_getElem? hc) (q, args)
            (List.mem_append_right _ (by simp [hargs]))
          rw [heq]
          exact hrank q (List.getElem?_eq_some_iff.1 hpred).1
        refine ih (k := k + 1) hlt (by omega) ht'
          (hs.settled_succ hsolver hget hsettled hpass ht') fun st'' hv => hcap st'' ?_
        induction hv with
        | start => exact .pass .start hpass
        | pass _ h ih => exact .pass ih h

end Passes

end Facts

/-! ### The decision -/

section Decision

variable {crate : ExprCrate} {solver : Solver} {𝓜 : Set Theory} {problem : ChcProblem}

/-- Where the search is made, the problem has ranks and its clauses were renamed. -/
theorem exists_setup (hcrate : crate.Lawful) (hwf : WellFormed problem)
    (hacyclic : isAcyclicProblem crate problem = true)
    (hlinear : ∀ c ∈ problem.clauses, c.body.predicates.length ≤ 1) {clauses : List HornClause}
    (hren : alphaRenamedClauses crate problem = some clauses) :
    ∃ rank ns, Setup crate problem rank ∧
      (∀ p < problem.predicates.length, rank p < problem.predicates.length) ∧
      ∀ i, clauses[i]? = problem.clauses[i]?.map (renamed crate ns i) := by
  obtain ⟨rank, hrank, hlt⟩ := exists_rank hcrate hwf hacyclic
  obtain ⟨hfits, ns, hget⟩ := alphaRenamedClauses_eq hcrate hren
  exact ⟨rank, ns, ⟨hcrate, hwf, hfits, hlinear, hlt⟩, hrank, hget⟩

/-- The search is made on acyclic linear problems. -/
theorem of_decision_ne_inconclusive
    (h : acyclicDirectSmtDecision crate solver problem ≠ .inconclusive) :
    isAcyclicProblem crate problem = true ∧
      (∀ c ∈ problem.clauses, c.body.predicates.length ≤ 1) ∧
      ∃ clauses, alphaRenamedClauses crate problem = some clauses ∧
        acyclicErrorDerivation crate solver problem = searchLoop crate solver clauses
          (problem.predicates.length + problem.clauses.length + 1) (.start solver problem) := by
  rw [acyclicDirectSmtDecision] at h
  split_ifs at h with hguard
  · exact absurd rfl h
  · simp only [Bool.not_eq_true', not_or, Bool.not_eq_false, List.any_eq_true, decide_eq_true_eq,
      not_exists, not_and, Nat.not_lt] at hguard
    refine ⟨hguard.1, hguard.2, ?_⟩
    cases hren : alphaRenamedClauses crate problem with
    | none =>
      rw [acyclicErrorDerivation, hren] at h
      exact absurd rfl h
    | some clauses => exact ⟨clauses, rfl, by rw [acyclicErrorDerivation, hren]⟩

/-- **The decision is exact.** It is safe only if the query is not derivable and unsafe only if
it is; and on a linear acyclic problem it is not inconclusive if the solver always answers,
renaming succeeds and no predicate has as many facts as the cap. -/
theorem acyclicDirectSmtDecision_exact (hcrate : crate.Lawful) (hsolver : solver.Right 𝓜)
    (hwf : WellFormed problem) :
    (acyclicDirectSmtDecision crate solver problem = .safe →
        ∀ T ∈ 𝓜, ¬ problem.Refuted (reading T)) ∧
      (∀ witness, acyclicDirectSmtDecision crate solver problem = .unsafeWith witness →
        ∃ T ∈ 𝓜, problem.Refuted (reading T)) ∧
      (Acyclic problem → (∀ c ∈ problem.clauses, c.body.predicates.length ≤ 1) →
        solver.NeverUnknown → ∀ clauses, alphaRenamedClauses crate problem = some clauses →
        (∀ st, Visited crate solver clauses (.start solver problem) st →
          ∀ p, (st.facts p).length < maxFactsPerPredicate) →
        acyclicDirectSmtDecision crate solver problem ≠ .inconclusive) := by
  have hempty : ∀ rank ns, AllFacts (FactOk crate problem ns rank)
      (SearchState.start solver problem).facts := fun _ _ p fact hfact =>
    absurd hfact List.not_mem_nil
  refine ⟨fun h T hT => ?_, fun witness h => ?_, fun hacyclic hlinear hnever clauses hren hcap =>
    ?_⟩
  · have hne : acyclicDirectSmtDecision crate solver problem ≠ .inconclusive := by simp [h]
    obtain ⟨hacyclic, hlinear, clauses, hren, hsearch⟩ := of_decision_ne_inconclusive hne
    obtain ⟨rank, ns, hs, -, hget⟩ := exists_setup hcrate hwf hacyclic hlinear hren
    rw [acyclicDirectSmtDecision, hsearch] at h
    split_ifs at h
    cases hout : searchLoop crate solver clauses
        (problem.predicates.length + problem.clauses.length + 1) (.start solver problem) with
    | exhaustivelyNone =>
      obtain ⟨facts, hall, hclosed⟩ :=
        (hs.searchLoop_sound hsolver hget (hempty rank ns)).1 hout
      exact hs.not_refuted hT hall hclosed
    | witness _ | truncated =>
      rw [hout] at h
      cases h
  · have hne : acyclicDirectSmtDecision crate solver problem ≠ .inconclusive := by simp [h]
    obtain ⟨hacyclic, hlinear, clauses, hren, hsearch⟩ := of_decision_ne_inconclusive hne
    obtain ⟨rank, ns, hs, -, hget⟩ := exists_setup hcrate hwf hacyclic hlinear hren
    rw [acyclicDirectSmtDecision, hsearch] at h
    split_ifs at h
    cases hout : searchLoop crate solver clauses
        (problem.predicates.length + problem.clauses.length + 1) (.start solver problem) with
    | witness w => exact (hs.searchLoop_sound hsolver hget (hempty rank ns)).2 w hout
    | exhaustivelyNone | truncated =>
      rw [hout] at h
      cases h
  · have hguard := (isAcyclicProblem_iff hcrate hwf).2 hacyclic
    obtain ⟨rank, ns, hs, hrank, hget⟩ := exists_setup hcrate hwf hguard hlinear hren
    have hne : searchLoop crate solver clauses
        (problem.predicates.length + problem.clauses.length + 1) (.start solver problem) ≠
          .truncated :=
      hs.searchLoop_ne_truncated hsolver hnever hget hrank (Nat.zero_le _) (by omega) rfl
        (fun i c _ q args _ hq => absurd hq (Nat.not_lt_zero _)) hcap
    rw [acyclicDirectSmtDecision, if_neg (by simpa [hguard] using hlinear),
      acyclicErrorDerivation, hren]
    dsimp only
    split
    · exact fun h => by cases h
    · exact fun h => by cases h
    · rename_i hout
      exact absurd hout hne

/-! ### An unreachable default -/

/-- `_4 = z`. -/
private def tagIs (z : ℤ) : ChcExpr := .op .eq [.var ⟨"_4", .int⟩, .int z]

/-- The default of an exhaustive match: `_4 ∈ {0, 1, 2}` and `_4 ∉ {0, 1, 2}`. -/
private def unreachableDefault : ChcExpr :=
  .op .and [.op .or [tagIs 0, tagIs 1, tagIs 2],
    .op .and [.op .not [tagIs 0], .op .not [tagIs 1], .op .not [tagIs 2]]]

/-- The error is reached if the default of an exhaustive match is. -/
def exhaustiveUnreachableProblem : ChcProblem where
  predicates := []
  clauses := [⟨⟨[], some unreachableDefault⟩, .false⟩]
  isFixedpointFormat := false
  hasStrippedBodyForall := false
  datatypeDefs := []
  hasActionDecomposition := false
  names_nodup := List.nodup_nil

/-- The default is unreachable. -/
private theorem not_refuted_exhaustive (T : Theory) :
    ¬ exhaustiveUnreachableProblem.Refuted (reading T) := by
  have hnone : ∀ prem f, (exhaustiveUnreachableProblem.system (reading T)).fires prem f →
      False := by
    rintro prem f ⟨c, hc, ρ, -, hconstraint, -⟩
    obtain rfl := List.mem_singleton.1 hc
    have h : unreachableDefault.Holds ρ := hconstraint _ rfl
    obtain ⟨hor, hand⟩ : (ChcExpr.op .or [tagIs 0, tagIs 1, tagIs 2]).Holds ρ ∧
        (ChcExpr.op .and [.op .not [tagIs 0], .op .not [tagIs 1], .op .not [tagIs 2]]).Holds ρ := by
      simpa using holds_and.1 h
    obtain ⟨e, he, hholds⟩ := holds_or.1 hor
    exact holds_not.1 (holds_and.1 hand (.op .not [e]) (by simpa using he)) hholds
  intro href
  cases href with
  | fact h => exact hnone _ _ h
  | step _ h => exact hnone _ _ h

/-- Without predicates there are no facts. -/
private theorem visited_exhaustive {clauses : List HornClause}
    (hren : alphaRenamedClauses treeCrate exhaustiveUnreachableProblem = some clauses)
    {st : SearchState (exactSolver 𝓜).State} (h : Visited treeCrate (exactSolver 𝓜) clauses
      (.start (exactSolver 𝓜) exhaustiveUnreachableProblem) st) (p : ℕ) : st.facts p = [] := by
  obtain ⟨-, ns, hget⟩ := alphaRenamedClauses_eq treeCrate_lawful hren
  have hP : ∀ c ∈ clauses.zipIdx, ∀ facts, AllFacts (fun _ _ => False) facts →
      ∀ combo ∈ combos c.1 facts, HandsOn treeCrate (fun _ _ => False) c.1 combo := by
    rintro ⟨c', i⟩ hc' facts - combo - pred args' indices hhead
    obtain ⟨c, hc, rfl⟩ := (mem_zipIdx_renamed hget).1 hc'
    obtain rfl := List.mem_singleton.1 (List.mem_of_getElem? hc)
    obtain ⟨args, hargs, -⟩ := renamed_head.1 hhead
    cases hargs
  have hall : AllFacts (fun _ _ => False) st.facts := by
    induction h with
    | start => exact fun _ fact hfact => absurd hfact List.not_mem_nil
    | @pass st₁ st₂ _ hpass ih =>
      exact (all_pass treeCrate_lawful (exactSolver_right 𝓜) hP ih).1 st₂ hpass
  exact List.eq_nil_iff_forall_not_mem.2 fun fact hfact => hall p fact hfact

/-- The default of an exhaustive match is decided to be safe. -/
theorem acyclicDirectSmtDecision_exact_exhaustive :
    acyclicDirectSmtDecision treeCrate (exactSolver Set.univ) exhaustiveUnreachableProblem =
      .safe := by
  have hwf : WellFormed exhaustiveUnreachableProblem := by
    intro c hc app happ
    obtain rfl := List.mem_singleton.1 hc
    exact absurd happ List.not_mem_nil
  obtain ⟨-, hunsafe, hdecided⟩ := acyclicDirectSmtDecision_exact treeCrate_lawful
    (exactSolver_right Set.univ) hwf
  cases hdecision : acyclicDirectSmtDecision treeCrate (exactSolver Set.univ)
      exhaustiveUnreachableProblem with
  | safe => rfl
  | unsafeWith witness =>
    obtain ⟨T, -, href⟩ := hunsafe witness hdecision
    exact absurd href (not_refuted_exhaustive T)
  | inconclusive =>
    have hacyclic : Acyclic exhaustiveUnreachableProblem :=
      (isAcyclicProblem_iff treeCrate_lawful hwf).1 rfl
    obtain ⟨clauses, hren⟩ := Option.isSome_iff_exists.1
      (show (alphaRenamedClauses treeCrate exhaustiveUnreachableProblem).isSome = true by
        decide +kernel)
    refine absurd hdecision (hdecided hacyclic (by decide) (exactSolver_neverUnknown _) clauses
      hren fun st hst p => ?_)
    rw [visited_exhaustive hren hst p]
    decide

end Decision

end TrustMc.DirectSmt
