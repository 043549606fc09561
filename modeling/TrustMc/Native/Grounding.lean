import TrustMc.Native.BoundedUnroll

/-!
# Grounded clauses

What the grounding gate of the bounded unrolling says of the assignments of a clause. It counts
the variables of a body argument as known, which those of a compound argument are not: the
premise fixes the value of the argument only.

* `collectExprVars_spec`: the variables that are collected are all the variables of a term.
* `HornClause.determined_of_grounded`: if the premise determines the variables of the compound
  arguments, it determines all variables of an accepted clause.
* `runsDetermined_of_determined`: a derivation is then determined by the assignment of the
  entry fact.
* `grounded_determined_iff`: for an accepted problem the converse holds too.
-/

namespace TrustMc

namespace Native

open Budget

/-! ### Variables -/

mutual

/-- The variables of a term. -/
def ChcExpr.vars : ChcExpr → List ChcVar
  | .var v => [v]
  | .op _ args | .predicateApp _ _ args | .funcApp _ _ args => varsList args
  | .constArray _ value => value.vars
  | _ => []

/-- The variables of a list of terms. -/
def ChcExpr.varsList : List ChcExpr → List ChcVar
  | [] => []
  | e :: es => e.vars ++ varsList es

end

mutual

/-- The term has only shapes that are known. -/
def ChcExpr.recognized : ChcExpr → Bool
  | .op _ args | .predicateApp _ _ args | .funcApp _ _ args => recognizedList args
  | .constArray _ value => value.recognized
  | .unrecognized => false
  | _ => true

/-- The terms have only shapes that are known. -/
def ChcExpr.recognizedList : List ChcExpr → Bool
  | [] => true
  | e :: es => e.recognized && recognizedList es

end

@[simp]
theorem ChcExpr.mem_varsList {v : ChcVar} {es : List ChcExpr} :
    v ∈ ChcExpr.varsList es ↔ ∃ e ∈ es, v ∈ e.vars := by
  induction es with
  | nil => simp [ChcExpr.varsList]
  | cons e es ih => simp [ChcExpr.varsList, ih]

@[simp]
theorem ChcExpr.recognizedList_eq {es : List ChcExpr} :
    ChcExpr.recognizedList es = true ↔ ∀ e ∈ es, e.recognized = true := by
  induction es with
  | nil => simp [ChcExpr.recognizedList]
  | cons e es ih => simp [ChcExpr.recognizedList, ih]

/-- Visiting a node with parts leaves the parts to visit. -/
private theorem collect_args {args pending : List ChcExpr} {vars vs : List ChcVar}
    (h : (∀ e ∈ args.reverse ++ pending, e.recognized = true) ∧
      ∀ v, v ∈ vs ↔ v ∈ vars ∨ ∃ e ∈ args.reverse ++ pending, v ∈ e.vars) :
    ((∀ e ∈ args, e.recognized = true) ∧ ∀ e ∈ pending, e.recognized = true) ∧
      ∀ v, v ∈ vs ↔ v ∈ vars ∨ (∃ e ∈ args, v ∈ e.vars) ∨ ∃ e ∈ pending, v ∈ e.vars := by
  refine ⟨⟨fun e he => h.1 e (by simp [he]), fun e he => h.1 e (by simp [he])⟩, fun v => ?_⟩
  simp only [h.2 v, List.mem_append, List.mem_reverse, or_and_right, exists_or]

/-- The loop collects the variables of the terms it is to visit, and knows their shapes. -/
theorem collectExprVarsLoop_spec {n : ℕ} {pending : List ChcExpr} {vars vs : List ChcVar}
    (h : collectExprVarsLoop n pending vars = some vs) :
    (∀ e ∈ pending, e.recognized = true) ∧
      ∀ v, v ∈ vs ↔ v ∈ vars ∨ ∃ e ∈ pending, v ∈ e.vars := by
  induction n generalizing pending vars with
  | zero =>
    cases pending with
    | nil =>
      obtain rfl := Option.some.inj h
      simp
    | cons e pending => simp [collectExprVarsLoop] at h
  | succ n ih =>
    cases pending with
    | nil =>
      obtain rfl := Option.some.inj h
      simp
    | cons e pending =>
      simp only [List.forall_mem_cons, List.exists_mem_cons_iff]
      cases e
      case var v => simpa [ChcExpr.recognized, ChcExpr.vars, or_assoc] using ih h
      case op | predicateApp | funcApp =>
        simpa [ChcExpr.recognized, ChcExpr.vars] using collect_args (ih h)
      case constArray => simpa [ChcExpr.recognized, ChcExpr.vars] using ih h
      case unrecognized => cases h
      all_goals simpa [ChcExpr.recognized, ChcExpr.vars] using ih h

/-- The variables that are collected are those of the term, whose shapes are known. -/
theorem collectExprVars_spec {e : ChcExpr} {vs : List ChcVar}
    (h : collectExprVars e = some vs) :
    e.recognized = true ∧ ∀ v, v ∈ vs ↔ v ∈ e.vars := by
  simpa using collectExprVarsLoop_spec h

/-- The variables that are collected from a list of terms are those of the terms. -/
theorem collectAll_spec {es : List ChcExpr} {vs : List ChcVar} (h : collectAll es = some vs) :
    (∀ e ∈ es, e.recognized = true) ∧ ∀ v, v ∈ vs ↔ ∃ e ∈ es, v ∈ e.vars := by
  obtain ⟨vss, hvss, rfl⟩ := Option.map_eq_some_iff.1 h
  clear h
  induction es generalizing vss with
  | nil =>
    obtain rfl : vss = [] := by simpa using hvss.symm
    simp
  | cons e es ih =>
    rw [List.mapM_cons] at hvss
    obtain ⟨vs, hvs, hvss⟩ := Option.bind_eq_some_iff.1 hvss
    obtain ⟨vss, hvss', hvss⟩ := Option.bind_eq_some_iff.1 hvss
    obtain rfl := Option.some.inj hvss
    refine ⟨List.forall_mem_cons.2 ⟨(collectExprVars_spec hvs).1, (ih vss hvss').1⟩, fun v => ?_⟩
    rw [List.flatten_cons, List.mem_append, (collectExprVars_spec hvs).2 v, (ih vss hvss').2 v,
      List.exists_mem_cons_iff]

/-- Flattening conjunctions keeps the variables. -/
theorem flattenLoop_vars {n : ℕ} {pending conjuncts cs : List ChcExpr}
    (h : flattenLoop n pending conjuncts = some cs) (v : ChcVar) :
    (∃ c ∈ cs, v ∈ c.vars) ↔
      (∃ e ∈ pending, v ∈ e.vars) ∨ ∃ c ∈ conjuncts, v ∈ c.vars := by
  induction n generalizing pending conjuncts with
  | zero =>
    cases pending with
    | nil =>
      obtain rfl := Option.some.inj h
      simp
    | cons e pending => cases h
  | succ n ih =>
    cases pending with
    | nil =>
      obtain rfl := Option.some.inj h
      simp
    | cons e pending =>
      unfold flattenLoop at h
      split_ifs at h
      split at h
      · simp only [ih h, List.mem_append, List.mem_reverse, or_and_right, exists_or,
          List.exists_mem_cons_iff, ChcExpr.vars, ChcExpr.mem_varsList]
      · simp only [ih h, List.mem_append, or_and_right, exists_or, List.exists_mem_cons_iff,
          List.not_mem_nil, false_and, exists_false, or_false]
        rw [← or_assoc, or_comm, ← or_assoc]

/-! ### Lawful readings -/

/-- What the gate relies on: a term's value depends on its variables only, the parts of a
conjunction hold with it, and the sides of an equality that holds have one value. -/
structure Reading.Lawful (M : Reading) : Prop where
  /-- A term of known shapes has its value by that of its variables. -/
  eval_congr : ∀ e : ChcExpr, e.recognized = true → ∀ ρ ρ',
    (∀ v ∈ e.vars, M.eval (.var v) ρ = M.eval (.var v) ρ') → M.eval e ρ = M.eval e ρ'
  /-- The parts of a conjunction. -/
  holds_and : ∀ args ρ, M.Holds (.op .and args) ρ → ∀ a ∈ args, M.Holds a ρ
  /-- The sides of an equality. -/
  holds_eq : ∀ lhs rhs ρ, M.Holds (.op .eq [lhs, rhs]) ρ → M.eval lhs ρ = M.eval rhs ρ

section Determined

variable {M : Reading}

/-- The top-level conjuncts hold with the constraint. -/
theorem holds_of_flattenLoop (hM : M.Lawful) {n : ℕ} {pending conjuncts cs : List ChcExpr}
    {ρ : M.Env} (h : flattenLoop n pending conjuncts = some cs)
    (hpending : ∀ e ∈ pending, M.Holds e ρ) (hconjuncts : ∀ c ∈ conjuncts, M.Holds c ρ) :
    ∀ c ∈ cs, M.Holds c ρ := by
  induction n generalizing pending conjuncts with
  | zero =>
    cases pending with
    | nil =>
      obtain rfl := Option.some.inj h
      exact hconjuncts
    | cons e pending => cases h
  | succ n ih =>
    cases pending with
    | nil =>
      obtain rfl := Option.some.inj h
      exact hconjuncts
    | cons e pending =>
      obtain ⟨he, hrest⟩ := List.forall_mem_cons.1 hpending
      unfold flattenLoop at h
      split_ifs at h
      split at h
      · refine ih h (fun a ha => ?_) hconjuncts
        rcases List.mem_append.1 ha with ha | ha
        · exact hM.holds_and _ _ he a (List.mem_reverse.1 ha)
        · exact hrest a ha
      · refine ih h hrest fun c hc => ?_
        rcases List.mem_append.1 hc with hc | hc
        · exact hconjuncts c hc
        · exact (List.mem_singleton.1 hc) ▸ he

/-- The assignments give the variable one value. -/
def Agree (ρ ρ' : M.Env) (v : ChcVar) : Prop := M.eval (.var v) ρ = M.eval (.var v) ρ'

variable {ρ ρ' : M.Env}

/-- Agreement passes along one orientation of an equality. -/
theorem agree_groundSide (hM : M.Lawful) {grounded grounded' : List ChcVar}
    {varSide defSide : ChcExpr} (hρ : M.eval varSide ρ = M.eval defSide ρ)
    (hρ' : M.eval varSide ρ' = M.eval defSide ρ')
    (h : groundSide grounded varSide defSide = some grounded')
    (hagree : ∀ v ∈ grounded, Agree ρ ρ' v) : ∀ v ∈ grounded', Agree ρ ρ' v := by
  unfold groundSide at h
  split at h
  · rename_i v
    split at h
    · obtain rfl := Option.some.inj h
      exact hagree
    · obtain ⟨defVars, hvars, rfl⟩ := Option.map_eq_some_iff.1 h
      obtain ⟨hrec, hspec⟩ := collectExprVars_spec hvars
      split_ifs with hdef
      · intro w hw
        rcases List.mem_append.1 hw with hw | hw
        · exact hagree w hw
        · -- the new variable has the value of its definition, whose variables are known
          obtain rfl := List.mem_singleton.1 hw
          have hvalue : M.eval defSide ρ = M.eval defSide ρ' :=
            hM.eval_congr _ hrec _ _ fun u hu => hagree u (hdef u ((hspec u).2 hu))
          exact hρ.trans (hvalue.trans hρ'.symm)
      · exact hagree
  · obtain rfl := Option.some.inj h
    exact hagree

theorem agree_groundConjunct (hM : M.Lawful) {grounded grounded' : List ChcVar}
    {conjunct : ChcExpr} (hρ : M.Holds conjunct ρ) (hρ' : M.Holds conjunct ρ')
    (h : groundConjunct grounded conjunct = some grounded')
    (hagree : ∀ v ∈ grounded, Agree ρ ρ' v) : ∀ v ∈ grounded', Agree ρ ρ' v := by
  unfold groundConjunct at h
  split at h
  · obtain ⟨g, hg, h⟩ := Option.bind_eq_some_iff.1 h
    have heq := hM.holds_eq _ _ _ hρ
    have heq' := hM.holds_eq _ _ _ hρ'
    exact agree_groundSide hM heq.symm heq'.symm h (agree_groundSide hM heq heq' hg hagree)
  · obtain rfl := Option.some.inj h
    exact hagree

theorem agree_groundRound (hM : M.Lawful) {conjuncts : List ChcExpr}
    {grounded grounded' : List ChcVar} (hρ : ∀ c ∈ conjuncts, M.Holds c ρ)
    (hρ' : ∀ c ∈ conjuncts, M.Holds c ρ') (h : groundRound conjuncts grounded = some grounded')
    (hagree : ∀ v ∈ grounded, Agree ρ ρ' v) : ∀ v ∈ grounded', Agree ρ ρ' v := by
  unfold groundRound at h
  induction conjuncts generalizing grounded with
  | nil =>
    obtain rfl := Option.some.inj h
    exact hagree
  | cons c conjuncts ih =>
    rw [List.foldlM_cons] at h
    obtain ⟨g, hg, h⟩ := Option.bind_eq_some_iff.1 h
    obtain ⟨hc, hcs⟩ := List.forall_mem_cons.1 hρ
    obtain ⟨hc', hcs'⟩ := List.forall_mem_cons.1 hρ'
    exact ih hcs hcs' h (agree_groundConjunct hM hc hc' hg hagree)

/-- **The grounding fixpoint keeps agreement**: assignments that satisfy the conjuncts and agree
on the seed agree on every grounded variable. -/
theorem agree_groundVars (hM : M.Lawful) {conjuncts : List ChcExpr} {seed grounded : List ChcVar}
    (hρ : ∀ c ∈ conjuncts, M.Holds c ρ) (hρ' : ∀ c ∈ conjuncts, M.Holds c ρ')
    (h : groundVars conjuncts seed = some grounded) (hagree : ∀ v ∈ seed, Agree ρ ρ' v) :
    ∀ v ∈ grounded, Agree ρ ρ' v := by
  unfold groundVars at h
  refine untilStable_induction
    (P := fun known => ∀ g, known = some g → ∀ v ∈ g, Agree ρ ρ' v) ?_ ?_ _ h
  · intro known hknown g hg
    obtain ⟨g', rfl, hg⟩ := Option.bind_eq_some_iff.1 hg
    exact agree_groundRound hM hρ hρ' hg (hknown g' rfl)
  · rintro g hg
    obtain rfl := Option.some.inj hg
    exact hagree

/-! ### Clauses -/

/-- The arguments of a clause's body predicates. -/
def HornClause.bodyArgs (c : HornClause) : List ChcExpr := c.body.predicates.flatMap Prod.snd

/-- The variables of a clause. -/
def HornClause.vars (c : HornClause) : List ChcVar :=
  ChcExpr.varsList (c.body.constraint.toList ++ c.bodyArgs ++ c.head.args)

/-- Two assignments satisfy the clause's constraint and read its body as the same premises. -/
structure HornClause.SamePremise (c : HornClause) (ρ ρ' : M.Env) : Prop where
  /-- The constraint holds under the one. -/
  left : ∀ e ∈ c.body.constraint, M.Holds e ρ
  /-- The constraint holds under the other. -/
  right : ∀ e ∈ c.body.constraint, M.Holds e ρ'
  /-- The premises are the same. -/
  premise : c.body.predicates.map (appFact ρ) = c.body.predicates.map (appFact ρ')

variable (M) in
/-- The premise and the constraint determine every variable of the clause, and its head. -/
def HornClause.Determined (c : HornClause) : Prop :=
  ∀ ρ ρ' : M.Env, c.SamePremise ρ ρ' →
    (∀ v ∈ c.vars, Agree ρ ρ' v) ∧ ∀ e ∈ c.head.args, M.eval e ρ = M.eval e ρ'

variable (M) in
/-- The premise and the constraint determine the variables of the body arguments that are not
variables themselves. -/
def HornClause.CompoundDetermined (c : HornClause) : Prop :=
  ∀ ρ ρ' : M.Env, c.SamePremise ρ ρ' →
    ∀ e ∈ c.bodyArgs, (∀ v, e ≠ .var v) → ∀ v ∈ e.vars, Agree ρ ρ' v

/-- The same premises give every body argument one value. -/
theorem HornClause.SamePremise.bodyArgs {c : HornClause} (h : c.SamePremise ρ ρ') :
    ∀ e ∈ c.bodyArgs, M.eval e ρ = M.eval e ρ' := by
  intro e he
  obtain ⟨app, happ, he⟩ := List.mem_flatMap.1 he
  have hfact := List.map_inj_left.1 h.premise app happ
  simp only [appFact, Option.some.injEq, Prod.mk.injEq, true_and] at hfact
  exact List.map_inj_left.1 hfact e he

/-- The parts of the gate's check of a clause. -/
theorem exists_of_grounded {c : HornClause} (h : clauseIsGroundedForRefutation c = true) :
    ∃ seed conjuncts grounded clauseVars, collectAll c.bodyArgs = some seed ∧
      topConjuncts c.body.constraint = some conjuncts ∧
      groundVars conjuncts seed = some grounded ∧
      collectAll (conjuncts ++ c.head.args) = some clauseVars ∧
      ∀ v ∈ clauseVars, v ∈ grounded := by
  unfold clauseIsGroundedForRefutation at h
  split_ifs at h
  cases hresult : (do
      let seed ← collectAll (c.body.predicates.flatMap Prod.snd)
      let conjuncts ← topConjuncts c.body.constraint
      let grounded ← groundVars conjuncts seed
      let clauseVars ← collectAll (conjuncts ++ c.head.args)
      return decide (∀ v ∈ clauseVars, v ∈ grounded)) with
  | none =>
    rw [hresult] at h
    cases h
  | some accepted =>
    rw [hresult, Option.getD_some] at h
    obtain ⟨seed, hseed, hresult⟩ := Option.bind_eq_some_iff.1 hresult
    obtain ⟨conjuncts, hconjuncts, hresult⟩ := Option.bind_eq_some_iff.1 hresult
    obtain ⟨grounded, hgrounded, hresult⟩ := Option.bind_eq_some_iff.1 hresult
    obtain ⟨clauseVars, hvars, hresult⟩ := Option.bind_eq_some_iff.1 hresult
    refine ⟨seed, conjuncts, grounded, clauseVars, hseed, hconjuncts, hgrounded, hvars, ?_⟩
    exact of_decide_eq_true ((Option.some.inj hresult).trans h)

/-- If the premise determines the variables of the compound arguments, it determines those of
an accepted clause. -/
theorem HornClause.determined_of_grounded (hM : M.Lawful) {c : HornClause}
    (h : clauseIsGroundedForRefutation c = true) (hc : c.CompoundDetermined M) :
    c.Determined M := by
  intro ρ ρ' hsame
  obtain ⟨seed, conjuncts, grounded, clauseVars, hseed, hconjuncts, hgrounded, hvars, hall⟩ :=
    exists_of_grounded h
  have hbody : ∀ e ∈ c.bodyArgs, ∀ v ∈ e.vars, Agree ρ ρ' v := by
    intro e he v hv
    by_cases hplain : ∃ w, e = .var w
    · obtain ⟨w, rfl⟩ := hplain
      obtain rfl : v = w := by simpa [ChcExpr.vars] using hv
      exact hsame.bodyArgs _ he
    · exact hc ρ ρ' hsame e he (not_exists.1 hplain) v hv
  have hagree : ∀ v ∈ grounded, Agree ρ ρ' v := by
    refine agree_groundVars hM
      (holds_of_flattenLoop hM hconjuncts (fun e he => hsame.left e (by simpa using he)) (by simp))
      (holds_of_flattenLoop hM hconjuncts (fun e he => hsame.right e (by simpa using he))
        (by simp))
      hgrounded fun v hv => ?_
    obtain ⟨e, he, hv⟩ := ((collectAll_spec hseed).2 v).1 hv
    exact hbody e he v hv
  obtain ⟨hrec, hspec⟩ := collectAll_spec hvars
  have hclause : ∀ e ∈ conjuncts ++ c.head.args, ∀ v ∈ e.vars, Agree ρ ρ' v :=
    fun e he v hv => hagree v (hall v ((hspec v).2 ⟨e, he, hv⟩))
  constructor
  · intro v hv
    obtain ⟨e, he, hv⟩ := ChcExpr.mem_varsList.1 hv
    simp only [List.append_assoc, List.mem_append] at he
    rcases he with he | he | he
    · -- the conjuncts have the variables of the constraint
      obtain ⟨e', he', hv⟩ := (flattenLoop_vars hconjuncts v).2 (.inl ⟨e, he, hv⟩)
      exact hclause e' (List.mem_append_left _ he') v hv
    · exact hbody e he v hv
    · exact hclause e (List.mem_append_right _ he) v hv
  · intro e he
    have he' := List.mem_append_right conjuncts he
    exact hM.eval_congr e (hrec e he') ρ ρ' (hclause e he')

/-- Arguments that are variables or have none leave nothing to determine. -/
theorem HornClause.compoundDetermined_of_plain {c : HornClause}
    (h : ∀ e ∈ c.bodyArgs, (∃ v, e = .var v) ∨ e.vars = []) : c.CompoundDetermined M := by
  intro ρ ρ' _ e he hne v hv
  rcases h e he with ⟨w, rfl⟩ | hnil
  · exact absurd rfl (hne w)
  · rw [hnil] at hv
    exact absurd hv List.not_mem_nil

theorem HornClause.Determined.compound {c : HornClause} (h : c.Determined M) :
    c.CompoundDetermined M := by
  intro ρ ρ' hsame e he _ v hv
  refine (h ρ ρ' hsame).1 v (ChcExpr.mem_varsList.2 ⟨e, ?_, hv⟩)
  exact List.mem_append_left _ (List.mem_append_right _ he)

/-! ### Derivations -/

/-- The clause derives `f` from the optional premise `p` under the assignment. -/
structure HornClause.FiresUnder (c : HornClause) (ρ : M.Env) (p : Option (ChcFact M))
    (f : ChcFact M) : Prop where
  /-- The body is the premise. -/
  body : c.body.predicates.map (appFact ρ) = p.toList
  /-- The constraint holds. -/
  constraint : ∀ e ∈ c.body.constraint, M.Holds e ρ
  /-- The head is the conclusion. -/
  head : c.head.Fact ρ f

/-- A derivation along clauses, each with an assignment of its variables, the last one first. -/
inductive ChcProblem.Run (problem : ChcProblem) :
    List (HornClause × M.Env) → ChcFact M → Prop
  | entry {c : HornClause} {ρ : M.Env} {f : ChcFact M} (hc : c ∈ problem.clauses)
      (hf : c.FiresUnder ρ none f) : Run problem [(c, ρ)] f
  | step {steps : List (HornClause × M.Env)} {g : ChcFact M} {c : HornClause} {ρ : M.Env}
      {f : ChcFact M} (hrun : Run problem steps g) (hc : c ∈ problem.clauses)
      (hf : c.FiresUnder ρ (some g) f) : Run problem ((c, ρ) :: steps) f

/-- Assignments of one clause agree on its variables. -/
def AgreeOn (s s' : HornClause × M.Env) : Prop := ∀ v ∈ s.1.vars, Agree s.2 s'.2 v

variable (M) in
/-- A derivation along given clauses is determined by the assignment of its entry. -/
def ChcProblem.RunsDetermined (problem : ChcProblem) : Prop :=
  ∀ (steps steps' : List (HornClause × M.Env)) (f f' : ChcFact M),
    problem.Run steps f → problem.Run steps' f' → steps.map Prod.fst = steps'.map Prod.fst →
    (∀ s ∈ steps.getLast?, ∀ s' ∈ steps'.getLast?, AgreeOn s s') →
    f = f' ∧ List.Forall₂ AgreeOn steps steps'

theorem ChcProblem.Run.ne_nil {problem : ChcProblem} {steps : List (HornClause × M.Env)}
    {f : ChcFact M} (h : problem.Run steps f) : steps ≠ [] := by
  cases h <;> exact List.cons_ne_nil _ _

/-- Equal arguments make equal heads. -/
theorem ClauseHead.Fact.eq_of_args {head : ClauseHead} {f f' : ChcFact M}
    (h : head.Fact ρ f) (h' : head.Fact ρ' f')
    (hargs : ∀ e ∈ head.args, M.eval e ρ = M.eval e ρ') : f = f' := by
  cases h with
  | false => exact (ClauseHead.fact_false.1 h').symm
  | predicate id args =>
    have hmap : args.map (M.eval · ρ) = args.map (M.eval · ρ') := List.map_inj_left.2 hargs
    rw [ClauseHead.fact_predicate.1 h']
    exact congrArg (fun vals => some (id, vals)) hmap

/-- An accepted problem has one entry fact, whose terms have known shapes. -/
theorem entry_of_grounded {problem : ChcProblem}
    (h : problemIsGroundedForRefutation problem = true) :
    (∀ c ∈ problem.clauses, c.body.predicates = [] →
        ∀ e ∈ c.head.args, e.recognized = true) ∧
      ∀ c ∈ problem.clauses, c.body.predicates ≠ [] →
        clauseIsGroundedForRefutation c = true := by
  unfold problemIsGroundedForRefutation at h
  split at h
  · rename_i entryFact hentry
    split at h
    · rename_i entryPredicate entryArgs hhead
      simp only [Bool.and_eq_true] at h
      obtain ⟨⟨-, hsome⟩, hall⟩ := h
      constructor
      · intro c hc hnil e he
        have hmem : c ∈ problem.clauses.filter fun clause => clause.body.predicates.isEmpty :=
          List.mem_filter.2 ⟨hc, by rw [hnil]; rfl⟩
        rw [hentry] at hmem
        obtain rfl := List.mem_singleton.1 hmem
        obtain ⟨vs, hvs⟩ := Option.isSome_iff_exists.1 hsome
        rw [hhead] at he
        exact (collectAll_spec hvs).1 e (List.mem_append_right _ he)
      · intro c hc hne
        exact List.all_eq_true.1 hall c (List.mem_filter.2 ⟨hc, by simpa using hne⟩)
    · cases h
  · cases h

/-- **Runs**: where every clause with a body is determined by its premise, a derivation is
determined by the assignment of its entry. -/
theorem ChcProblem.runsDetermined_of_determined (hM : M.Lawful) {problem : ChcProblem}
    (hentry : ∀ c ∈ problem.clauses, c.body.predicates = [] →
      ∀ e ∈ c.head.args, e.recognized = true)
    (hclause : ∀ c ∈ problem.clauses, c.body.predicates ≠ [] → c.Determined M) :
    problem.RunsDetermined M := by
  intro steps steps' f f' hrun
  induction hrun generalizing steps' f' with
  | @entry c ρ f hc hf =>
    intro hrun' hsame hagree
    cases hrun' with
    | @entry c' ρ' _ _ hf' =>
      obtain rfl : c = c' := by simpa using hsame
      have hon : AgreeOn (c, ρ) (c, ρ') := hagree _ rfl _ rfl
      have hnil : c.body.predicates = [] := List.map_eq_nil_iff.1 hf.body
      refine ⟨hf.head.eq_of_args hf'.head fun e he => ?_, .cons hon .nil⟩
      refine hM.eval_congr e (hentry c hc hnil e he) _ _ fun v hv => hon v ?_
      exact ChcExpr.mem_varsList.2 ⟨e, List.mem_append_right _ he, hv⟩
    | @step t g c' ρ' _ hrun'' _ _ =>
      have hnil : t = [] := by simpa using (List.cons.inj hsame).2.symm
      exact absurd hnil hrun''.ne_nil
  | @step t g c ρ f hrun hc hf ih =>
    intro hrun' hsame hagree
    cases hrun' with
    | entry hc' hf' =>
      have hnil : t = [] := by simpa using (List.cons.inj hsame).2
      exact absurd hnil hrun.ne_nil
    | @step t' g' c' ρ' _ hrun'' hc' hf' =>
      obtain ⟨rfl, htail⟩ := List.cons.inj hsame
      rw [List.getLast?_cons_of_ne_nil hrun.ne_nil,
        List.getLast?_cons_of_ne_nil hrun''.ne_nil] at hagree
      obtain ⟨rfl, hsteps⟩ := ih _ _ hrun'' htail hagree
      -- the premises are the same, so the clause is determined
      have hpremise : c.SamePremise ρ ρ' :=
        ⟨hf.constraint, hf'.constraint, hf.body.trans hf'.body.symm⟩
      have hne : c.body.predicates ≠ [] := by
        intro hnil
        have hbody := hf.body
        rw [hnil] at hbody
        cases hbody
      obtain ⟨hvars, hargs⟩ := hclause c hc hne ρ ρ' hpremise
      exact ⟨hf.head.eq_of_args hf'.head hargs, .cons hvars hsteps⟩

/-- **The grounding gate admits no havoc exactly up to compound arguments**: the premises
determine the clauses of an accepted problem, and the entry its derivations, if and only if the
premise of each clause determines the variables of its compound body arguments. -/
theorem grounded_determined_iff (hM : M.Lawful) {problem : ChcProblem}
    (h : problemIsGroundedForRefutation problem = true) :
    ((∀ c ∈ problem.clauses, c.body.predicates ≠ [] → c.Determined M) ∧
        problem.RunsDetermined M) ↔
      ∀ c ∈ problem.clauses, c.body.predicates ≠ [] → c.CompoundDetermined M := by
  obtain ⟨hentry, hgrounded⟩ := entry_of_grounded h
  constructor
  · intro hdet c hc hne
    exact (hdet.1 c hc hne).compound
  · intro hcompound
    have hdet : ∀ c ∈ problem.clauses, c.body.predicates ≠ [] → c.Determined M :=
      fun c hc hne => c.determined_of_grounded hM (hgrounded c hc hne) (hcompound c hc hne)
    exact ⟨hdet, problem.runsDetermined_of_determined hM hentry hdet⟩

end Determined

/-! ### Integer terms -/

/-- The integer operations, with 1 for what is true. -/
def intOp : ChcOp → List ℤ → ℤ
  | .and, args => if ∀ a ∈ args, a = 1 then 1 else 0
  | .eq, [a, b] => if a = b then 1 else 0
  | .eq, _ => 0
  | .add, args => args.sum
  | _, _ => 0

mutual

/-- The value of an integer term. -/
def ChcExpr.intEval (ρ : ChcVar → ℤ) : ChcExpr → ℤ
  | .bool b => if b then 1 else 0
  | .int z => z
  | .var v => ρ v
  | .op o args => intOp o (intEvalList ρ args)
  | _ => 0

/-- The values of integer terms. -/
def ChcExpr.intEvalList (ρ : ChcVar → ℤ) : List ChcExpr → List ℤ
  | [] => []
  | e :: es => e.intEval ρ :: intEvalList ρ es

end

theorem ChcExpr.mem_intEvalList {ρ : ChcVar → ℤ} {e : ChcExpr} {es : List ChcExpr}
    (h : e ∈ es) : e.intEval ρ ∈ ChcExpr.intEvalList ρ es := by
  induction es with
  | nil => exact absurd h List.not_mem_nil
  | cons e' es ih =>
    rw [ChcExpr.intEvalList]
    rcases List.mem_cons.1 h with rfl | h
    · exact List.mem_cons_self
    · exact List.mem_cons_of_mem _ (ih h)

/-- The reading of integer terms with sums. -/
def sumReading : Reading where
  Val := ℤ
  Env := ChcVar → ℤ
  eval e ρ := e.intEval ρ
  Holds e ρ := e.intEval ρ = 1

mutual

theorem ChcExpr.intEval_congr {ρ ρ' : ChcVar → ℤ} :
    ∀ e : ChcExpr, (∀ v ∈ e.vars, ρ v = ρ' v) → e.intEval ρ = e.intEval ρ'
  | .var v, h => by
    rw [ChcExpr.intEval, ChcExpr.intEval]
    exact h v (by simp [ChcExpr.vars])
  | .op o args, h => by rw [ChcExpr.intEval, ChcExpr.intEval, intEvalList_congr args h]
  | .bool _, _ | .int _, _ | .real _ _, _ | .bitVec _ _, _ | .predicateApp _ _ _, _
  | .funcApp _ _ _, _ | .constArrayMarker _, _ | .isTesterMarker _, _ | .constArray _ _, _
  | .unrecognized, _ => rfl

theorem ChcExpr.intEvalList_congr {ρ ρ' : ChcVar → ℤ} :
    ∀ es : List ChcExpr, (∀ v ∈ ChcExpr.varsList es, ρ v = ρ' v) →
      ChcExpr.intEvalList ρ es = ChcExpr.intEvalList ρ' es
  | [], _ => rfl
  | e :: es, h => by
    rw [ChcExpr.intEvalList, ChcExpr.intEvalList,
      intEval_congr e fun v hv => h v (List.mem_append_left _ hv),
      intEvalList_congr es fun v hv => h v (List.mem_append_right _ hv)]

end

theorem of_intOp_and {args : List ℤ} (h : intOp .and args = 1) : ∀ a ∈ args, a = 1 := by
  by_contra hne
  rw [intOp, if_neg hne] at h
  cases h

theorem of_intOp_eq {a b : ℤ} (h : intOp .eq [a, b] = 1) : a = b := by
  by_contra hne
  rw [intOp, if_neg hne] at h
  cases h

theorem sumReading_lawful : sumReading.Lawful where
  eval_congr e _ _ _ h := e.intEval_congr h
  holds_and _ _ h _ ha := of_intOp_and h _ (ChcExpr.mem_intEvalList ha)
  holds_eq _ _ _ h := of_intOp_eq h

/-- An integer variable. -/
def intVar (name : String) : ChcExpr := .var ⟨name, .int⟩

/-- `P(x)` for any `x`, `P(arg) → Q(x)` and `Q(x) → false`. -/
def carryProblem (arg : ChcExpr) : ChcProblem where
  predicates := [⟨"P", [.int]⟩, ⟨"Q", [.int]⟩]
  clauses := [⟨⟨[], none⟩, .predicate 0 [intVar "x"]⟩,
    ⟨⟨[(0, [arg])], none⟩, .predicate 1 [intVar "x"]⟩,
    ⟨⟨[(1, [intVar "x"])], none⟩, .false⟩]
  isFixedpointFormat := false
  hasStrippedBodyForall := false
  datatypeDefs := []
  hasActionDecomposition := false
  names_nodup := by decide

/-- A derivation along clauses that carry the variable is determined by its entry. -/
theorem grounded_determined_iff_carry :
    (∀ c ∈ (carryProblem (intVar "x")).clauses, c.body.predicates ≠ [] →
        c.Determined sumReading) ∧
      (carryProblem (intVar "x")).RunsDetermined sumReading := by
  refine (grounded_determined_iff sumReading_lawful (by decide +kernel)).2 fun c hc _ => ?_
  refine HornClause.compoundDetermined_of_plain fun e he => .inl ?_
  simp only [carryProblem, List.mem_cons, List.not_mem_nil, or_false] at hc
  rcases hc with rfl | rfl | rfl
  · exact absurd he List.not_mem_nil
  · exact ⟨_, List.mem_singleton.1 he⟩
  · exact ⟨_, List.mem_singleton.1 he⟩

/-- `P(x + y) → Q(x)`: the gate accepts the sum, and it does not determine `x`. -/
theorem sum_not_determined :
    problemIsGroundedForRefutation
        (carryProblem (.op .add [intVar "x", intVar "y"])) = true ∧
      ¬ ∀ c ∈ (carryProblem (.op .add [intVar "x", intVar "y"])).clauses,
        c.body.predicates ≠ [] → c.Determined sumReading := by
  refine ⟨by decide +kernel, fun h => ?_⟩
  have hdet := h _ (.tail _ (.head _)) (List.cons_ne_nil _ _)
  -- 0 + 1 and 1 + 0
  have hboth := hdet (fun v => if v.name = "x" then 0 else 1)
    (fun v => if v.name = "x" then 1 else 0) ⟨by simp, by simp, rfl⟩
  have hx : (0 : ℤ) = 1 := hboth.1 ⟨"x", .int⟩ (by decide +kernel)
  exact absurd hx (by decide)

end Native

end TrustMc
