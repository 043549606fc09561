import TrustMc.DeadVars.Prune
import TrustMc.Smt.Define

/-!
# Pruning dead variables is exact

`pruneDeadVarsAndConstraints` leaves every relation's derivable facts as they are.

* **False rules** never fire (`not_holds_of_falseConjunct`).
* **Definitions** of variables that occur once can all be met again after the other constraints
  (`fires_stripRule_iff`): they are sequential.
* **Rounds** delete a constraint each until none is left to delete (`stripRound_stripRounds`).
* `pruneDeadVarsAndConstraints_exact`: with these, what is derived, the cover assertions, the
  protected rules and the declarations that are needed.
-/

namespace TrustMc

namespace DeadVars

open Budget ConstProp TrustMc.Expr Carriers Carriers.Val

variable {T : Theory}

/-! ### Rules with a false conjunct -/

theorem anyContainsFalseConjunct_iff {es : List Expr} :
    anyContainsFalseConjunct es = true ↔
      ∃ e ∈ es, constraintContainsFalseConjunct e = true := by
  induction es with
  | nil => simp [anyContainsFalseConjunct]
  | cons e es ih => simp [anyContainsFalseConjunct, ih]

/-- A term with a false conjunct does not hold. -/
theorem not_holds_of_falseConjunct {e : Expr} (h : constraintContainsFalseConjunct e = true)
    (ρ : T.Env) : ¬ Holds ρ e := by
  induction e with
  | var n s => cases h
  | app op args ih =>
    cases op
    case boolConst b =>
      obtain rfl : b = false := by simpa [constraintContainsFalseConjunct] using h
      simp [Holds, Op.interp]
    case and =>
      rw [constraintContainsFalseConjunct, anyContainsFalseConjunct_iff] at h
      obtain ⟨e, he, h⟩ := h
      exact fun hall => ih e he h (holds_and.1 hall e he)
    all_goals cases h
  | quant q vs b _ => cases h

/-- The literal false does not hold. -/
theorem derives_pruneTriviallyFalseRules {rules : List Rule} {f : Fact T} :
    Derives T (pruneTriviallyFalseRules rules) f ↔ Derives T rules f := by
  constructor
  · refine Horn.System.Derivable.mono ?_
    rintro p f ⟨r, hr, hfires⟩
    exact ⟨r, (List.mem_filter.1 hr).1, hfires⟩
  · refine Horn.System.Derivable.mono ?_
    rintro p f ⟨r, hr, ρ, hp, hc, hf⟩
    refine ⟨r, List.mem_filter.2 ⟨hr, ?_⟩, ρ, hp, hc, hf⟩
    split_ifs
    · rfl
    · rw [Bool.not_eq_true', List.any_eq_false]
      intro c hcm hfalse
      exact not_holds_of_falseConjunct hfalse ρ (hc c hcm)

/-! ### Definitions -/

/-- The only constraint that mentions a variable is the one at hand. -/
theorem eq_of_occurs {cs : List Expr} {x : String} (h : occurs cs x = 1) {c c' : Expr}
    (hc : c ∈ cs) (hc' : c' ∈ cs) (hx : x ∈ c.varNames) (hx' : x ∈ c'.varNames) : c = c' := by
  obtain ⟨a, ha⟩ := List.length_eq_one_iff.1 h
  have hmem : ∀ d ∈ cs, x ∈ d.varNames → d = a := by
    intro d hd hxd
    have : d ∈ cs.filter fun c => decide (x ∈ c.varNames) :=
      List.mem_filter.2 ⟨hd, decide_eq_true hxd⟩
    rw [ha] at this
    exact List.mem_singleton.1 this
  rw [hmem c hc hx, hmem c' hc' hx']

/-- A variable that occurs in one constraint is in none before it. -/
theorem pairwise_occurs (cs : List Expr) :
    cs.Pairwise fun c c' => ∀ x, occurs cs x = 1 → x ∈ c'.varNames → x ∉ c.varNames := by
  refine List.pairwise_iff_forall_sublist.2 fun {c c'} hsub x h hx' hx => ?_
  have hboth : [c, c'].filter (fun c => decide (x ∈ c.varNames)) = [c, c'] := by simp [hx, hx']
  have hle := (hsub.filter fun c => decide (x ∈ c.varNames)).length_le
  rw [hboth] at hle
  exact absurd (hle.trans_eq h) (by simp)

/-- What a deleted constraint defines. -/
structure Defines (cs : List Expr) (c : Expr) (d : Definition) : Prop where
  /-- The constraint is the equation, in one order or the other. -/
  eq : c = d.toExpr ∨ c = d.rhs.eq (.var d.name d.sort)
  /-- The other side does not mention the variable. -/
  fresh : d.name ∉ d.rhs.varNames
  /-- No other constraint does. -/
  once : occurs cs d.name = 1

theorem exists_defines {essential : List String} {cs : List Expr} {c : Expr}
    (h : isStrippable essential cs c = true) :
    (∃ d, Defines cs c d) ∧ ∀ x ∈ c.varNames, x ∉ essential := by
  have hside : ∀ lhs rhs : Expr, definesAlone cs lhs rhs = true →
      ∃ x s, lhs = .var x s ∧ x ∉ rhs.varNames ∧ occurs cs x = 1 := by
    intro lhs rhs hdef
    cases lhs with
    | var x s =>
      simp only [definesAlone, Bool.and_eq_true, decide_eq_true_eq, beq_iff_eq] at hdef
      exact ⟨x, s, rfl, hdef⟩
    | app op args => cases hdef
    | quant q vs b => cases hdef
  unfold isStrippable at h
  split_ifs at h with hempty hess
  refine ⟨?_, fun x hx hxe => hess (List.any_eq_true.2 ⟨x, hx, decide_eq_true hxe⟩)⟩
  split at h
  · rename_i lhs rhs
    rcases Bool.or_eq_true_iff.1 h with h | h
    · obtain ⟨x, s, rfl, hfresh, honce⟩ := hside _ _ h
      exact ⟨⟨x, s, rhs⟩, .inl rfl, hfresh, honce⟩
    · obtain ⟨x, s, rfl, hfresh, honce⟩ := hside _ _ h
      exact ⟨⟨x, s, lhs⟩, .inr rfl, hfresh, honce⟩
  · cases h

theorem Defines.name_mem {cs : List Expr} {c : Expr} {d : Definition} (h : Defines cs c d) :
    d.name ∈ c.varNames := by
  rcases h.eq with rfl | rfl <;> simp [Definition.toExpr]

theorem Defines.rhs_subset {cs : List Expr} {c : Expr} {d : Definition} (h : Defines cs c d) :
    d.rhs.varNames ⊆ c.varNames := by
  intro x hx
  rcases h.eq with rfl | rfl <;> simp [Definition.toExpr, hx]

theorem Defines.proper {cs : List Expr} {c : Expr} {d : Definition} (h : Defines cs c d)
    (hc : c.WellSorted) : d.Proper := by
  refine ⟨?_, fun hx => h.fresh (freeVars_subset_varNames _ hx)⟩
  rcases h.eq with rfl | rfl
  · have hacc := (wellSorted_app.1 hc).1
    simp only [Op.accepts, List.map_cons, List.map_nil, sort_var, beq_iff_eq] at hacc
    exact hacc.symm
  · have hacc := (wellSorted_app.1 hc).1
    simpa only [Op.accepts, List.map_cons, List.map_nil, sort_var, beq_iff_eq] using hacc

/-- **Deleted definitions can be met again**: an assignment of the other constraints extends to
one of all constraints that keeps the variables which no deleted constraint defines. -/
theorem exists_holds_of_defines {keep : List String} {cs : List Expr} {deleted : Expr → Bool}
    (hws : ∀ c ∈ cs, c.WellSorted)
    (hdefines : ∀ c ∈ cs, deleted c = true → ∃ d, Defines cs c d ∧ d.name ∉ keep)
    {ρ : T.Env} (hρ : ∀ c ∈ cs, deleted c = false → Holds ρ c) :
    ∃ ρ' : T.Env, (∀ c ∈ cs, Holds ρ' c) ∧ ∀ x ∈ keep, ρ' x = ρ x := by
  have hchoose : ∀ c, ∃ d, c ∈ cs → deleted c = true → Defines cs c d ∧ d.name ∉ keep := by
    intro c
    by_cases hc : c ∈ cs ∧ deleted c = true
    · obtain ⟨d, hd⟩ := hdefines c hc.1 hc.2
      exact ⟨d, fun _ _ => hd⟩
    · exact ⟨⟨"", .bool, c⟩, fun hcm hdel => absurd ⟨hcm, hdel⟩ hc⟩
  choose d hd using hchoose
  let stripped := cs.filter deleted
  have hmem : ∀ c ∈ stripped, c ∈ cs ∧ deleted c = true := fun c hc => List.mem_filter.1 hc
  have hdef : ∀ c ∈ stripped, Defines cs c (d c) ∧ (d c).name ∉ keep :=
    fun c hc => hd c (hmem c hc).1 (hmem c hc).2
  have hseq : Definition.Sequential (stripped.map d) := by
    constructor
    · intro e he
      obtain ⟨c, hc, rfl⟩ := List.mem_map.1 he
      exact (hdef c hc).1.proper (hws c (hmem c hc).1)
    · rw [List.pairwise_map]
      have hpair : stripped.Pairwise _ := (pairwise_occurs cs).sublist List.filter_sublist
      refine hpair.imp_of_mem fun {c c'} hc hc' honce => ?_
      have hnot := honce _ (hdef c' hc').1.once (hdef c' hc').1.name_mem
      exact ⟨fun heq => hnot (heq ▸ (hdef c hc).1.name_mem),
        fun hx => hnot ((hdef c hc).1.rhs_subset (freeVars_subset_varNames _ hx))⟩
  refine ⟨Definition.solve ρ (stripped.map d), fun c hc => ?_, fun x hx => ?_⟩
  · by_cases hstrip : deleted c = true
    · have hcs : c ∈ stripped := List.mem_filter.2 ⟨hc, hstrip⟩
      have hholds := Definition.holds_solve hseq (ρ := ρ) (d c) (List.mem_map_of_mem hcs)
      rcases (hdef c hcs).1.eq with heq | heq
      · rwa [← heq] at hholds
      · rw [heq, holds_eq]
        exact (holds_eq.1 hholds).symm
    · -- no deleted definition sets what another constraint reads
      have hkeep : ∀ e ∈ stripped.map d, e.name ∉ c.freeVars := by
        intro e he hx
        obtain ⟨c', hc', rfl⟩ := List.mem_map.1 he
        obtain rfl := eq_of_occurs (hdef c' hc').1.once hc (hmem c' hc').1
          (freeVars_subset_varNames _ hx) (hdef c' hc').1.name_mem
        exact hstrip (hmem c hc').2
      rw [Holds, Definition.eval_solve hkeep]
      exact hρ c hc (Bool.not_eq_true _ ▸ hstrip)
  · refine Definition.solve_of_notMem fun e he heq => ?_
    obtain ⟨c, hc, rfl⟩ := List.mem_map.1 he
    exact (hdef c hc).2 (heq ▸ hx)

/-- The definitions that `isStrippable` deletes. -/
theorem exists_holds (essential : List String) {cs : List Expr} (hws : ∀ c ∈ cs, c.WellSorted)
    {ρ : T.Env} (hρ : ∀ c ∈ cs, isStrippable essential cs c = false → Holds ρ c) :
    ∃ ρ' : T.Env, (∀ c ∈ cs, Holds ρ' c) ∧ ∀ x ∈ essential, ρ' x = ρ x := by
  refine exists_holds_of_defines hws (fun c _ hstrip => ?_) hρ
  obtain ⟨⟨d, hd⟩, hess⟩ := exists_defines hstrip
  exact ⟨d, hd, hess _ hd.name_mem⟩

/-! ### Rules -/

variable {essential protectedHeads : List String}

@[simp]
theorem apps_stripRule (r : Rule) : (stripRule essential protectedHeads r).apps = r.apps := by
  unfold stripRule
  split_ifs <;> rfl

@[simp]
theorem head_stripRule (r : Rule) : (stripRule essential protectedHeads r).head = r.head := by
  unfold stripRule
  split_ifs <;> rfl

@[simp]
theorem relation_stripRule (r : Rule) :
    (stripRule essential protectedHeads r).body.relation = r.body.relation := by
  unfold stripRule
  split_ifs <;> rfl

/-- No constraint is new. -/
theorem mem_of_mem_stripRule {r : Rule} {c : Expr}
    (h : c ∈ (stripRule essential protectedHeads r).body.constraints) :
    c ∈ r.body.constraints := by
  unfold stripRule at h
  split_ifs at h
  · exact h
  · exact (List.mem_filter.1 h).1

/-- What is kept holds where no constraint that is kept fails. -/
theorem mem_stripRule_of_not_strippable {r : Rule} {c : Expr} (hc : c ∈ r.body.constraints)
    (h : isStrippable essential r.body.constraints c = false) :
    c ∈ (stripRule essential protectedHeads r).body.constraints := by
  unfold stripRule
  split_ifs
  · exact hc
  · exact List.mem_filter.2 ⟨hc, by rw [h]; rfl⟩

theorem wellSorted_stripRule {r : Rule} (h : r.WellSorted) :
    (stripRule essential protectedHeads r).WellSorted := by
  refine ⟨fun e he => h.terms e ?_, fun c hc => h.constraints c (mem_of_mem_stripRule hc)⟩
  rw [Rule.mem_terms, relation_stripRule, head_stripRule] at he
  exact Rule.mem_terms.2 (he.imp_right (Or.imp_left mem_of_mem_stripRule))

/-- An application reads the same fact under assignments that agree on the essential
variables. -/
theorem fact_eq_of_essential {r : Rule} (hess : ∀ x ∈ relationAppVars r, x ∈ essential)
    {a : RelationApp} (ha : a ∈ r.apps) {ρ ρ' : T.Env} (h : ∀ x ∈ essential, ρ' x = ρ x) :
    a.fact ρ' = a.fact ρ := by
  refine Prod.ext rfl (List.map_congr_left fun e he => eval_congr fun x hx => h x (hess x ?_))
  exact List.mem_flatMap.2 ⟨a, ha, List.mem_flatMap.2 ⟨e, he, freeVars_subset_varNames e hx⟩⟩

/-- **A rule keeps its instances** when definitions of variables that are not essential are
deleted from it. -/
theorem fires_stripRule_iff {r : Rule} (hws : r.WellSorted)
    (hess : ∀ x ∈ relationAppVars r, x ∈ essential) {p : Option (Fact T)} {f : Fact T} :
    (stripRule essential protectedHeads r).Fires p f ↔ r.Fires p f := by
  constructor
  · rintro ⟨ρ, hp, hc, hf⟩
    rw [relation_stripRule] at hp
    rw [head_stripRule] at hf
    obtain ⟨ρ', hholds, hagree⟩ := exists_holds essential (ρ := ρ)
      (fun c hc => hws.terms c (Rule.mem_terms.2 (.inr (.inl hc))))
      fun c hcm hstrip => hc c (mem_stripRule_of_not_strippable hcm hstrip)
    refine ⟨ρ', ?_, hholds, ?_⟩
    · rw [← hp]
      refine Option.map_congr fun a ha => fact_eq_of_essential hess ?_ hagree
      exact List.mem_cons_of_mem _ (Option.mem_toList.2 ha)
    · rw [← hf]
      exact fact_eq_of_essential hess List.mem_cons_self hagree
  · rintro ⟨ρ, hp, hc, hf⟩
    refine ⟨ρ, ?_, fun c h => hc c (mem_of_mem_stripRule h), ?_⟩
    · rwa [relation_stripRule]
    · rwa [head_stripRule]

/-! ### Rounds -/

/-- What the rounds preserve of the rules they start from. -/
structure Preserved (T : Theory) (essential protectedHeads : List String)
    (rules rules' : List Rule) : Prop where
  /-- The rules are well sorted. -/
  wellSorted : ∀ r ∈ rules', r.WellSorted
  /-- The variables of the applications are essential. -/
  essential : ∀ r ∈ rules', ∀ x ∈ relationAppVars r, x ∈ essential
  /-- The same facts are derivable. -/
  derives : ∀ f : Fact T, Derives T rules' f ↔ Derives T rules f
  /-- The protected rules are the same. -/
  protect : ∀ r : Rule, r.head.name ∈ protectedHeads → (r ∈ rules' ↔ r ∈ rules)

theorem Preserved.stripRound {rules rules' : List Rule}
    (h : Preserved T essential protectedHeads rules rules') :
    Preserved T essential protectedHeads rules (stripRound essential protectedHeads rules') := by
  refine ⟨fun r' hr' => ?_, fun r' hr' x hx => ?_, fun f => ?_, fun r hr => ?_⟩
  · obtain ⟨r, hr, rfl⟩ := List.mem_map.1 hr'
    exact wellSorted_stripRule (h.wellSorted r hr)
  · obtain ⟨r, hr, rfl⟩ := List.mem_map.1 hr'
    rw [relationAppVars, apps_stripRule] at hx
    exact h.essential r hr x hx
  · rw [← h.derives f]
    have hfires : ∀ p f,
        (system T (DeadVars.stripRound essential protectedHeads rules')).fires p f ↔
          (system T rules').fires p f := by
      intro p f
      constructor
      · rintro ⟨r', hr', hf⟩
        obtain ⟨r, hr, rfl⟩ := List.mem_map.1 hr'
        exact ⟨r, hr, (fires_stripRule_iff (h.wellSorted r hr) (h.essential r hr)).1 hf⟩
      · rintro ⟨r, hr, hf⟩
        exact ⟨_, List.mem_map_of_mem hr,
          (fires_stripRule_iff (h.wellSorted r hr) (h.essential r hr)).2 hf⟩
    exact ⟨.mono fun p f => (hfires p f).1, .mono fun p f => (hfires p f).2⟩
  · rw [← h.protect r hr]
    have hself : ∀ r' : Rule, r'.head.name ∈ protectedHeads →
        stripRule essential protectedHeads r' = r' := fun r' hr' => if_pos hr'
    constructor
    · intro hmem
      obtain ⟨r', hr', rfl⟩ := List.mem_map.1 hmem
      rw [head_stripRule] at hr
      rwa [hself r' hr]
    · exact fun hmem => List.mem_map.2 ⟨r, hmem, hself r hr⟩

/-- What one round preserves, all rounds do. -/
theorem Preserved.stripRounds {rules : List Rule}
    (h : Preserved T essential protectedHeads rules rules) :
    Preserved T essential protectedHeads rules (stripRounds essential protectedHeads rules) :=
  untilStable_induction (fun _ => Preserved.stripRound) h

/-- A rule that changes loses a constraint. -/
theorem length_stripRule_lt {r : Rule} (h : stripRule essential protectedHeads r ≠ r) :
    (stripRule essential protectedHeads r).body.constraints.length <
      r.body.constraints.length := by
  unfold stripRule at h ⊢
  split_ifs at h ⊢ with hprot
  · exact absurd rfl h
  · refine lt_of_le_of_ne (List.length_filter_le _ _) fun hlen => h ?_
    have hself := List.filter_sublist.eq_of_length hlen
    simp only [hself]

/-- No round adds a constraint. -/
theorem length_stripRound_le (rules : List Rule) :
    (allConstraints (stripRound essential protectedHeads rules)).length ≤
      (allConstraints rules).length := by
  induction rules with
  | nil => exact Nat.le_refl _
  | cons r rules ih =>
    simp only [stripRound, allConstraints, List.map_cons, List.flatMap_cons,
      List.length_append] at ih ⊢
    refine Nat.add_le_add ?_ ih
    by_cases hr : stripRule essential protectedHeads r = r
    · rw [hr]
    · exact (length_stripRule_lt hr).le

/-- A round that changes something deletes a constraint. -/
theorem length_stripRound_lt {rules : List Rule}
    (h : stripRound essential protectedHeads rules ≠ rules) :
    (allConstraints (stripRound essential protectedHeads rules)).length <
      (allConstraints rules).length := by
  induction rules with
  | nil => exact absurd rfl h
  | cons r rules ih =>
    have hle : (allConstraints (stripRound essential protectedHeads rules)).length ≤
        (allConstraints rules).length := length_stripRound_le rules
    simp only [stripRound, allConstraints, List.map_cons, List.flatMap_cons,
      List.length_append] at h hle ih ⊢
    by_cases hr : stripRule essential protectedHeads r = r
    · rw [hr] at h ⊢
      exact Nat.add_lt_add_left (ih fun hrest => h (congrArg _ hrest)) _
    · exact Nat.add_lt_add_of_lt_of_le (length_stripRule_lt hr) hle

/-- **The rounds terminate**: after as many rounds as there are constraints, a round deletes
nothing. -/
theorem stripRound_stripRounds (rules : List Rule) :
    stripRound essential protectedHeads (stripRounds essential protectedHeads rules) =
      stripRounds essential protectedHeads rules :=
  untilStable_stable (P := fun _ => True) (fun _ _ => trivial)
    (fun rules => (allConstraints rules).length) (fun _ _ hne => length_stripRound_lt hne) trivial
    (Nat.le_refl _)

/-! ### The pass -/

section Pass

variable (vc : CoverVc)

/-- The verification condition without its false rules. -/
def withoutFalseRules : CoverVc := { vc with rules := pruneTriviallyFalseRules vc.rules }

/-- The rules after the rounds. -/
def roundedRules : List Rule :=
  stripRounds (essentialVars (withoutFalseRules vc)) (collectProtectedHeads (withoutFalseRules vc))
    (withoutFalseRules vc).rules

/-- The pass stops after the false rules, or deletes definitions, copies and declarations. -/
theorem pruneDeadVarsAndConstraints_cases :
    (essentialSeed (withoutFalseRules vc) = [] ∧
        pruneDeadVarsAndConstraints vc = withoutFalseRules vc) ∨
      pruneDeadVarsAndConstraints vc =
        { withoutFalseRules vc with
          vars := vc.vars.filter fun v => v.1 ∈ essentialVars (withoutFalseRules vc) ++
            (roundedRules vc).flatMap constraintVars ++ coverVars vc
          rules := dedupeRules (roundedRules vc) } := by
  unfold pruneDeadVarsAndConstraints
  dsimp only
  split_ifs with hempty
  · exact .inl ⟨List.isEmpty_iff.1 hempty, rfl⟩
  · exact .inr rfl

theorem grows_closeConstraint {cs : List Expr} {c : Expr} (hc : c ∈ cs)
    (essential : List String) :
    Grows (cs.flatMap Expr.varNames) essential (closeConstraint essential c) := by
  unfold closeConstraint
  split_ifs
  · refine ⟨_, rfl, fun x hx => ?_⟩
    obtain ⟨hx, hnew⟩ := List.mem_filter.1 hx
    exact ⟨List.mem_flatMap.2 ⟨c, hc, hx⟩, of_decide_eq_true hnew⟩
  · exact .refl _ _

theorem subset_closeEssentialTransitively (essential : List String) :
    essential ⊆ closeEssentialTransitively vc essential :=
  subset_untilStable (fun ess => .foldl (fun _ hc => grows_closeConstraint hc) ess) _ _

/-- The variables of applications are essential. -/
theorem mem_essentialVars_of_app {r : Rule} (hr : r ∈ vc.rules) {x : String}
    (hx : x ∈ relationAppVars r) : x ∈ essentialVars vc := by
  refine subset_closeEssentialTransitively vc _ ?_
  rw [essentialSeed, List.append_assoc]
  exact List.mem_append_left _ (List.mem_flatMap.2 ⟨r, hr, hx⟩)

variable {vc}

/-- What the rounds of the pass preserve. -/
theorem preserved_roundedRules (T : Theory) (hws : vc.WellSorted) :
    Preserved T (essentialVars (withoutFalseRules vc))
      (collectProtectedHeads (withoutFalseRules vc)) (pruneTriviallyFalseRules vc.rules)
      (roundedRules vc) := by
  refine Preserved.stripRounds ⟨fun r hr => hws r (List.mem_filter.1 hr).1, fun r hr x hx => ?_,
    fun _ => Iff.rfl, fun _ _ => Iff.rfl⟩
  exact mem_essentialVars_of_app (withoutFalseRules vc) hr hx

/-- The constraints that share variables with essential ones add none in the end. -/
theorem closeEssentialTransitively_stable (vc : CoverVc) (essential : List String) :
    (allConstraints vc.rules).foldl closeConstraint (closeEssentialTransitively vc essential) =
      closeEssentialTransitively vc essential :=
  untilStable_stable_of_grows (fun ess => .foldl (fun _ hc => grows_closeConstraint hc) ess)
    (Nat.le_refl _) essential

/-- Rules without constraints have no false conjunct, so the bridges stay. -/
theorem collectProtectedHeads_withoutFalseRules (vc : CoverVc) :
    collectProtectedHeads (withoutFalseRules vc) = collectProtectedHeads vc := by
  have hbridge : bridgeRelations (withoutFalseRules vc) = bridgeRelations vc := by
    unfold bridgeRelations
    refine congrArg (List.filterMap _) ?_
    change ((vc.rules.filter _).filter _) = vc.rules.filter _
    rw [List.filter_filter]
    refine List.filter_congr fun r _ => ?_
    by_cases hnil : r.body.constraints = []
    · simp [hnil, withoutFalseRules, queryTarget]
    · have hempty : r.body.constraints.isEmpty = false := by simpa using hnil
      simp [hempty]
  unfold collectProtectedHeads
  rw [hbridge]
  rfl

/-- The rules of the result are those after the rounds. -/
theorem rules_pruneDeadVarsAndConstraints (T : Theory) (hws : vc.WellSorted) :
    (∀ f : Fact T, Derives T (pruneDeadVarsAndConstraints vc).rules f ↔
        Derives T (pruneTriviallyFalseRules vc.rules) f) ∧
      ∀ r : Rule, r.head.name ∈ collectProtectedHeads vc →
        (r ∈ (pruneDeadVarsAndConstraints vc).rules ↔ r ∈ pruneTriviallyFalseRules vc.rules) := by
  have hpres := preserved_roundedRules T hws
  rw [collectProtectedHeads_withoutFalseRules] at hpres
  rcases pruneDeadVarsAndConstraints_cases vc with ⟨-, heq⟩ | heq
  · rw [heq]
    exact ⟨fun _ => Iff.rfl, fun _ _ => Iff.rfl⟩
  · rw [heq]
    have hmem : ∀ r : Rule, r ∈ dedupeRules (roundedRules vc) ↔ r ∈ roundedRules vc :=
      fun r => List.mem_eraseDups
    refine ⟨fun f => Iff.trans ?_ (hpres.derives f),
      fun r hr => (hmem r).trans (hpres.protect r hr)⟩
    refine ⟨.mono fun p f => ?_, .mono fun p f => ?_⟩
    · rintro ⟨r, hr, hf⟩
      exact ⟨r, (hmem r).1 hr, hf⟩
    · rintro ⟨r, hr, hf⟩
      exact ⟨r, (hmem r).2 hr, hf⟩

/-- A variable that a rule or a cover assertion of the result mentions is still declared. -/
theorem mem_vars_of_referenced (hws : vc.WellSorted) {v : String × SmtSort} (hv : v ∈ vc.vars)
    (href : (∃ r ∈ (pruneDeadVarsAndConstraints vc).rules,
        v.1 ∈ relationAppVars r ∨ v.1 ∈ constraintVars r) ∨
      v.1 ∈ coverVars (pruneDeadVarsAndConstraints vc)) :
    v ∈ (pruneDeadVarsAndConstraints vc).vars := by
  rcases pruneDeadVarsAndConstraints_cases vc with ⟨-, heq⟩ | heq
  · rw [heq]
    exact hv
  · rw [heq] at href ⊢
    refine List.mem_filter.2 ⟨hv, decide_eq_true ?_⟩
    rw [List.append_assoc, List.mem_append, List.mem_append]
    rcases href with ⟨r, hr, happ | hconstraint⟩ | hcover
    · have hr : r ∈ roundedRules vc := List.mem_eraseDups.1 hr
      exact .inl ((preserved_roundedRules default hws).essential r hr _ happ)
    · exact .inr (.inl (List.mem_flatMap.2 ⟨r, List.mem_eraseDups.1 hr, hconstraint⟩))
    · exact .inr (.inr hcover)

/-- **Pruning dead variables and constraints is exact**: the same facts are derivable of every
relation; both loops reach a round that changes nothing; cover assertions stay; a rule with a
protected head stays as it is, unless it has a false conjunct and is no discharge obligation; and
what is still mentioned is still declared. -/
theorem pruneDeadVarsAndConstraints_exact (hws : vc.WellSorted) :
    (∀ (T : Theory) (f : Fact T), Derives T (pruneDeadVarsAndConstraints vc).rules f ↔
        Derives T vc.rules f) ∧
      (∀ T : Theory, (pruneDeadVarsAndConstraints vc).Unsafe T ↔ vc.Unsafe T) ∧
      (∀ essential protectedHeads rules,
        stripRound essential protectedHeads (stripRounds essential protectedHeads rules) =
          stripRounds essential protectedHeads rules) ∧
      (∀ essential, (allConstraints (withoutFalseRules vc).rules).foldl closeConstraint
          (closeEssentialTransitively (withoutFalseRules vc) essential) =
        closeEssentialTransitively (withoutFalseRules vc) essential) ∧
      (pruneDeadVarsAndConstraints vc).coverAssertions = vc.coverAssertions ∧
      (∀ r : Rule, r.head.name ∈ collectProtectedHeads vc →
        (r ∈ (pruneDeadVarsAndConstraints vc).rules ↔ r ∈ vc.rules ∧ (isDischarge r = true ∨
          ∀ c ∈ r.body.constraints, constraintContainsFalseConjunct c = false))) ∧
      ∀ v ∈ vc.vars, ((∃ r ∈ (pruneDeadVarsAndConstraints vc).rules,
          v.1 ∈ relationAppVars r ∨ v.1 ∈ constraintVars r) ∨
        v.1 ∈ coverVars (pruneDeadVarsAndConstraints vc)) →
        v ∈ (pruneDeadVarsAndConstraints vc).vars := by
  have hder : ∀ (T : Theory) (f : Fact T), Derives T (pruneDeadVarsAndConstraints vc).rules f ↔
      Derives T vc.rules f := fun T f =>
    ((rules_pruneDeadVarsAndConstraints T hws).1 f).trans derives_pruneTriviallyFalseRules
  have htarget : (pruneDeadVarsAndConstraints vc).target = vc.target := by
    rcases pruneDeadVarsAndConstraints_cases vc with ⟨-, heq⟩ | heq <;> rw [heq] <;> rfl
  have hcover : (pruneDeadVarsAndConstraints vc).coverAssertions = vc.coverAssertions := by
    rcases pruneDeadVarsAndConstraints_cases vc with ⟨-, heq⟩ | heq <;> rw [heq] <;> rfl
  refine ⟨hder, fun T => ?_, fun _ _ rules => stripRound_stripRounds rules,
    closeEssentialTransitively_stable (withoutFalseRules vc), hcover,
    fun r hr => ?_, fun v hv href => mem_vars_of_referenced hws hv href⟩
  · unfold ChcVc.Unsafe
    simp only [htarget, hder]
  · rw [(rules_pruneDeadVarsAndConstraints default hws).2 r hr, pruneTriviallyFalseRules,
      List.mem_filter]
    refine and_congr_right fun _ => ?_
    split_ifs with hdis
    · exact iff_of_true rfl (.inl hdis)
    · simp [hdis]

end Pass

/-! ### A rule with a false conjunct -/

/-- `R` and `R ∧ false ⇒ error`. -/
def infeasibleVc : CoverVc where
  vars := []
  relations := [⟨"R", []⟩, ⟨"error", []⟩]
  rules := [⟨⟨none, []⟩, .nullary "R"⟩,
    ⟨⟨some (.nullary "R"), [.boolConst false]⟩, .nullary "error"⟩]
  target := some "error"
  triviallySafeDischarged := false
  propertyRelations := []
  coverAssertions := []

theorem wellSorted_infeasibleVc : infeasibleVc.WellSorted := by
  intro r hr
  simp only [infeasibleVc, List.mem_cons, List.not_mem_nil, or_false] at hr
  rcases hr with rfl | rfl
  · exact ⟨by simp [Rule.terms, RelationApp.nullary], by simp⟩
  · exact ⟨by simp [Rule.terms, RelationApp.nullary, Op.accepts], by simp [Op.resultSort]⟩

/-- Nothing is derivable after the pass that was not before, and its rounds end. -/
theorem pruneDeadVarsAndConstraints_exact_infeasible :
    (pruneDeadVarsAndConstraints infeasibleVc).Unsafe (default : Theory) ↔
      infeasibleVc.Unsafe (default : Theory) :=
  (pruneDeadVarsAndConstraints_exact wellSorted_infeasibleVc).2.1 default

/-- A protected rule is not always left untouched: the one with a false conjunct is deleted. -/
theorem infeasible_error_rule_deleted :
    ¬ ∀ vc : CoverVc, vc.WellSorted → ∀ r ∈ vc.rules, r.head.name ∈ collectProtectedHeads vc →
      r ∈ (pruneDeadVarsAndConstraints vc).rules := by
  intro h
  have hmem := h infeasibleVc wellSorted_infeasibleVc
    ⟨⟨some (.nullary "R"), [.boolConst false]⟩, .nullary "error"⟩ (by decide) (by decide)
  exact absurd hmem (by decide +kernel)

end DeadVars

end TrustMc
