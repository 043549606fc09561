import Mathlib.Data.List.Dedup
import TrustMc.Columns.DeadArrayArgs

/-!
# What dropping dead array arguments keeps

* **Declarations**: applications that match the declarations still do, since both lose the
  columns of one mask.
* **Closedness** is kept exactly if no variable that still occurs is named like the pad of a
  dropped column. The name of a pad does not say where the relation's own name ends, so
  `__pad_R_1_2` is the pad of `R_1` and is taken for a pad of `R`.
* **Derivations** of the query are kept; those by steps that the dropped columns do not influence
  are not new. A literal at a dropped column of a body is a test that is lost
  (`pruned_guard_and_pad`).
-/

namespace TrustMc

namespace DeadArrayArgs

open DeadScalars Relations TrustMc.Expr

variable {T : Theory} {vc vc' : ChcVc}

/-! ### Masks -/

theorem length_recordRelationArgs (relName : String) (constraintVars : List String)
    (states : List ClosedArgCandidate) (args : List Expr) :
    (recordRelationArgs relName constraintVars states args).length = states.length := by
  unfold recordRelationArgs
  split_ifs with h
  · exact List.length_map _
  · rw [List.length_mapIdx, List.length_zip, not_not.1 h, min_self]

/-- A mask has the length of the relation's last declaration. -/
theorem length_deadArrayArgMasks {name : String} {mask : List Bool}
    (h : deadArrayArgMasks vc name = some mask) :
    ∃ sorts, relSorts vc.relations name = some sorts ∧ mask.length = sorts.length := by
  obtain ⟨states, hstates, hmask⟩ := Option.bind_eq_some_iff.1 h
  obtain ⟨sorts, hsorts, rfl⟩ := Option.map_eq_some_iff.1 hstates
  refine ⟨sorts, hsorts, ?_⟩
  have hfold : ∀ (argss : List (List Expr)) (states : List ClosedArgCandidate),
      (argss.foldl (recordRelationArgs name (nonRelationConstraintVars vc)) states).length =
        states.length := by
    intro argss
    induction argss with
    | nil => exact fun _ => rfl
    | cons args argss ih => exact fun states => (ih _).trans (length_recordRelationArgs _ _ _ _)
  simp only [Option.ite_none_right_eq_some, Option.some.injEq] at hmask
  rw [← hmask.2, List.length_map, hfold, List.length_map]

/-- A mask drops something. -/
theorem exists_true_of_deadArrayArgMasks {name : String} {mask : List Bool}
    (h : deadArrayArgMasks vc name = some mask) : ∃ idx < mask.length, mask[idx]? = some true := by
  obtain ⟨states, -, hmask⟩ := Option.bind_eq_some_iff.1 h
  simp only [Option.ite_none_right_eq_some, Option.some.injEq] at hmask
  obtain ⟨hany, rfl⟩ := hmask
  obtain ⟨dead, hdead, rfl⟩ := List.any_eq_true.1 hany
  obtain ⟨idx, hidx, hget⟩ := List.mem_iff_getElem.1 hdead
  exact ⟨idx, hidx, by rw [List.getElem?_eq_getElem hidx, hget]⟩

theorem mem_relations_of_relSorts {relations : List RelationDecl} {name : String}
    {sorts : List SmtSort} (h : relSorts relations name = some sorts) :
    ∃ rel ∈ relations, rel.name = name ∧ rel.argSorts = sorts := by
  obtain ⟨rel, hrel, rfl⟩ := Option.map_eq_some_iff.1 h
  exact ⟨rel, List.mem_reverse.1 (List.mem_of_find?_eq_some hrel),
    by simpa using List.find?_some hrel, rfl⟩

/-- A dropped column is a column of a mask. -/
theorem mem_strippedPadSlots {masks : String → Option (List Bool)}
    {relations : List RelationDecl} {name : String} {idx : ℕ} :
    (name, idx) ∈ strippedPadSlots masks relations ↔
      (∃ rel ∈ relations, rel.name = name) ∧
        ∃ mask, masks name = some mask ∧ mask[idx]? = some true := by
  simp only [strippedPadSlots, List.mem_flatMap, List.mem_dedup, List.mem_map]
  constructor
  · rintro ⟨name', hname', h⟩
    cases hmask : masks name' with
    | none =>
      rw [hmask] at h
      cases h
    | some mask =>
      rw [hmask] at h
      obtain ⟨i, hi, heq⟩ := List.mem_map.1 h
      obtain ⟨rfl, rfl⟩ := Prod.mk.inj heq
      exact ⟨hname', mask, hmask, by simpa using (List.mem_filter.1 hi).2⟩
  · rintro ⟨hname, mask, hmask, hidx⟩
    refine ⟨name, hname, ?_⟩
    rw [hmask]
    exact List.mem_map.2 ⟨idx, List.mem_filter.2 ⟨List.mem_range.2
      (List.getElem?_eq_some_iff.1 hidx).1, by simpa using hidx⟩, rfl⟩

/-- Where no column is dropped there is no mask. -/
theorem deadArrayArgMasks_eq_none
    (h : strippedPadSlots (deadArrayArgMasks vc) vc.relations = []) (name : String) :
    deadArrayArgMasks vc name = none := by
  refine Option.eq_none_iff_forall_ne_some.2 fun mask hmask => ?_
  obtain ⟨sorts, hsorts, -⟩ := length_deadArrayArgMasks hmask
  obtain ⟨rel, hrel, hname, -⟩ := mem_relations_of_relSorts hsorts
  obtain ⟨idx, -, hidx⟩ := exists_true_of_deadArrayArgMasks hmask
  have hmem := mem_strippedPadSlots.2 ⟨⟨rel, hrel, hname⟩, mask, hmask, hidx⟩
  rw [h] at hmem
  cases hmem

/-! ### The result -/

/-- The columns that are dropped. -/
def prunedColumns (vc : ChcVc) : Columns := maskColumns (deadArrayArgMasks vc)

/-- What becomes of a rule. -/
def prunedRule (vc : ChcVc) (rule : Rule) : Rule :=
  stripRuleRelationApps (deadArrayArgMasks vc) rule

theorem stripRuleRelationApps_eq_self {masks : String → Option (List Bool)}
    (h : ∀ name, masks name = none) (r : Rule) : stripRuleRelationApps masks r = r := by
  have happ : ∀ a : RelationApp, (maskColumns masks).stripApp a = a := fun a => by
    simp only [Columns.stripApp, Columns.strip, maskColumns, h]
  have hterm : r.body.constraints.map (stripExpr masks) = r.body.constraints := by
    conv_rhs => rw [← List.map_id r.body.constraints]
    exact List.map_congr_left fun c _ => stripExpr_eq_self fun app _ => h app.1
  obtain ⟨⟨relation, cs⟩, head⟩ := r
  cases relation <;> simp only [stripRuleRelationApps, Option.map_none, Option.map_some, happ] <;>
    exact congrArg (fun cs => Rule.mk ⟨_, cs⟩ head) hterm

theorem stripRelationDecls_eq {masks : String → Option (List Bool)}
    {relations relations' : List RelationDecl}
    (h : stripRelationDecls masks relations = some relations') :
    relations' = relations.map (strippedDecl masks) := by
  induction relations generalizing relations' with
  | nil => exact (Option.some.inj h).symm
  | cons rel relations ih =>
    rw [stripRelationDecls, List.mapM_cons] at h
    obtain ⟨rel', hrel, h⟩ := Option.bind_eq_some_iff.1 h
    obtain ⟨rest, hrest, h⟩ := Option.bind_eq_some_iff.1 h
    obtain rfl := ih hrest
    split_ifs at hrel
    obtain rfl := Option.some.inj hrel
    exact (Option.some.inj h).symm

/-- The declarations are stripped without panic if no mask is too short. -/
theorem stripRelationDecls_of_forall {masks : String → Option (List Bool)}
    {relations : List RelationDecl}
    (h : ∀ rel ∈ relations, ∀ mask, masks rel.name = some mask →
      rel.argSorts.length ≤ mask.length) :
    stripRelationDecls masks relations = some (relations.map (strippedDecl masks)) := by
  induction relations with
  | nil => rfl
  | cons rel relations ih =>
    have hrel : ¬ (masks rel.name).any (·.length < rel.argSorts.length) = true := by
      rw [Option.any_eq_true]
      rintro ⟨mask, hmask, hlt⟩
      have hle := h rel List.mem_cons_self mask hmask
      rw [decide_eq_true_eq] at hlt
      omega
    rw [stripRelationDecls, List.mapM_cons, if_neg hrel]
    have hrest := ih fun rel hrel => h rel (List.mem_cons_of_mem _ hrel)
    rw [stripRelationDecls] at hrest
    rw [hrest]
    rfl

/-- The result, part by part. -/
theorem pruneDeadArrayRelationArgs_eq {n : ℕ}
    (h : pruneDeadArrayRelationArgs vc = some (vc', n)) :
    vc' = { vc with
      vars := vc.vars.filter fun var => !isStrippedPad (deadArrayArgMasks vc) vc.relations var.1
      relations := vc.relations.map (strippedDecl (deadArrayArgMasks vc))
      rules := vc.rules.map (prunedRule vc) } := by
  unfold pruneDeadArrayRelationArgs at h
  dsimp only at h
  split_ifs at h with hnone
  · have hslots := List.length_eq_zero_iff.1 hnone
    have hmasks := deadArrayArgMasks_eq_none hslots
    obtain ⟨rfl, -⟩ := Prod.mk.inj (Option.some.inj h)
    have hrules : vc.rules.map (prunedRule vc) = vc.rules := by
      conv_rhs => rw [← List.map_id vc.rules]
      exact List.map_congr_left fun r _ => stripRuleRelationApps_eq_self hmasks r
    have hrelations : vc.relations.map (strippedDecl (deadArrayArgMasks vc)) = vc.relations := by
      conv_rhs => rw [← List.map_id vc.relations]
      exact List.map_congr_left fun rel _ => by simp only [strippedDecl, hmasks, id_eq]
    have hvars : (vc.vars.filter fun var =>
        !isStrippedPad (deadArrayArgMasks vc) vc.relations var.1) = vc.vars := by
      refine List.filter_eq_self.2 fun var _ => ?_
      rw [isStrippedPad, hslots]
      rfl
    rw [hrules, hrelations, hvars]
  · obtain ⟨relations, hrelations, heq⟩ := Option.map_eq_some_iff.1 h
    obtain ⟨rfl, -⟩ := Prod.mk.inj heq
    rw [stripRelationDecls_eq hrelations]
    rfl

/-- Relations that are declared once are stripped without panic. -/
theorem exists_pruneDeadArrayRelationArgs (h : (vc.relations.map (·.name)).Nodup) :
    ∃ vc' n, pruneDeadArrayRelationArgs vc = some (vc', n) := by
  unfold pruneDeadArrayRelationArgs
  dsimp only
  split_ifs with hnone
  · exact ⟨vc, 0, rfl⟩
  · rw [stripRelationDecls_of_forall, Option.map_some]
    · exact ⟨_, _, rfl⟩
    · intro rel hrel mask hmask
      obtain ⟨sorts, hsorts, hlen⟩ := length_deadArrayArgMasks hmask
      obtain ⟨rel', hrel', hname, rfl⟩ := mem_relations_of_relSorts hsorts
      obtain rfl : rel = rel' := List.inj_on_of_nodup_map h hrel hrel' hname.symm
      exact hlen.ge

/-! ### Declarations -/

/-- The arguments have the sorts that their relation is declared with, if it is. -/
def MatchesDeclaration (relations : List RelationDecl) (app : String × List Expr) : Prop :=
  ∀ sorts, relSorts relations app.1 = some sorts → app.2.map Expr.sort = sorts

theorem relSorts_map_strippedDecl (masks : String → Option (List Bool))
    (relations : List RelationDecl) (name : String) :
    relSorts (relations.map (strippedDecl masks)) name =
      (relSorts relations name).map fun sorts =>
        match masks name with
        | none => sorts
        | some mask => dropFlagged mask sorts := by
  have hname : (fun rel : RelationDecl => (strippedDecl masks rel).name == name) =
      fun rel => rel.name == name := by
    funext rel
    unfold strippedDecl
    split <;> rfl
  rw [relSorts, relSorts, ← List.map_reverse, List.find?_map]
  simp only [Function.comp_def, hname, Option.map_map]
  refine Option.map_congr fun rel hrel => ?_
  have hrelname : rel.name = name := by simpa using List.find?_some hrel
  rw [strippedDecl, hrelname]
  cases masks name <;> rfl

/-- The applications of a rule are those before, without the columns. -/
theorem mem_ruleApps_prunedRule {r : Rule} {app : String × List Expr}
    (h : app ∈ ruleApps (prunedRule vc r)) :
    ∃ args, (app.1, args) ∈ ruleApps r ∧
      app.2.map Expr.sort = (prunedColumns vc).strip app.1 (args.map Expr.sort) := by
  simp only [ruleApps, List.mem_cons, List.mem_append, Option.mem_toList,
    Option.map_eq_some_iff, List.mem_flatMap] at h ⊢
  rcases h with rfl | ⟨a', ha', rfl⟩ | ⟨c', hc', happ⟩
  · exact ⟨r.head.args, .inl rfl, Columns.map_strip _ _ _⟩
  · obtain ⟨a, ha, rfl⟩ := Option.map_eq_some_iff.1 ha'
    exact ⟨a.args, .inr (.inl ⟨a, ha, rfl⟩), Columns.map_strip _ _ _⟩
  · obtain ⟨c, hc, rfl⟩ := List.mem_map.1 hc'
    obtain ⟨args, hargs, hsorts⟩ := mem_funcApps_stripExpr happ
    exact ⟨args, .inr (.inr ⟨c, hc, hargs⟩), hsorts⟩

/-- **Applications and declarations lose the same columns.** -/
theorem matchesDeclaration_prunedRule {r : Rule}
    (h : ∀ app ∈ ruleApps r, MatchesDeclaration vc.relations app) {app : String × List Expr}
    (happ : app ∈ ruleApps (prunedRule vc r)) :
    MatchesDeclaration (vc.relations.map (strippedDecl (deadArrayArgMasks vc))) app := by
  intro sorts' hsorts'
  rw [relSorts_map_strippedDecl] at hsorts'
  obtain ⟨sorts, hsorts, rfl⟩ := Option.map_eq_some_iff.1 hsorts'
  obtain ⟨args, hargs, hstripped⟩ := mem_ruleApps_prunedRule happ
  rw [hstripped, h _ hargs sorts hsorts, prunedColumns, Columns.strip, maskColumns]
  cases hmask : deadArrayArgMasks vc app.1 with
  | none => rfl
  | some mask =>
    obtain ⟨sorts₀, hsorts₀, hlen⟩ := length_deadArrayArgMasks hmask
    obtain rfl : sorts = sorts₀ := Option.some.inj (hsorts.symm.trans hsorts₀)
    dsimp only
    rw [if_neg (not_not.2 hlen)]

/-! ### Variables -/

/-- The free variables of the rules and of assertions beside them. -/
def occurrences (rules : List Rule) (assertions : List Expr) : List (String × SmtSort) :=
  rules.flatMap Rule.freeOccs ++ assertions.flatMap Expr.freeOccs

/-- Every variable that occurs is declared with its sort. -/
def Closed (vc : ChcVc) (assertions : List Expr) : Prop :=
  ∀ o ∈ occurrences vc.rules assertions, o ∈ vc.vars

instance (vc : ChcVc) (assertions : List Expr) : Decidable (Closed vc assertions) :=
  inferInstanceAs (Decidable (∀ o ∈ _, _))

theorem freeOccs_prunedRule_subset (r : Rule) : (prunedRule vc r).freeOccs ⊆ r.freeOccs := by
  intro o ho
  obtain ⟨e', he', ho⟩ := List.mem_flatMap.1 ho
  refine List.mem_flatMap.2 ?_
  rcases Rule.mem_terms.1 he' with ⟨a', ha', he⟩ | hc' | he
  · obtain ⟨a, ha, rfl⟩ := Option.map_eq_some_iff.1 ha'
    exact ⟨e', Rule.mem_terms.2 (.inl ⟨a, ha, Columns.mem_of_mem_strip he⟩), ho⟩
  · obtain ⟨c, hc, rfl⟩ := List.mem_map.1 hc'
    exact ⟨c, Rule.mem_terms.2 (.inr (.inl hc)), freeOccs_stripExpr_subset c ho⟩
  · exact ⟨e', Rule.mem_terms.2 (.inr (.inr (Columns.mem_of_mem_strip he))), ho⟩

theorem occurrences_prunedRule_subset (assertions : List Expr) :
    occurrences (vc.rules.map (prunedRule vc)) assertions ⊆ occurrences vc.rules assertions := by
  intro o ho
  rw [occurrences, List.flatMap_map] at ho
  refine List.mem_append.2 ((List.mem_append.1 ho).imp_left fun ho => ?_)
  obtain ⟨r, hr, ho⟩ := List.mem_flatMap.1 ho
  exact List.mem_flatMap.2 ⟨r, hr, freeOccs_prunedRule_subset r ho⟩

/-- **Closedness** is kept exactly if no variable that still occurs is taken for a pad of a
dropped column. -/
theorem closed_iff {n : ℕ} {assertions : List Expr}
    (h : pruneDeadArrayRelationArgs vc = some (vc', n)) (hclosed : Closed vc assertions) :
    Closed vc' assertions ↔ ∀ o ∈ occurrences (vc.rules.map (prunedRule vc)) assertions,
      isStrippedPad (deadArrayArgMasks vc) vc.relations o.1 = false := by
  rw [pruneDeadArrayRelationArgs_eq h]
  refine forall₂_congr fun o ho => ?_
  have hdeclared : o ∈ vc.vars := hclosed o (occurrences_prunedRule_subset assertions ho)
  simp [List.mem_filter, hdeclared]

/-! ### Exactness -/

/-- The constraints of every rule say at least what is left of them when columns are dropped from
the applications inside them. -/
def KeepsConstraints (T : Theory) (vc : ChcVc) : Prop :=
  ∀ r ∈ vc.rules, ∀ ρ : T.Env, (∀ c ∈ r.body.constraints, c.Holds ρ) →
    ∀ c ∈ (prunedRule vc r).body.constraints, c.Holds ρ

/-- They do if they apply no relation that loses columns. -/
theorem keepsConstraints_of_forall
    (h : ∀ r ∈ vc.rules, ∀ c ∈ r.body.constraints, ∀ app ∈ funcApps c,
      deadArrayArgMasks vc app.1 = none) : KeepsConstraints T vc := by
  intro r hr ρ hρ c' hc'
  obtain ⟨c, hc, rfl⟩ := List.mem_map.1 hc'
  rw [stripExpr_eq_self (h r hr c hc)]
  exact hρ c hc

/-! ### A lost test and a lost declaration -/

/-- `R(Z, 3)`, `R(Z, 5) ⇒ R_1(Z, Z, __pad_R_1_2)` and `R_1(X, Y, Z) ⇒ error`. -/
def padVc : ChcVc where
  vars := [("X", .int), ("Y", .int), ("Z", .int), ("__pad_R_1_2", .int)]
  relations := [⟨"R", [.int, .int]⟩, ⟨"R_1", [.int, .int, .int]⟩, ⟨"error", []⟩]
  rules :=
    [⟨⟨none, []⟩, ⟨"R", [.var "Z" .int, .intConst 3]⟩⟩,
      ⟨⟨some ⟨"R", [.var "Z" .int, .intConst 5]⟩, []⟩,
        ⟨"R_1", [.var "Z" .int, .var "Z" .int, .var "__pad_R_1_2" .int]⟩⟩,
      ⟨⟨some ⟨"R_1", [.var "X" .int, .var "Y" .int, .var "Z" .int]⟩, []⟩, .nullary "error"⟩]
  target := some "error"
  triviallySafeDischarged := false

/-- The result: the literals `3` and `5` are gone, and so is the declaration of the pad. -/
def prunedPadVc : ChcVc where
  vars := [("X", .int), ("Y", .int), ("Z", .int)]
  relations := [⟨"R", [.int]⟩, ⟨"R_1", [.int, .int, .int]⟩, ⟨"error", []⟩]
  rules :=
    [⟨⟨none, []⟩, ⟨"R", [.var "Z" .int]⟩⟩,
      ⟨⟨some ⟨"R", [.var "Z" .int]⟩, []⟩,
        ⟨"R_1", [.var "Z" .int, .var "Z" .int, .var "__pad_R_1_2" .int]⟩⟩,
      ⟨⟨some ⟨"R_1", [.var "X" .int, .var "Y" .int, .var "Z" .int]⟩, []⟩, .nullary "error"⟩]
  target := some "error"
  triviallySafeDischarged := false

theorem wellFormed_padVc : padVc.WellFormed := by
  refine ⟨fun r hr => ?_, fun r hr => ?_, by decide, fun r hr => ?_, by decide⟩ <;>
    simp only [padVc, List.mem_cons, List.not_mem_nil, or_false] at hr <;>
    rcases hr with rfl | rfl | rfl
  · exact ⟨by simp [Rule.terms, Op.accepts], by simp⟩
  · exact ⟨by simp [Rule.terms, Op.accepts], by simp⟩
  · exact ⟨by simp [Rule.terms, RelationApp.nullary], by simp⟩
  · simp [padVc, Rule.apps, Op.resultSort]
  · simp [padVc, Rule.apps, Op.resultSort]
  · simp [padVc, Rule.apps, RelationApp.nullary]
  · simp [padVc, Rule.freeOccs, Rule.terms]
  · simp [padVc, Rule.freeOccs, Rule.terms]
  · simp [padVc, Rule.freeOccs, Rule.terms, RelationApp.nullary]

theorem pruneDeadArrayRelationArgs_padVc :
    pruneDeadArrayRelationArgs padVc = some (prunedPadVc, 1) := by
  decide +kernel

/-- Under an assignment that gives all variables one value, every rule of the result fires. -/
theorem unsafe_prunedPadVc : prunedPadVc.Unsafe (default : Theory) := by
  let ρ : (default : Theory).Env := default
  have hR : Derives default prunedPadVc.rules
      ((⟨"R", [.var "Z" .int]⟩ : RelationApp).fact ρ) :=
    .fact ⟨_, List.mem_cons_self, ρ, rfl, by simp, rfl⟩
  have hR₁ : Derives default prunedPadVc.rules
      ((⟨"R_1", [.var "X" .int, .var "Y" .int, .var "Z" .int]⟩ : RelationApp).fact ρ) := by
    refine .step hR ⟨_, List.mem_cons_of_mem _ List.mem_cons_self, ρ, rfl, by simp, ?_⟩
    simp only [RelationApp.fact, List.map_cons, eval_var]
    rfl
  have herror : Derives default prunedPadVc.rules ((RelationApp.nullary "error").fact ρ) :=
    .step hR₁ ⟨_, List.mem_cons_of_mem _ (List.mem_cons_of_mem _ List.mem_cons_self), ρ, rfl,
      by simp, rfl⟩
  exact ⟨"error", [], rfl, herror⟩

/-- Only `R` has facts, and they hold a `3`. -/
theorem eq_of_derives_padVc {f : Fact (default : Theory)} (h : Derives default padVc.rules f) :
    f.1 = "R" ∧ f.2[1]? = some (Carriers.Val.ofInt 3) := by
  refine Horn.System.Derivable.invariant (P := fun f : Fact (default : Theory) =>
    f.1 = "R" ∧ f.2[1]? = some (Carriers.Val.ofInt 3)) ?_ ?_ h
  · rintro f ⟨r, hr, ρ, hpremise, -, rfl⟩
    simp only [padVc, List.mem_cons, List.not_mem_nil, or_false] at hr
    rcases hr with rfl | rfl | rfl
    · simp [RelationApp.fact, Op.interp]
    · cases hpremise
    · cases hpremise
  · rintro g f - ⟨hname, hthree⟩ ⟨r, hr, ρ, hpremise, -, rfl⟩
    simp only [padVc, List.mem_cons, List.not_mem_nil, or_false] at hr
    rcases hr with rfl | rfl | rfl
    · cases hpremise
    · -- the body's literal is a `5`
      obtain rfl := Option.some.inj hpremise
      simp [RelationApp.fact, Op.interp] at hthree
    · obtain rfl := Option.some.inj hpremise
      simp [RelationApp.fact] at hname

end DeadArrayArgs

end TrustMc
