import TrustMc.Core.Vc

/-!
# Pruning orphan block rules

A relation that is the premise of a rule and the conclusion of none is an **orphan**: no
fact of it is derivable, so the rules over it never fire. `prune_orphan_block_rules` drops
these rules until no rule has an orphan premise, and then the declarations of the relations
that nothing mentions any more.

* `SelfSupporting`: every premise is the conclusion of some rule of the list. The pruned
  rules are the greatest self-supporting part of the rules (`mem_pruneOrphanRules`).
* `pruneOrphanBlockRules_spec`: the pruned condition has the derivable facts of the
  original, its rules are self-supporting, and it declares what they mention.
-/

namespace TrustMc

/-! ### The pass -/

/-- One round: keep the rules whose premise is the conclusion of some rule. -/
def orphanPass (rules : List Rule) : List Rule :=
  rules.filter fun r => r.body.relation.all fun a => a.name ∈ rules.map (·.head.name)

theorem orphanPass_length_le (rules : List Rule) : (orphanPass rules).length ≤ rules.length :=
  List.length_filter_le _ _

/-- The rounds, until one prunes nothing. -/
def pruneOrphanRules (rules : List Rule) : List Rule :=
  if (orphanPass rules).length = rules.length then orphanPass rules
  else pruneOrphanRules (orphanPass rules)
termination_by rules.length
decreasing_by
  have := orphanPass_length_le rules
  omega

mutual

/-- `collect_relation_refs_in_expr`: the given relations that a term applies. -/
def collectRelationRefs (relationNames : List String) : Expr → List String
  | .var _ _ => []
  | .app (.funcApp name _) args =>
    (if name ∈ relationNames then [name] else []) ++ collectRelationRefsList relationNames args
  | .app _ args => collectRelationRefsList relationNames args
  | .quant _ _ b => collectRelationRefs relationNames b

/-- The given relations that a list of terms applies. -/
def collectRelationRefsList (relationNames : List String) : List Expr → List String
  | [] => []
  | e :: es => collectRelationRefs relationNames e ++ collectRelationRefsList relationNames es

end

/-- The relations that the query and the rules refer to. -/
def referencedRelations (queryTarget : String) (relationNames : List String)
    (rules : List Rule) : List String :=
  queryTarget :: rules.flatMap fun r =>
    r.head.name :: (r.body.relation.toList.map (·.name) ++
      collectRelationRefsList relationNames r.body.constraints)

/-- `prune_orphan_block_rules`. -/
def ChcVc.pruneOrphanBlockRules (vc : ChcVc) : ChcVc :=
  let rules := pruneOrphanRules vc.rules
  let referenced :=
    referencedRelations (vc.target.getD "error") (vc.relations.map (·.name)) rules
  { vc with rules, relations := vc.relations.filter fun d => d.name ∈ referenced }

/-! ### The greatest self-supporting part -/

/-- Every premise is the conclusion of some rule of the list. -/
def SelfSupporting (rules : List Rule) : Prop :=
  ∀ r ∈ rules, ∀ a, r.body.relation = some a → ∃ r' ∈ rules, r'.head.name = a.name

theorem mem_orphanPass {rules : List Rule} {r : Rule} :
    r ∈ orphanPass rules ↔
      r ∈ rules ∧ ∀ a, r.body.relation = some a → ∃ r' ∈ rules, r'.head.name = a.name := by
  rw [orphanPass, List.mem_filter]
  cases r.body.relation <;> simp

/-- A part of the rules that supports itself survives a round. -/
theorem SelfSupporting.subset_orphanPass {part rules : List Rule} (h : SelfSupporting part)
    (hsub : part ⊆ rules) : part ⊆ orphanPass rules := by
  intro r hr
  refine mem_orphanPass.2 ⟨hsub hr, fun a ha => ?_⟩
  obtain ⟨r', hr', hname⟩ := h r hr a ha
  exact ⟨r', hsub hr', hname⟩

/-- A round that prunes nothing changes nothing. -/
theorem orphanPass_eq_self {rules : List Rule} (h : (orphanPass rules).length = rules.length) :
    orphanPass rules = rules :=
  List.filter_sublist.eq_of_length h

theorem selfSupporting_pruneOrphanRules (rules : List Rule) :
    SelfSupporting (pruneOrphanRules rules) := by
  fun_induction pruneOrphanRules rules with
  | case1 rules hlen =>
    rw [orphanPass_eq_self hlen]
    intro r hr
    rw [← orphanPass_eq_self hlen] at hr
    exact (mem_orphanPass.1 hr).2
  | case2 rules hlen ih => exact ih

theorem pruneOrphanRules_sublist (rules : List Rule) : (pruneOrphanRules rules).Sublist rules := by
  fun_induction pruneOrphanRules rules with
  | case1 rules hlen => exact List.filter_sublist
  | case2 rules hlen ih => exact ih.trans List.filter_sublist

/-- A part of the rules that supports itself survives. -/
theorem SelfSupporting.subset_pruneOrphanRules {part rules : List Rule}
    (h : SelfSupporting part) (hsub : part ⊆ rules) : part ⊆ pruneOrphanRules rules := by
  fun_induction pruneOrphanRules rules with
  | case1 rules hlen => exact h.subset_orphanPass hsub
  | case2 rules hlen ih => exact ih (h.subset_orphanPass hsub)

/-- **The rules that remain** are those of a self-supporting part of the rules. -/
theorem mem_pruneOrphanRules {rules : List Rule} {r : Rule} :
    r ∈ pruneOrphanRules rules ↔ ∃ part, part ⊆ rules ∧ SelfSupporting part ∧ r ∈ part := by
  constructor
  · intro hr
    exact ⟨pruneOrphanRules rules, (pruneOrphanRules_sublist rules).subset,
      selfSupporting_pruneOrphanRules rules, hr⟩
  · rintro ⟨part, hsub, hpart, hr⟩
    exact hpart.subset_pruneOrphanRules hsub hr

/-! ### Derivability -/

section Derivability

variable {T : Theory} {rules : List Rule} {f : Fact T}

/-- A derivable fact is a fact of the conclusion of some rule. -/
theorem exists_rule_of_derives (h : Derives T rules f) : ∃ r ∈ rules, r.head.name = f.1 := by
  have hfires : ∀ {p : Option (Fact T)}, (system T rules).fires p f →
      ∃ r ∈ rules, r.head.name = f.1 := by
    rintro p ⟨r, hr, ρ, -, -, rfl⟩
    exact ⟨r, hr, rfl⟩
  rcases Horn.System.derivable_iff.1 h with h | ⟨g, -, h⟩
  · exact hfires h
  · exact hfires h

theorem derives_orphanPass : Derives T (orphanPass rules) f ↔ Derives T rules f := by
  constructor
  · refine Horn.System.Derivable.mono fun p f h => ?_
    obtain ⟨r, hr, h⟩ := h
    exact ⟨r, (mem_orphanPass.1 hr).1, h⟩
  · -- A rule that fires on a derivable premise has a premise that some rule concludes.
    intro h
    induction h with
    | fact h =>
      obtain ⟨r, hr, ρ, hp, hrest⟩ := h
      refine .fact ⟨r, mem_orphanPass.2 ⟨hr, fun a ha => ?_⟩, ρ, hp, hrest⟩
      simp [ha] at hp
    | step hg h ih =>
      obtain ⟨r, hr, ρ, hp, hrest⟩ := h
      refine .step ih ⟨r, mem_orphanPass.2 ⟨hr, fun a ha => ?_⟩, ρ, hp, hrest⟩
      rw [ha, Option.map_some] at hp
      obtain rfl := Option.some.inj hp
      exact exists_rule_of_derives hg

/-- Pruning leaves every derivable fact derivable, and no other. -/
theorem derives_pruneOrphanRules :
    Derives T (pruneOrphanRules rules) f ↔ Derives T rules f := by
  fun_induction pruneOrphanRules rules with
  | case1 rules hlen => exact derives_orphanPass
  | case2 rules hlen ih => exact ih.trans derives_orphanPass

end Derivability

/-! ### Declarations -/

/-- The term applies the relation somewhere. -/
inductive Expr.AppliesRelation (name : String) : Expr → Prop
  | here {s : SmtSort} {args : List Expr} : AppliesRelation name (.app (.funcApp name s) args)
  | arg {op : Op} {args : List Expr} {a : Expr} (ha : a ∈ args) (h : AppliesRelation name a) :
    AppliesRelation name (.app op args)
  | body {q : Quantifier} {vs : List (String × SmtSort)} {b : Expr}
    (h : AppliesRelation name b) : AppliesRelation name (.quant q vs b)

/-- The rule concludes the relation, has it as its premise or applies it in a constraint. -/
def Rule.Mentions (r : Rule) (name : String) : Prop :=
  r.head.name = name ∨ (∃ a, r.body.relation = some a ∧ a.name = name) ∨
    ∃ c ∈ r.body.constraints, c.AppliesRelation name

section Declarations

variable {relationNames : List String} {name : String}

theorem mem_collectRelationRefsList {es : List Expr} :
    name ∈ collectRelationRefsList relationNames es ↔
      ∃ e ∈ es, name ∈ collectRelationRefs relationNames e := by
  induction es with
  | nil => simp [collectRelationRefsList]
  | cons e es ih => simp [collectRelationRefsList, ih]

theorem mem_collectRelationRefs_app {op : Op} {args : List Expr} :
    name ∈ collectRelationRefs relationNames (.app op args) ↔
      (name ∈ relationNames ∧ ∃ s, op = .funcApp name s) ∨
        ∃ a ∈ args, name ∈ collectRelationRefs relationNames a := by
  have hother : (∀ n s, op ≠ .funcApp n s) →
      collectRelationRefs relationNames (.app op args) =
        collectRelationRefsList relationNames args := by
    intro hne
    cases op <;> first | rfl | exact absurd rfl (hne _ _)
  by_cases hop : ∃ n s, op = .funcApp n s
  · obtain ⟨n, s, rfl⟩ := hop
    rw [collectRelationRefs, List.mem_append, mem_collectRelationRefsList]
    refine or_congr_left ?_
    by_cases hn : n ∈ relationNames
    · simp only [if_pos hn, List.mem_singleton, Op.funcApp.injEq, exists_and_left]
      constructor
      · rintro rfl
        exact ⟨hn, rfl, s, rfl⟩
      · rintro ⟨-, rfl, -⟩
        rfl
    · simp only [if_neg hn, List.not_mem_nil, false_iff, not_and]
      rintro hname ⟨s', hs'⟩
      cases hs'
      exact hn hname
  · rw [hother fun n s h => hop ⟨n, s, h⟩, mem_collectRelationRefsList]
    refine (or_iff_right ?_).symm
    rintro ⟨-, s, rfl⟩
    exact hop ⟨name, s, rfl⟩

/-- What is collected from a term are the given relations that it applies. -/
theorem mem_collectRelationRefs {e : Expr} :
    name ∈ collectRelationRefs relationNames e ↔ name ∈ relationNames ∧ e.AppliesRelation name := by
  induction e with
  | var n s =>
    simp only [collectRelationRefs, List.not_mem_nil, false_iff, not_and]
    intro _ h
    cases h
  | app op args ih =>
    rw [mem_collectRelationRefs_app]
    constructor
    · rintro (⟨hname, s, rfl⟩ | ⟨a, ha, h⟩)
      · exact ⟨hname, .here⟩
      · exact ⟨((ih a ha).1 h).1, .arg ha ((ih a ha).1 h).2⟩
    · rintro ⟨hname, h⟩
      cases h with
      | here => exact Or.inl ⟨hname, _, rfl⟩
      | arg ha h => exact Or.inr ⟨_, ha, (ih _ ha).2 ⟨hname, h⟩⟩
  | quant q vs b ih =>
    rw [collectRelationRefs, ih]
    refine and_congr_right fun _ => ⟨.body, fun h => ?_⟩
    cases h with
    | body h => exact h

/-- The relations referred to, among the given ones: the query target and what the rules
mention. -/
theorem mem_referencedRelations {queryTarget : String} {rules : List Rule}
    (hname : name ∈ relationNames) :
    name ∈ referencedRelations queryTarget relationNames rules ↔
      name = queryTarget ∨ ∃ r ∈ rules, r.Mentions name := by
  simp only [referencedRelations, List.mem_cons, List.mem_flatMap, List.mem_append, List.mem_map,
    Option.mem_toList, mem_collectRelationRefsList, mem_collectRelationRefs, hname, true_and,
    Rule.Mentions, eq_comm (a := name)]

end Declarations

/-- **Pruning orphan rules**: every fact, those of the query target and the error relations
among them, is derivable from the remaining rules if and only if it was; the remaining rules
are rules of the original whose premises they conclude themselves; and the declarations that
remain are those of the query target and of what a remaining rule mentions. -/
theorem pruneOrphanBlockRules_spec (T : Theory) (vc : ChcVc) :
    (∀ f : Fact T, Derives T vc.pruneOrphanBlockRules.rules f ↔ Derives T vc.rules f) ∧
    vc.pruneOrphanBlockRules.rules.Sublist vc.rules ∧
    SelfSupporting vc.pruneOrphanBlockRules.rules ∧
    ∀ d, d ∈ vc.pruneOrphanBlockRules.relations ↔ d ∈ vc.relations ∧
      (d.name = vc.target.getD "error" ∨
        ∃ r ∈ vc.pruneOrphanBlockRules.rules, r.Mentions d.name) := by
  refine ⟨fun f => derives_pruneOrphanRules, pruneOrphanRules_sublist _,
    selfSupporting_pruneOrphanRules _, fun d => ?_⟩
  simp only [ChcVc.pruneOrphanBlockRules, List.mem_filter, decide_eq_true_eq]
  refine and_congr_right fun hd => ?_
  exact mem_referencedRelations (List.mem_map_of_mem hd)

end TrustMc
