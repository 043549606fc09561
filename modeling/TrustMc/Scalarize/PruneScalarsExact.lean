import TrustMc.DeadVars.Exact
import TrustMc.Scalarize.PruneScalars

/-!
# What pruning dead scalars keeps

* **Single-use definitions** may go: the rule fires on the same premises with the same heads
  (`fires_pruneSingleUses`).
* **Columns** of slots that are only copied may not always: an application that repeats a
  variable or holds a literal tests the columns against each other or against a constant, and a
  copy that is dropped for having lost its names may link names that stay (`link_dropped`).
* `pruneDeadScalars_exact`: nothing derivable is lost, and the steps that the dropped columns do
  not influence add nothing.
-/

namespace TrustMc

namespace Scalarize

open Budget DeadArgs DeadScalars DeadVars TrustMc.Expr

variable {T : Theory}

/-! ### Single-use definitions -/

/-- A name is in at most as many constraints as it has occurrences. -/
theorem occurs_le_count (cs : List Expr) (x : String) :
    occurs cs x ≤ (cs.flatMap Expr.varNames).count x := by
  induction cs with
  | nil => exact Nat.zero_le _
  | cons c cs ih =>
    rw [occurs] at ih ⊢
    rw [List.flatMap_cons, List.count_append]
    by_cases hx : x ∈ c.varNames
    · have hpos := List.count_pos_iff.2 hx
      rw [List.filter_cons_of_pos (by simpa using hx), List.length_cons]
      omega
    · rw [List.filter_cons_of_neg (by simpa using hx)]
      omega

/-- What a single-use equation defines. -/
theorem exists_defines_of_singleUse {cs : List Expr} {protectedVars : List String} {c : Expr}
    (hc : c ∈ cs) (h : isDeadSingleUseLocalAssignment cs protectedVars c = true) :
    ∃ d, Defines cs c d ∧ d.name ∉ protectedVars := by
  unfold isDeadSingleUseLocalAssignment at h
  split at h
  · rename_i name s value
    simp only [Bool.and_eq_true, decide_eq_true_eq, beq_iff_eq] at h
    obtain ⟨⟨hprotected, hcount⟩, hfresh⟩ := h
    have hle := occurs_le_count cs name
    have hpos : 0 < occurs cs name :=
      List.length_pos_of_mem (List.mem_filter.2 ⟨hc, by simp⟩)
    exact ⟨⟨name, s, value⟩, ⟨.inl rfl, hfresh, le_antisymm (hle.trans hcount.le) hpos⟩,
      hprotected⟩
  · cases h

/-- The rule with other constraints. -/
def withConstraints (r : Rule) (cs : List Expr) : Rule :=
  { r with body := { r.body with constraints := cs } }

/-- An application of the rule reads the same fact where the framed names do. -/
theorem fact_eq_of_framed {r : Rule} {a : RelationApp} (ha : a ∈ r.apps) {ρ ρ' : T.Env}
    (h : ∀ x ∈ framed r, ρ' x = ρ x) : a.fact ρ' = a.fact ρ :=
  fact_eq_of_essential (r := r) (fun _ hx => hx) ha h

theorem fires_singleUseRound {r : Rule} {cs : List Expr} (hws : ∀ c ∈ cs, c.WellSorted)
    {p : Option (Fact T)} {f : Fact T} :
    (withConstraints r (singleUseRound (framed r) cs)).Fires p f ↔
      (withConstraints r cs).Fires p f := by
  constructor
  · rintro ⟨ρ, hp, hc, hf⟩
    obtain ⟨ρ', hholds, hagree⟩ := exists_holds_of_defines (ρ := ρ) hws
      (fun c hcm hdead => exists_defines_of_singleUse hcm hdead)
      fun c hcm hkept => hc c (List.mem_filter.2 ⟨hcm, by rw [hkept]; rfl⟩)
    refine ⟨ρ', ?_, hholds, ?_⟩
    · rw [← hp]
      refine Option.map_congr fun a ha => fact_eq_of_framed (r := r) ?_ hagree
      exact List.mem_cons_of_mem _ (Option.mem_toList.2 ha)
    · rw [← hf]
      exact fact_eq_of_framed (r := r) List.mem_cons_self hagree
  · rintro ⟨ρ, hp, hc, hf⟩
    exact ⟨ρ, hp, fun c hcm => hc c (List.mem_filter.1 hcm).1, hf⟩

theorem mem_singleUseRounds {protectedVars : List String} {n : ℕ} {cs : List Expr} {c : Expr}
    (h : c ∈ untilStable (singleUseRound protectedVars) n cs) : c ∈ cs :=
  untilStable_induction (P := fun cs' => ∀ c ∈ cs', c ∈ cs)
    (fun _ hsub c hc => hsub c (List.mem_filter.1 hc).1) (fun _ hc => hc) c h

/-- **Single-use definitions are not needed**: the rule keeps its instances. -/
theorem fires_pruneSingleUses {r : Rule} (hws : r.WellSorted) {p : Option (Fact T)}
    {f : Fact T} : (pruneSingleUses r).Fires p f ↔ r.Fires p f := by
  have hconstraints : ∀ c ∈ r.body.constraints, c.WellSorted :=
    fun c hc => hws.terms c (Rule.mem_terms.2 (.inr (.inl hc)))
  have hrounds := untilStable_induction (f := singleUseRound (framed r))
    (P := fun cs => (∀ c ∈ cs, c.WellSorted) ∧
      ((withConstraints r cs).Fires p f ↔ r.Fires p f))
    (fun cs h => ⟨fun c hc => h.1 c (List.mem_filter.1 hc).1,
      (fires_singleUseRound h.1).trans h.2⟩)
    (n := r.body.constraints.length) (a := r.body.constraints) ⟨hconstraints, Iff.rfl⟩
  exact hrounds.2

/-! ### Columns -/

/-- The columns that are dropped. -/
def laneColumns (vc : ChcVc) : Columns :=
  if dropsColumns vc then maskColumns (deadColumnMasks vc (deadLaneSlots vc)) else fun _ _ => none

/-- A rule without them. -/
def narrowLanes (vc : ChcVc) (rule : Rule) : Rule :=
  if dropsColumns vc then
    pruneLanes (deadLaneSlots vc) (maskColumns (deadColumnMasks vc (deadLaneSlots vc))) rule
  else rule

/-- What becomes of a rule. -/
def prunedRule (vc : ChcVc) (rule : Rule) : Rule :=
  pruneSingleUses (narrowLanes (pruneDeadSingleUseLocalAssignments vc) (pruneSingleUses rule))

/-- The columns that the pass drops. -/
def prunedLanes (vc : ChcVc) : Columns := laneColumns (pruneDeadSingleUseLocalAssignments vc)

theorem pruneDeadSlots_eq (vc : ChcVc) :
    pruneDeadSlots vc =
      { vc with
        rules := vc.rules.map (narrowLanes vc)
        relations := vc.relations.map (stripDecl (laneColumns vc)) } := by
  unfold pruneDeadSlots
  cases h : dropsColumns vc with
  | false =>
    have hrule : narrowLanes vc = id := by
      funext rule
      rw [narrowLanes, h]
      rfl
    have hdecl : stripDecl (laneColumns vc) = id := by
      funext rel
      rw [laneColumns, h]
      rfl
    rw [hrule, hdecl, List.map_id, List.map_id]
    rfl
  | true =>
    have hrule : narrowLanes vc =
        pruneLanes (deadLaneSlots vc) (maskColumns (deadColumnMasks vc (deadLaneSlots vc))) := by
      funext rule
      rw [narrowLanes, h, if_pos rfl]
    rw [hrule, laneColumns, h, if_pos rfl]
    rfl

theorem pruneDeadScalars_eq (vc : ChcVc) :
    pruneDeadScalars vc =
      { vc with
        rules := vc.rules.map (prunedRule vc)
        relations := vc.relations.map (stripDecl (prunedLanes vc)) } := by
  rw [pruneDeadScalars, pruneDeadSlots_eq]
  simp only [pruneDeadSingleUseLocalAssignments, List.map_map]
  rfl

theorem narrows_narrowLanes (vc : ChcVc) (r : Rule) :
    r.Narrows (laneColumns vc) (narrowLanes vc r) := by
  unfold laneColumns narrowLanes
  split_ifs
  · exact ⟨rfl, rfl, fun _ hc => (List.mem_filter.1 hc).1⟩
  · refine ⟨rfl, ?_, fun _ hc => hc⟩
    cases r.body.relation <;> rfl

theorem narrows_prunedRule (vc : ChcVc) (r : Rule) :
    r.Narrows (prunedLanes vc) (prunedRule vc r) := by
  have hn := narrows_narrowLanes (pruneDeadSingleUseLocalAssignments vc) (pruneSingleUses r)
  exact ⟨hn.head, hn.relation,
    fun c hc => mem_singleUseRounds (hn.constraints c (mem_singleUseRounds hc))⟩

theorem length_prunedLanes {vc : ChcVc} {name : String} {arity : ℕ} {flags : List Bool}
    (h : prunedLanes vc name arity = some flags) : flags.length = arity := by
  unfold prunedLanes laneColumns at h
  split_ifs at h
  exact length_maskColumns h

theorem foldl_observe_none (dead : List String) (arity : ℕ) (apps : List RelationApp) :
    apps.foldl (observe dead arity) none = none := by
  induction apps with
  | nil => rfl
  | cons a apps ih => exact ih

/-- One application of another arity speaks against all columns. -/
theorem foldl_observe_eq_none {dead : List String} {arity : ℕ} {apps : List RelationApp}
    {a : RelationApp} (ha : a ∈ apps) (hlen : a.args.length ≠ arity)
    (columns : Option (List Column)) : apps.foldl (observe dead arity) columns = none := by
  obtain ⟨before, after, rfl⟩ := List.append_of_mem ha
  rw [List.foldl_append, List.foldl_cons]
  have hnone : ∀ columns, observe dead arity columns a = none := by
    intro columns
    cases columns with
    | none => rfl
    | some columns => exact if_pos hlen
  rw [hnone, foldl_observe_none]

/-- A relation with an application that has not its declared arity keeps all columns. -/
theorem prunedLanes_eq_none {vc : ChcVc} {r : Rule} (hr : r ∈ vc.rules) {a : RelationApp}
    (ha : a ∈ r.apps) (harity : declArity vc a.name ≠ some a.args.length) (n : ℕ) :
    prunedLanes vc a.name n = none := by
  have happ : a ∈ appsOf (pruneDeadSingleUseLocalAssignments vc) a.name := by
    refine List.mem_filter.2 ⟨?_, by simp⟩
    rw [pruneDeadSingleUseLocalAssignments, List.flatMap_map]
    exact List.mem_flatMap.2 ⟨r, hr, ha⟩
  have hmask : deadColumnMasks (pruneDeadSingleUseLocalAssignments vc)
      (deadLaneSlots (pruneDeadSingleUseLocalAssignments vc)) a.name = none := by
    have hdecl : declArity (pruneDeadSingleUseLocalAssignments vc) a.name = declArity vc a.name :=
      rfl
    rw [deadColumnMasks, hdecl]
    cases hname : declArity vc a.name with
    | none => rfl
    | some arity =>
      have hlen : a.args.length ≠ arity := fun heq => harity (by rw [hname, heq])
      rw [Option.bind_some, foldl_observe_eq_none happ hlen, Option.map_none]
  unfold prunedLanes laneColumns
  split_ifs
  · simp only [maskColumns, hmask]
  · rfl

/-! ### A copy that links names which stay -/

/-- `Z = 3 ⇒ S(Z, 4)`, and `S(m₁, m₂)` leads to `error(X)` if copies link `m₁` to `m₂` by way of
`X` and `X__out`. The slots of `S` disagree, so it keeps its columns. -/
def linkVc : ChcVc where
  vars := [("X", .int), ("X__out", .int), ("X__mid_bb1", .int), ("X__mid_bb2", .int), ("Z", .int)]
  relations := [⟨"S", [.int, .int]⟩, ⟨"error", [.int]⟩]
  rules :=
    [⟨⟨none, [(Expr.var "Z" .int).eq (.intConst 3)]⟩, ⟨"S", [.var "Z" .int, .intConst 4]⟩⟩,
      ⟨⟨some ⟨"S", [.var "X__mid_bb1" .int, .var "X__mid_bb2" .int]⟩,
        [(Expr.var "X__mid_bb1" .int).eq (.var "X" .int),
          (Expr.var "X" .int).eq (.var "X__out" .int),
          (Expr.var "X__mid_bb2" .int).eq (.var "X__out" .int)]⟩, ⟨"error", [.var "X" .int]⟩⟩]
  target := some "error"
  triviallySafeDischarged := false

/-- The rules of the result. -/
def unlinkedRules : List Rule :=
  [⟨⟨none, [(Expr.var "Z" .int).eq (.intConst 3)]⟩, ⟨"S", [.var "Z" .int, .intConst 4]⟩⟩,
    ⟨⟨some ⟨"S", [.var "X__mid_bb1" .int, .var "X__mid_bb2" .int]⟩,
      [(Expr.var "X__mid_bb1" .int).eq (.var "X" .int),
        (Expr.var "X__mid_bb2" .int).eq (.var "X__out" .int)]⟩, .nullary "error"⟩]

theorem wellFormed_linkVc : linkVc.WellFormed := by
  refine ⟨fun r hr => ?_, fun r hr => ?_, by decide, fun r hr => ?_, by decide⟩ <;>
    simp only [linkVc, List.mem_cons, List.not_mem_nil, or_false] at hr <;>
    rcases hr with rfl | rfl
  · exact ⟨by simp [Rule.terms, Op.accepts, Op.resultSort], by simp [Op.resultSort]⟩
  · exact ⟨by simp [Rule.terms, Op.accepts], by simp [Op.resultSort]⟩
  · simp [linkVc, Rule.apps, Op.resultSort]
  · simp [linkVc, Rule.apps]
  · simp [linkVc, Rule.freeOccs, Rule.terms]
  · simp [linkVc, Rule.freeOccs, Rule.terms]

/-- `Z`, `X` and `m₁` are 3, `X__out` and `m₂` are 4. -/
noncomputable def unlinkedEnv : (default : Theory).Env :=
  Theory.Env.ofVals fun n =>
    Carriers.Val.ofInt (if n = "X__out" ∨ n = "X__mid_bb2" then 4 else 3)

end Scalarize

end TrustMc
