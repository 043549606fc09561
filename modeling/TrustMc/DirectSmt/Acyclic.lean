import TrustMc.DirectSmt.Crate
import TrustMc.LoopUnroll.TopoSort

/-!
# Acyclic problems

The direct solver searches a problem exhaustively only if no predicate depends on itself.
`isAcyclicProblem` finds this out by a topological walk; on a well-formed problem it is exact
(`isAcyclicProblem_iff`), and then the predicates have ranks that grow along every clause
(`exists_rank`).
-/

namespace TrustMc.DirectSmt

open Native LoopUnroll

/-- The predicate applications of a clause. -/
def apps (clause : HornClause) : List (ℕ × List ChcExpr) :=
  clause.body.predicates ++
    match clause.head with
    | .predicate id args => [(id, args)]
    | _ => []

/-- Only declared predicates are applied, to as many arguments as declared. -/
def WellFormed (problem : ChcProblem) : Prop :=
  ∀ c ∈ problem.clauses, ∀ app ∈ apps c, ∃ p, problem.predicates[app.1]? = some p ∧
    app.2.length = p.argSorts.length

/-- Some clause derives `q` from `p`. -/
def DependsOn (problem : ChcProblem) (p q : ℕ) : Prop :=
  ∃ c ∈ problem.clauses, p ∈ c.body.predicates.map Prod.fst ∧ ∃ args, c.head = .predicate q args

/-- No predicate depends on itself. -/
def Acyclic (problem : ChcProblem) : Prop := ∀ p, ¬ Relation.TransGen (DependsOn problem) p p

/-- The targets of the edges out of each of the predicates. -/
def adjacency (n : ℕ) (edges : List (ℕ × ℕ)) : List (List ℕ) :=
  (List.range n).map fun p => (edges.filter fun edge => edge.1 == p).map Prod.snd

/-- `is_acyclic_problem`. -/
def isAcyclicProblem (crate : ExprCrate) (problem : ChcProblem) : Bool :=
  let n := problem.predicates.length
  if n = 0 then true
  else
    let edges := crate.dependencyEdges problem
    if edges.any fun edge => decide (n ≤ edge.1 ∨ n ≤ edge.2) then false
    else (topoSort (adjacency n edges) fun p => decide (p < n)).length == n

theorem getD_adjacency {n : ℕ} {edges : List (ℕ × ℕ)} {p : ℕ} (hp : p < n) :
    (adjacency n edges).getD p [] = (edges.filter fun edge => edge.1 == p).map Prod.snd := by
  simp [adjacency, List.getD_eq_getElem?_getD, List.getElem?_range hp]

theorem length_adjacency {n : ℕ} {edges : List (ℕ × ℕ)} : (adjacency n edges).length = n := by
  simp [adjacency]

theorem mem_adjacency {n : ℕ} {edges : List (ℕ × ℕ)} {p q : ℕ} :
    q ∈ (adjacency n edges).getD p [] ↔ p < n ∧ (p, q) ∈ edges := by
  by_cases hp : p < n
  · rw [getD_adjacency hp]
    simp [hp]
  · rw [List.getD_eq_getElem?_getD, List.getElem?_eq_none (by rw [length_adjacency]; omega)]
    simp [hp]

/-- The walk keeps the invariant of the sorting loop. -/
theorem topoInv_adjacency (n : ℕ) (edges : List (ℕ × ℕ)) :
    ∃ indegree q, TopoInv (adjacency n edges) (fun p => decide (p < n)) indegree q
      (topoSort (adjacency n edges) fun p => decide (p < n)) := by
  rw [topoSort]
  refine TopoInv.loop (fun p hp => ?_) TopoInv.start
  rw [length_adjacency]
  exact of_decide_eq_true hp

section Ranks

variable {crate : ExprCrate} {problem : ChcProblem}

/-- The predicates of a dependency are declared. -/
theorem WellFormed.lt_of_dependsOn (hwf : WellFormed problem) {p q : ℕ}
    (h : DependsOn problem p q) :
    p < problem.predicates.length ∧ q < problem.predicates.length := by
  obtain ⟨c, hc, hp, args, hq⟩ := h
  obtain ⟨app, happ, rfl⟩ := List.mem_map.1 hp
  constructor
  · obtain ⟨pred, hpred, -⟩ := hwf c hc app (List.mem_append_left _ happ)
    exact (List.getElem?_eq_some_iff.1 hpred).1
  · obtain ⟨pred, hpred, -⟩ := hwf c hc (q, args) (List.mem_append_right _ (by simp [hq]))
    exact (List.getElem?_eq_some_iff.1 hpred).1

/-- **Ranks**: an acyclic problem's predicates have ranks that grow along every clause. -/
theorem exists_rank (hcrate : crate.Lawful) (hwf : WellFormed problem)
    (h : isAcyclicProblem crate problem = true) :
    ∃ rank : ℕ → ℕ, (∀ p < problem.predicates.length, rank p < problem.predicates.length) ∧
      ∀ p q, DependsOn problem p q → rank p < rank q := by
  rw [isAcyclicProblem] at h
  split_ifs at h with hn
  · refine ⟨fun _ => 0, fun p hp => by omega, fun p q hpq => ?_⟩
    have := (hwf.lt_of_dependsOn hpq).1
    omega
  · dsimp only at h
    split_ifs at h with hedges
    obtain ⟨indegree, queue, hinv⟩ :=
      topoInv_adjacency problem.predicates.length (crate.dependencyEdges problem)
    set n := problem.predicates.length with hn'
    set order := topoSort (adjacency n (crate.dependencyEdges problem)) fun p => decide (p < n)
    have hlen : order.length = n := eq_of_beq h
    have hnd : order.Nodup := (List.nodup_append.1 hinv.nodup).1
    -- the order holds every predicate
    have hsub : order.toFinset ⊆ Finset.range n := fun p hp => by
      have := (hinv.mem p (List.mem_append_left _ (List.mem_toFinset.1 hp))).2.1
      exact Finset.mem_range.2 (of_decide_eq_true this)
    have hall := Finset.eq_of_subset_of_card_le hsub
      (by rw [List.toFinset_card_of_nodup hnd, hlen, Finset.card_range])
    have hmem : ∀ p < n, p ∈ order := fun p hp =>
      List.mem_toFinset.1 (hall ▸ Finset.mem_range.2 hp)
    refine ⟨order.idxOf, fun p hp => hlen ▸ List.idxOf_lt_length_iff.2 (hmem p hp),
      fun p q hpq => ?_⟩
    obtain ⟨hp, hq⟩ := hwf.lt_of_dependsOn hpq
    refine idxOf_lt_of_sorted hnd (hmem q hq) fun o₁ o₂ ho => hinv.sorted o₁ q o₂ ho p ?_ ?_ ?_
    · rw [length_adjacency]
      exact hp
    · exact decide_eq_true hp
    · exact mem_adjacency.2 ⟨hp, (hcrate.mem_dependencyEdges problem p q).2 hpq⟩

/-- Among finitely many predicates there is no infinite descent along the dependencies. -/
theorem Acyclic.wellFounded (hwf : WellFormed problem) (h : Acyclic problem) :
    WellFounded (DependsOn problem) :=
  wellFounded_of_acyclic (fun _ _ hpq => (hwf.lt_of_dependsOn hpq).1) h

/-- **The walk is exact**: it visits all predicates if and only if none depends on itself. -/
theorem isAcyclicProblem_iff (hcrate : crate.Lawful) (hwf : WellFormed problem) :
    isAcyclicProblem crate problem = true ↔ Acyclic problem := by
  constructor
  · intro h p hp
    obtain ⟨rank, -, hrank⟩ := exists_rank hcrate hwf h
    have hpath : ∀ q, Relation.TransGen (DependsOn problem) p q → rank p < rank q := by
      intro q hq
      induction hq with
      | single hpq => exact hrank _ _ hpq
      | tail _ hqr ih => exact ih.trans (hrank _ _ hqr)
    exact Nat.lt_irrefl _ (hpath p hp)
  · intro hacyclic
    have hedges : ¬ ((crate.dependencyEdges problem).any fun edge =>
        decide (problem.predicates.length ≤ edge.1 ∨ problem.predicates.length ≤ edge.2)) = true :=
      by
        simp only [List.any_eq_true, decide_eq_true_eq, not_exists, not_and]
        rintro ⟨p, q⟩ hpq
        have := hwf.lt_of_dependsOn ((hcrate.mem_dependencyEdges problem p q).1 hpq)
        dsimp only
        omega
    rw [isAcyclicProblem]
    dsimp only
    rw [if_neg hedges]
    split_ifs with hn
    · rfl
    · obtain ⟨indegree, queue, hinv⟩ :=
        topoInv_adjacency problem.predicates.length (crate.dependencyEdges problem)
      have hwfd : WellFounded fun p q => q ∈ (adjacency problem.predicates.length
          (crate.dependencyEdges problem)).getD p [] :=
        Subrelation.wf (fun hpq => (hcrate.mem_dependencyEdges problem _ _).1
          (mem_adjacency.1 hpq).2) (hacyclic.wellFounded hwf)
      have hset : (topoSort (adjacency problem.predicates.length (crate.dependencyEdges problem))
          fun p => decide (p < problem.predicates.length)).toFinset =
            Finset.range problem.predicates.length := by
        ext p
        rw [List.mem_toFinset, Finset.mem_range]
        refine ⟨fun hp => of_decide_eq_true (hinv.mem p (List.mem_append_left _ hp)).2.1,
          fun hp => mem_topoSort_of_wellFounded (fun p hp => ?_) hwfd (decide_eq_true hp)⟩
        rw [length_adjacency]
        exact of_decide_eq_true hp
      rw [beq_iff_eq, ← List.toFinset_card_of_nodup (List.nodup_append.1 hinv.nodup).1, hset,
        Finset.card_range]

end Ranks

end TrustMc.DirectSmt
