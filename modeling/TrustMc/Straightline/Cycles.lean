import Mathlib.Data.List.Dedup
import TrustMc.Flow.Coloring
import TrustMc.Straightline.Prove

/-!
# Loops of the block graph

Two functions look for loops in the graph whose edges lead from a rule's body relation to its
head relation, error relations left out. `hasBlockRelationCycle` colours the graph and decides
whether the array state of the heap may be simplified; `loopRelations` searches from every block
for the block itself and decides whether the prover may answer.

* `BlockEdge`: the graph.
* `hasBlockRelationCycle_iff`, `mem_loopRelations_iff`: each finds the cycles of the graph, of any
  length and in any order in which the hasher iterates.
* `loop_detection_exact`: so they agree.
-/

namespace TrustMc

namespace Straightline

open Flow Relation

/-- The orders in which the hasher iterates the keys of the edge map and its sets. -/
structure HashOrder where
  /-- The order of the keys. -/
  nodes : List String → List String
  /-- The order of the successors of a block. -/
  succs : String → List String → List String
  /-- Every key is met once. -/
  nodes_perm : ∀ l, (nodes l).Perm l
  /-- Every successor is met once. -/
  succs_perm : ∀ v l, (succs v l).Perm l

/-- `has_block_relation_cycle`. A block is taken from the stack with its marker once and as
often as an edge puts it there, which bounds the search. -/
def hasBlockRelationCycle (order : HashOrder) (vc : ChcVc) : Bool :=
  let edges := blockEdges vc
  let nodes := (edges.map (·.1)).dedup
  let next := fun v => order.succs v (successors edges v).dedup
  let fuel := ((edges.map (·.1) ++ edges.map (·.2)).map fun v => (next v).length + 1).sum + 1
  (colorSearches next fuel (order.nodes nodes) fun _ => .unseen).isNone

/-- Some rule leads from the one block to the other. -/
def BlockEdge (vc : ChcVc) (a b : String) : Prop :=
  ∃ rule ∈ vc.rules, rule.body.relation.map (·.name) = some a ∧ rule.head.name = b ∧
    isErrorReachableHead a = false ∧ isErrorReachableHead b = false

theorem mem_blockEdges {vc : ChcVc} {a b : String} : (a, b) ∈ blockEdges vc ↔ BlockEdge vc a b := by
  simp only [blockEdges, List.mem_filterMap, BlockEdge]
  refine exists_congr fun rule => and_congr_right fun _ => ?_
  cases rule.body.relation with
  | none => simp
  | some body =>
    simp only [Option.map_some, Option.some.injEq, Option.ite_none_left_eq_some, Bool.or_eq_true,
      not_or, Bool.not_eq_true, Prod.mk.injEq]
    constructor
    · rintro ⟨⟨hhead, hbody⟩, rfl, rfl⟩
      exact ⟨rfl, rfl, hbody, hhead⟩
    · rintro ⟨rfl, rfl, hbody, hhead⟩
      exact ⟨⟨hhead, hbody⟩, rfl, rfl⟩

theorem mem_successors {edges : List (String × String)} {a b : String} :
    b ∈ successors edges a ↔ (a, b) ∈ edges := by
  simp [successors]

theorem succ_successors (vc : ChcVc) : Succ (successors (blockEdges vc)) = BlockEdge vc := by
  funext a b
  rw [Succ, mem_successors, mem_blockEdges]

/-! ### Colouring -/

/-- **Colouring finds the cycles.** -/
theorem hasBlockRelationCycle_iff (order : HashOrder) (vc : ChcVc) :
    hasBlockRelationCycle order vc = true ↔ ∃ r, TransGen (BlockEdge vc) r r := by
  have hnext : ∀ v w, w ∈ order.succs v (successors (blockEdges vc) v).dedup ↔
      (v, w) ∈ blockEdges vc := fun v w => by
    rw [(order.succs_perm v _).mem_iff, List.mem_dedup, mem_successors]
  have hnodes : ∀ v, v ∈ order.nodes ((blockEdges vc).map (·.1)).dedup ↔
      v ∈ (blockEdges vc).map (·.1) := fun v => by
    rw [(order.nodes_perm _).mem_iff, List.mem_dedup]
  have hsucc : Succ (fun v => order.succs v (successors (blockEdges vc) v).dedup) =
      BlockEdge vc := by
    funext a b
    exact propext ((hnext a b).trans mem_blockEdges)
  rw [hasBlockRelationCycle, Option.isNone_iff_eq_none, ← hsucc]
  refine colorSearches_eq_none_iff ((blockEdges vc).map (·.1) ++ (blockEdges vc).map (·.2))
    (fun v w hw => ?_) (fun v hv => ?_) (fun v w hw => ?_) (by simp [unseenWeight])
  · exact List.mem_append_right _ (List.mem_map_of_mem (f := (·.2)) ((hnext v w).1 hw))
  · exact List.mem_append_left _ ((hnodes v).1 hv)
  · exact (hnodes v).2 (List.mem_map_of_mem (f := (·.1)) ((hnext v w).1 hw))

/-! ### Searching from every block -/

section Search

variable {edges : List (String × String)} {start : String}

/-- The edges that leave unseen blocks, when one more is seen. -/
theorem countP_notMem_cons (edges : List (String × String)) {node : String} {seen : List String}
    (h : node ∉ seen) :
    (successors edges node).length + edges.countP (·.1 ∉ node :: seen) =
      edges.countP (·.1 ∉ seen) := by
  rw [successors, List.length_map, ← List.countP_eq_length_filter]
  induction edges with
  | nil => rfl
  | cons e edges ih =>
    simp only [List.countP_cons, ← ih]
    by_cases hnode : e.1 = node
    · simp [hnode, h]
      omega
    · simp [hnode]
      omega

/-- **What the search finds**: it ends at the start, or with a closed set that lacks the start. -/
theorem reachesStart_spec (edges : List (String × String)) (fuel : ℕ) (stack seen : List String)
    (hfuel : stack.length + edges.countP (·.1 ∉ seen) ≤ fuel) (hstart : start ∉ seen)
    (hclosed : ∀ v ∈ seen, ∀ w ∈ successors edges v, w ∈ seen ∨ w ∈ stack) :
    if reachesStart edges start fuel stack seen then
      ∃ w ∈ stack, ReflTransGen (Succ (successors edges)) w start
    else
      ∃ S : Set String, (∀ v, v ∈ stack ∨ v ∈ seen → v ∈ S) ∧ start ∉ S ∧
        ∀ v ∈ S, ∀ w ∈ successors edges v, w ∈ S := by
  induction fuel generalizing stack seen with
  | zero =>
    obtain rfl : stack = [] := List.length_eq_zero_iff.1 (by omega)
    exact ⟨{v | v ∈ seen}, by simp, hstart, by simpa using hclosed⟩
  | succ fuel ih =>
    cases stack with
    | nil => exact ⟨{v | v ∈ seen}, by simp, hstart, by simpa using hclosed⟩
    | cons node stack =>
      rw [List.length_cons] at hfuel
      rw [reachesStart]
      by_cases hnode : node = start
      · rw [if_pos hnode]
        exact ⟨start, by simp [hnode], .refl⟩
      · rw [if_neg hnode]
        by_cases hseen : node ∈ seen
        · rw [if_pos hseen]
          have hspec := ih stack seen (by omega) hstart fun v hv w hw =>
            (hclosed v hv w hw).elim Or.inl fun hw => (List.mem_cons.1 hw).elim
              (fun hw => Or.inl (hw ▸ hseen)) Or.inr
          split_ifs at hspec ⊢
          · obtain ⟨w, hw, hreach⟩ := hspec
            exact ⟨w, List.mem_cons_of_mem _ hw, hreach⟩
          · obtain ⟨S, hS, hrest⟩ := hspec
            refine ⟨S, fun v hv => ?_, hrest⟩
            rcases hv with hv | hv
            · rcases List.mem_cons.1 hv with rfl | hv
              · exact hS _ (Or.inr hseen)
              · exact hS v (Or.inl hv)
            · exact hS v (Or.inr hv)
        · rw [if_neg hseen]
          have hcount := countP_notMem_cons edges hseen
          have hspec := ih (successors edges node ++ stack) (node :: seen)
            (by rw [List.length_append]; omega) (by simpa [Ne.symm hnode] using hstart) ?_
          · split_ifs at hspec ⊢
            · obtain ⟨w, hw, hreach⟩ := hspec
              rcases List.mem_append.1 hw with hw | hw
              · exact ⟨node, List.mem_cons_self, hreach.head hw⟩
              · exact ⟨w, List.mem_cons_of_mem _ hw, hreach⟩
            · obtain ⟨S, hS, hrest⟩ := hspec
              refine ⟨S, fun v hv => hS v ?_, hrest⟩
              simp only [List.mem_append, List.mem_cons] at hv ⊢
              tauto
          · intro v hv w hw
            simp only [List.mem_append, List.mem_cons]
            rcases List.mem_cons.1 hv with rfl | hv
            · exact Or.inr (Or.inl hw)
            · rcases hclosed v hv w hw with hw | hw
              · exact Or.inl (Or.inr hw)
              · rcases List.mem_cons.1 hw with rfl | hw
                · exact Or.inl (Or.inl rfl)
                · exact Or.inr (Or.inr hw)

/-- The search from the successors of the start finds it exactly when it lies on a cycle. -/
theorem reachesStart_iff :
    reachesStart edges start (2 * edges.length + 1) (successors edges start) [] = true ↔
      TransGen (Succ (successors edges)) start start := by
  have hspec := reachesStart_spec edges (2 * edges.length + 1) (successors edges start) []
    ?_ (List.not_mem_nil (a := start)) (by simp)
  · split_ifs at hspec with h
    · obtain ⟨w, hw, hreach⟩ := hspec
      exact iff_of_true h (.head' hw hreach)
    · obtain ⟨S, hS, hstart, hclosed⟩ := hspec
      refine iff_of_false h fun hcycle => hstart ?_
      -- the closed set holds what the start leads to
      obtain ⟨w, hw, hback⟩ := TransGen.head'_iff.1 hcycle
      exact closed_reflTransGen hclosed (hS w (Or.inl hw)) hback
  · have hlen : (successors edges start).length ≤ edges.length := by
      rw [successors, List.length_map]
      exact List.length_filter_le _ _
    have hcount : edges.countP (·.1 ∉ ([] : List String)) ≤ edges.length := List.countP_le_length
    omega

end Search

/-- **The search from every block finds the blocks on a cycle.** -/
theorem mem_loopRelations_iff {vc : ChcVc} {r : String} :
    r ∈ loopRelations vc ↔ TransGen (BlockEdge vc) r r := by
  rw [loopRelations, List.mem_filter, reachesStart_iff, succ_successors]
  refine and_iff_right_of_imp fun hcycle => ?_
  obtain ⟨w, hw, -⟩ := TransGen.head'_iff.1 hcycle
  exact List.mem_append_left _ (List.mem_map_of_mem (f := (·.1)) (mem_blockEdges.2 hw))

/-- **Loop detection is exact**: colouring says whether the block graph has a cycle, the search
from every block says which blocks lie on one, and so the two agree. -/
theorem loop_detection_exact (order : HashOrder) (vc : ChcVc) :
    (hasBlockRelationCycle order vc = true ↔ ∃ r, TransGen (BlockEdge vc) r r) ∧
      (∀ r, r ∈ loopRelations vc ↔ TransGen (BlockEdge vc) r r) ∧
      (hasBlockRelationCycle order vc = true ↔ loopRelations vc ≠ []) := by
  refine ⟨hasBlockRelationCycle_iff order vc, fun r => mem_loopRelations_iff, ?_⟩
  rw [hasBlockRelationCycle_iff, Ne, List.eq_nil_iff_forall_not_mem, not_forall_not]
  exact exists_congr fun r => mem_loopRelations_iff.symm

end Straightline

end TrustMc
