import TrustMc.LoopUnroll.Cfg
import Mathlib.Algebra.Order.BigOperators.Group.Finset
import Mathlib.Data.Fintype.EquivFin

/-!
# The topological order

`TopoInv` is the invariant of the sorting loop: the counts are those of the edges out of blocks
that are not finished, and a finished block comes after all its predecessors. A graph whose
order holds every reachable block has no cycle through one (`acyclic_of_isAcyclic`), and a graph
without cycles is sorted completely (`mem_topoSort_of_wellFounded`).
-/

namespace TrustMc.LoopUnroll

/-- The number of edges to `w` out of reachable blocks outside `order`. -/
def openEdges (successors : List (List ℕ)) (reachable : ℕ → Bool) (order : List ℕ) (w : ℕ) : ℕ :=
  ∑ u ∈ (Finset.range successors.length).filter (fun u => reachable u = true ∧ u ∉ order),
    (successors.getD u []).count w

section TopoSort

variable {successors : List (List ℕ)} {reachable : ℕ → Bool}

theorem countEdges_apply (indegree : ℕ → ℕ) (succs : List ℕ) (w : ℕ) :
    countEdges reachable indegree succs w =
      indegree w + if reachable w then succs.count w else 0 := by
  induction succs generalizing indegree with
  | nil => simp [countEdges]
  | cons succ succs ih =>
    rw [countEdges, List.foldl_cons]
    refine (ih _).trans ?_
    by_cases hs : reachable succ = true
    · rw [if_pos hs, List.count_cons]
      by_cases hw : w = succ
      · subst hw
        simp [hs]
        omega
      · simp [hw, Ne.symm hw]
    · rw [if_neg hs, List.count_cons]
      by_cases hw : w = succ
      · subst hw
        simp [hs]
      · simp [Ne.symm hw]

/-- The counts at the start are those of all edges. -/
theorem indegrees_eq {w : ℕ} (hw : reachable w = true) :
    indegrees successors reachable w = openEdges successors reachable [] w := by
  have key : ∀ (n : ℕ), ((List.range n).foldl
      (fun indegree bb =>
        if !reachable bb then indegree
        else countEdges reachable indegree (successors.getD bb [])) fun _ => 0) w =
      ∑ u ∈ (Finset.range n).filter (fun u => reachable u = true ∧ u ∉ ([] : List ℕ)),
        (successors.getD u []).count w := by
    intro n
    induction n with
    | zero => rfl
    | succ n ih =>
      rw [List.range_succ, List.foldl_append, List.foldl_cons, List.foldl_nil,
        Finset.range_add_one, Finset.filter_insert]
      by_cases hn : reachable n = true
      · simp only [hn, Bool.not_true, Bool.false_eq_true, if_false]
        rw [countEdges_apply, ih, if_pos hw]
        simp [Nat.add_comm]
      · simp only [hn, Bool.not_false, if_true]
        rw [ih]
        simp
  exact key _

/-- Finishing a block takes its edges off the counts. -/
theorem openEdges_finish {order : List ℕ} {bb w : ℕ} (hbb : bb < successors.length)
    (hr : reachable bb = true) (ho : bb ∉ order) :
    openEdges successors reachable order w =
      (successors.getD bb []).count w + openEdges successors reachable (order ++ [bb]) w := by
  have hmem : bb ∈ (Finset.range successors.length).filter
      (fun u => reachable u = true ∧ u ∉ order) := by
    simp [hbb, hr, ho]
  have herase : ((Finset.range successors.length).filter
      (fun u => reachable u = true ∧ u ∉ order)).erase bb =
      (Finset.range successors.length).filter
        (fun u => reachable u = true ∧ u ∉ order ++ [bb]) := by
    ext u
    simp only [Finset.mem_erase, Finset.mem_filter, Finset.mem_range, List.mem_append,
      List.mem_singleton, not_or]
    constructor
    · rintro ⟨hne, hu, hru, huo⟩
      exact ⟨hu, hru, huo, hne⟩
    · rintro ⟨hu, hru, huo, hne⟩
      exact ⟨hne, hu, hru, huo⟩
  rw [openEdges, openEdges, ← herase]
  exact (Finset.add_sum_erase _ _ hmem).symm

theorem source_mem_of_openEdges {order : List ℕ} {u w : ℕ}
    (h : openEdges successors reachable order w = 0) (hu : u < successors.length)
    (hr : reachable u = true) (hE : w ∈ successors.getD u []) : u ∈ order := by
  by_contra ho
  have hmem : u ∈ (Finset.range successors.length).filter
      (fun u => reachable u = true ∧ u ∉ order) := by
    simp [hu, hr, ho]
  have hpos : 0 < (successors.getD u []).count w := List.count_pos_iff.2 hE
  have hzero := Finset.sum_eq_zero_iff.1 h u hmem
  omega

/-- One finished block: the counts of its targets go down, and those that reach zero are
queued. -/
theorem topoRelax_spec {indegree : ℕ → ℕ} {q succs : List ℕ}
    (hle : ∀ w, reachable w = true → succs.count w ≤ indegree w) :
    ∃ new, (topoRelax reachable indegree q succs).2 = q ++ new ∧ new.Nodup ∧
      (∀ w, w ∈ new ↔ reachable w = true ∧ w ∈ succs ∧ indegree w = succs.count w) ∧
      ∀ w, reachable w = true →
        (topoRelax reachable indegree q succs).1 w = indegree w - succs.count w := by
  induction succs generalizing indegree q with
  | nil => exact ⟨[], by simp [topoRelax], by simp, by simp, by simp [topoRelax]⟩
  | cons succ succs ih =>
    by_cases hs : reachable succ = true
    · have hsle := hle succ hs
      rw [List.count_cons_self] at hsle
      have hle' : ∀ w, reachable w = true →
          succs.count w ≤ Function.update indegree succ (indegree succ - 1) w := fun w hw => by
        by_cases hws : w = succ
        · subst hws
          rw [Function.update_self]
          omega
        · have := hle w hw
          rw [List.count_cons_of_ne (Ne.symm hws)] at this
          rwa [Function.update_of_ne hws]
      obtain ⟨new, hq, hnd, hmem, hdeg⟩ :=
        @ih (Function.update indegree succ (indegree succ - 1))
          (if indegree succ - 1 = 0 then q ++ [succ] else q) hle'
      have hrelax : topoRelax reachable indegree q (succ :: succs) =
          topoRelax reachable (Function.update indegree succ (indegree succ - 1))
            (if indegree succ - 1 = 0 then q ++ [succ] else q) succs := by
        rw [topoRelax]
        simp [hs]
      rw [hrelax]
      have hdeg' : ∀ w, reachable w = true →
          Function.update indegree succ (indegree succ - 1) w - succs.count w =
            indegree w - (succ :: succs).count w := fun w hw => by
        by_cases hws : w = succ
        · subst hws
          rw [Function.update_self, List.count_cons_self]
          omega
        · rw [Function.update_of_ne hws, List.count_cons_of_ne (Ne.symm hws)]
      have hother : ∀ w, w ≠ succ → (w ∈ new ↔
          reachable w = true ∧ w ∈ succ :: succs ∧ indegree w = (succ :: succs).count w) :=
        fun w hws => by
          rw [hmem, Function.update_of_ne hws, List.count_cons_of_ne (Ne.symm hws), List.mem_cons]
          simp [hws]
      by_cases hzero : indegree succ - 1 = 0
      · -- the last edge to `succ` is gone
        have hcount : succs.count succ = 0 := by omega
        have hnot : succ ∉ succs := List.count_eq_zero.1 hcount
        have hnew : succ ∉ new := fun h => hnot ((hmem succ).1 h).2.1
        refine ⟨succ :: new, ?_, List.nodup_cons.2 ⟨hnew, hnd⟩, fun w => ?_, fun w hw => ?_⟩
        · rw [hq, if_pos hzero]
          simp
        · by_cases hws : w = succ
          · subst hws
            rw [List.count_cons_self, hcount]
            simp [hs]
            omega
          · rw [List.mem_cons, ← hother w hws]
            simp [hws]
        · rw [hdeg w hw, hdeg' w hw]
      · refine ⟨new, ?_, hnd, fun w => ?_, fun w hw => ?_⟩
        · rw [hq, if_neg hzero]
        · by_cases hws : w = succ
          · subst hws
            rw [hmem, Function.update_self, List.count_cons_self]
            constructor
            · rintro ⟨-, hin, heq⟩
              exact ⟨hs, List.mem_cons_self, by omega⟩
            · rintro ⟨-, -, heq⟩
              exact ⟨hs, List.count_pos_iff.1 (by omega), by omega⟩
          · exact hother w hws
        · rw [hdeg w hw, hdeg' w hw]
    · have hrelax : topoRelax reachable indegree q (succ :: succs) =
          topoRelax reachable indegree q succs := by
        rw [topoRelax]
        simp [hs]
      have hne : ∀ w, reachable w = true → w ≠ succ := by
        rintro w hw rfl
        exact hs hw
      have hcount : ∀ w, reachable w = true → (succ :: succs).count w = succs.count w :=
        fun w hw => List.count_cons_of_ne (Ne.symm (hne w hw))
      obtain ⟨new, hq, hnd, hmem, hdeg⟩ := @ih indegree q fun w hw => by
        rw [← hcount w hw]
        exact hle w hw
      rw [hrelax]
      refine ⟨new, hq, hnd, fun w => ?_, fun w hw => ?_⟩
      · rw [hmem]
        refine and_congr_right fun hw => ?_
        rw [hcount w hw, List.mem_cons]
        simp [hne w hw]
      · rw [hdeg w hw, hcount w hw]

/-- The invariant of the sorting loop. -/
structure TopoInv (successors : List (List ℕ)) (reachable : ℕ → Bool) (indegree : ℕ → ℕ)
    (q order : List ℕ) : Prop where
  nodup : (order ++ q).Nodup
  mem : ∀ w ∈ order ++ q, w < successors.length ∧ reachable w = true ∧ indegree w = 0
  counts : ∀ w, reachable w = true →
    indegree w = openEdges successors reachable order w
  /-- A finished block comes after the sources of the edges to it. -/
  sorted : ∀ o₁ w o₂, order = o₁ ++ w :: o₂ → ∀ u < successors.length, reachable u = true →
    w ∈ successors.getD u [] → u ∈ o₁

theorem TopoInv.start :
    TopoInv successors reachable (indegrees successors reachable)
      ((List.range successors.length).filter fun bb =>
        reachable bb && indegrees successors reachable bb == 0) [] where
  nodup := List.Nodup.filter _ List.nodup_range
  mem w hw := by
    simp only [List.nil_append, List.mem_filter, List.mem_range, Bool.and_eq_true,
      beq_iff_eq] at hw
    exact ⟨hw.1, hw.2⟩
  counts w hw := indegrees_eq hw
  sorted o₁ w o₂ h := by simp at h

/-- **Finishing a block** keeps the invariant. -/
theorem TopoInv.step (hlt : ∀ v, reachable v = true → v < successors.length)
    {indegree : ℕ → ℕ} {bb : ℕ} {q order : List ℕ}
    (h : TopoInv successors reachable indegree (bb :: q) order) :
    TopoInv successors reachable
      (topoRelax reachable indegree q (successors.getD bb [])).1
      (topoRelax reachable indegree q (successors.getD bb [])).2 (order ++ [bb]) := by
  obtain ⟨hbb, hr, hzero⟩ := h.mem bb (by simp)
  have hnodup := h.nodup
  have ho : bb ∉ order := fun hmem =>
    (List.nodup_append.1 hnodup).2.2 bb hmem bb List.mem_cons_self rfl
  have hfin : ∀ w, reachable w = true → indegree w = (successors.getD bb []).count w +
      openEdges successors reachable (order ++ [bb]) w := fun w hw => by
    rw [h.counts w hw]
    exact openEdges_finish hbb hr ho
  obtain ⟨new, hq, hnd, hmem, hdeg⟩ :=
    @topoRelax_spec reachable indegree q (successors.getD bb []) fun w hw => by
      have := hfin w hw
      omega
  rw [hq]
  -- what was finished or queued has no open edges, so it is not queued again
  have hdisj : ∀ w ∈ order ++ bb :: q, w ∉ new := fun w hw hnew => by
    obtain ⟨hrw, hin, heq⟩ := (hmem w).1 hnew
    have hpos : 0 < (successors.getD bb []).count w := List.count_pos_iff.2 hin
    have := (h.mem w hw).2.2
    omega
  have hassoc : order ++ [bb] ++ (q ++ new) = (order ++ bb :: q) ++ new := by simp
  refine ⟨?_, fun w hw => ?_, fun w hw => ?_, fun o₁ w o₂ heq u hu hru hE => ?_⟩
  · rw [hassoc]
    exact List.nodup_append.2 ⟨hnodup, hnd, fun x hx y hy hxy => hdisj x hx (hxy ▸ hy)⟩
  · rw [hassoc, List.mem_append] at hw
    rcases hw with hw | hw
    · obtain ⟨hwn, hrw, hw0⟩ := h.mem w hw
      refine ⟨hwn, hrw, ?_⟩
      rw [hdeg w hrw]
      omega
    · obtain ⟨hrw, hin, heq⟩ := (hmem w).1 hw
      refine ⟨hlt w hrw, hrw, ?_⟩
      rw [hdeg w hrw]
      omega
  · rw [hdeg w hw]
    have := hfin w hw
    omega
  · -- the last finished block has no open edges left
    rcases List.eq_nil_or_concat o₂ with rfl | ⟨o₂', x, rfl⟩
    · obtain ⟨rfl, hw⟩ := List.append_inj' heq rfl
      obtain rfl : bb = w := by simpa using hw
      refine source_mem_of_openEdges ?_ hu hru hE
      rw [← h.counts bb hr, hzero]
    · have heq' : order ++ [bb] = (o₁ ++ w :: o₂') ++ [x] := by simpa using heq
      obtain ⟨horder, -⟩ := List.append_inj' heq' rfl
      exact h.sorted o₁ w o₂' horder u hu hru hE

theorem TopoInv.loop (hlt : ∀ v, reachable v = true → v < successors.length) {fuel : ℕ}
    {indegree : ℕ → ℕ} {q order : List ℕ} (h : TopoInv successors reachable indegree q order) :
    ∃ indegree' q', TopoInv successors reachable indegree' q'
      (topoLoop successors reachable fuel indegree q order) := by
  induction fuel generalizing indegree q order with
  | zero => exact ⟨indegree, q, h⟩
  | succ fuel ih =>
    cases q with
    | nil => exact ⟨indegree, [], h⟩
    | cons bb q =>
      rw [topoLoop]
      exact ih (h.step hlt)

/-- The targets of an edge come after its source. -/
theorem idxOf_lt_of_sorted {order : List ℕ} (hnd : order.Nodup) {u w : ℕ} (hw : w ∈ order)
    (hsorted : ∀ o₁ o₂, order = o₁ ++ w :: o₂ → u ∈ o₁) : order.idxOf u < order.idxOf w := by
  obtain ⟨o₁, o₂, ho⟩ := List.append_of_mem hw
  have huo := hsorted o₁ o₂ ho
  have hwo : w ∉ o₁ := fun hwo => by
    rw [ho] at hnd
    exact (List.nodup_append.1 hnd).2.2 w hwo w List.mem_cons_self rfl
  rw [ho, List.idxOf_append_of_mem huo, List.idxOf_append_of_notMem hwo, List.idxOf_cons_self]
  exact Nat.lt_of_lt_of_le (List.idxOf_lt_length_iff.2 huo) (Nat.le_refl _)

/-- **The order**, complete or not: marked blocks, each once, the targets of edges after their
sources. -/
theorem topoSort_spec (hlt : ∀ v, reachable v = true → v < successors.length) :
    (topoSort successors reachable).Nodup ∧
      (∀ w ∈ topoSort successors reachable, reachable w = true) ∧
      ∀ u, ∀ w ∈ topoSort successors reachable, reachable u = true → w ∈ successors.getD u [] →
        (topoSort successors reachable).idxOf u < (topoSort successors reachable).idxOf w := by
  obtain ⟨indegree, q, hinv⟩ :=
    @TopoInv.loop successors reachable hlt successors.length _ _ _ TopoInv.start
  have hnd : (topoSort successors reachable).Nodup := (List.nodup_append.1 hinv.nodup).1
  refine ⟨hnd, fun w hw => (hinv.mem w (List.mem_append_left _ hw)).2.1, fun u w hw hu hE => ?_⟩
  exact idxOf_lt_of_sorted hnd hw fun o₁ o₂ ho => hinv.sorted o₁ w o₂ ho u (hlt u hu) hu hE

/-- What has no open edges is finished or queued. -/
def TopoFull (reachable : ℕ → Bool) (indegree : ℕ → ℕ) (q order : List ℕ) : Prop :=
  ∀ w, reachable w = true → indegree w = 0 → w ∈ order ++ q

theorem TopoInv.step_full {indegree : ℕ → ℕ} {bb : ℕ} {q order : List ℕ}
    (h : TopoInv successors reachable indegree (bb :: q) order)
    (hfull : TopoFull reachable indegree (bb :: q) order) :
    TopoFull reachable (topoRelax reachable indegree q (successors.getD bb [])).1
      (topoRelax reachable indegree q (successors.getD bb [])).2 (order ++ [bb]) := by
  obtain ⟨hbb, hr, -⟩ := h.mem bb (by simp)
  have ho : bb ∉ order := fun hmem =>
    (List.nodup_append.1 h.nodup).2.2 bb hmem bb List.mem_cons_self rfl
  obtain ⟨new, hq, -, hmem, hdeg⟩ :=
    @topoRelax_spec reachable indegree q (successors.getD bb []) fun w hw => by
      have := openEdges_finish (w := w) hbb hr ho
      rw [← h.counts w hw] at this
      omega
  intro w hw hzero
  rw [hq]
  rw [hdeg w hw] at hzero
  have hle := openEdges_finish (w := w) hbb hr ho
  rw [← h.counts w hw] at hle
  by_cases hin : w ∈ successors.getD bb []
  · have hnew : w ∈ new := (hmem w).2 ⟨hw, hin, by omega⟩
    simp [hnew]
  · have hcount : (successors.getD bb []).count w = 0 := List.count_eq_zero.2 hin
    have hold := hfull w hw (by omega)
    simp only [List.mem_append, List.mem_cons, List.not_mem_nil, or_false] at hold ⊢
    tauto

theorem TopoInv.loop_full (hlt : ∀ v, reachable v = true → v < successors.length) {fuel : ℕ}
    {indegree : ℕ → ℕ} {q order : List ℕ} (h : TopoInv successors reachable indegree q order)
    (hfull : TopoFull reachable indegree q order) :
    ∃ indegree' q', TopoInv successors reachable indegree' q'
        (topoLoop successors reachable fuel indegree q order) ∧
      TopoFull reachable indegree' q' (topoLoop successors reachable fuel indegree q order) ∧
      (q' = [] ∨ (topoLoop successors reachable fuel indegree q order).length =
        order.length + fuel) := by
  induction fuel generalizing indegree q order with
  | zero => exact ⟨indegree, q, h, hfull, .inr rfl⟩
  | succ fuel ih =>
    cases q with
    | nil => exact ⟨indegree, [], h, hfull, .inl rfl⟩
    | cons bb q =>
      rw [topoLoop]
      obtain ⟨indegree', q', hinv, hfull, hend⟩ := ih (h.step hlt) (h.step_full hfull)
      refine ⟨indegree', q', hinv, hfull, hend.imp_right fun hlen => ?_⟩
      rw [hlen, List.length_append, List.length_singleton]
      omega

/-- A vertex without infinite descent from it is sorted: outside the order it would have an open
edge, whose source is outside as well. -/
theorem mem_topoSort_of_acc (hlt : ∀ v, reachable v = true → v < successors.length) {w : ℕ}
    (hacc : Acc (fun u w => w ∈ successors.getD u []) w) (hw : reachable w = true) :
    w ∈ topoSort successors reachable := by
  obtain ⟨indegree, q, hinv, hfull, hend⟩ :=
    @TopoInv.loop_full successors reachable hlt successors.length _ _ _ TopoInv.start
      fun w hw hzero => by simp [hlt w hw, hw, hzero]
  rw [topoSort]
  rcases hend with rfl | hlen
  · induction hacc with
    | intro w _ ih =>
      have hopen : openEdges successors reachable _ w = 0 := Finset.sum_eq_zero fun u hu => by
        simp only [Finset.mem_filter] at hu
        exact List.count_eq_zero.2 fun hE => hu.2.2 (ih u hE hu.2.1)
      rw [← hinv.counts w hw] at hopen
      simpa using hfull w hw hopen
  · -- as many blocks are finished as there are
    have hsub : (topoLoop successors reachable successors.length
        (indegrees successors reachable) ((List.range successors.length).filter fun bb =>
          reachable bb && indegrees successors reachable bb == 0) []).toFinset ⊆
        Finset.range successors.length := fun v hv =>
      Finset.mem_range.2 (hinv.mem v (List.mem_append_left _ (List.mem_toFinset.1 hv))).1
    have heq := Finset.eq_of_subset_of_card_le hsub (by
      rw [List.toFinset_card_of_nodup (List.nodup_append.1 hinv.nodup).1, hlen, Finset.card_range]
      simp)
    exact List.mem_toFinset.1 (heq ▸ Finset.mem_range.2 (hlt w hw))

/-- **A graph without infinite descent is sorted completely.** -/
theorem mem_topoSort_of_wellFounded (hlt : ∀ v, reachable v = true → v < successors.length)
    (hwf : WellFounded fun u w => w ∈ successors.getD u []) {w : ℕ} (hw : reachable w = true) :
    w ∈ topoSort successors reachable :=
  mem_topoSort_of_acc hlt (hwf.apply w) hw

end TopoSort

/-- On finitely many vertices there is no infinite descent along edges without a cycle. -/
theorem wellFounded_of_acyclic {n : ℕ} {E : ℕ → ℕ → Prop} (hlt : ∀ u w, E u w → u < n)
    (h : ∀ v, ¬ Relation.TransGen E v v) : WellFounded E := by
  have hfin : WellFounded fun u w : Fin n => Relation.TransGen E u w := by
    have : IsTrans (Fin n) fun u w : Fin n => Relation.TransGen E u w :=
      ⟨fun _ _ _ h h' => h.trans h'⟩
    have : Std.Irrefl fun u w : Fin n => Relation.TransGen E (u : ℕ) w := ⟨fun v => h v⟩
    exact Finite.wellFounded_of_trans_of_irrefl _
  have hacc : ∀ w : Fin n, Acc E w := fun w =>
    hfin.induction w fun w ih => Acc.intro _ fun u huw => ih ⟨u, hlt u w huw⟩ (.single huw)
  exact ⟨fun w => Acc.intro _ fun u huw => hacc ⟨u, hlt u w huw⟩⟩

section Acyclic

variable {successors : List (List ℕ)}

/-- A complete order holds every reachable block. -/
theorem mem_topoOrder (hcfg : (Cfg.ofSuccessors successors).WellFormed)
    (h : (Cfg.ofSuccessors successors).isAcyclic = true) :
    ∃ order : List ℕ, order.Nodup ∧ (∀ v, v ∈ order ↔ reachableBlocks successors v = true) ∧
      ∀ o₁ w o₂, order = o₁ ++ w :: o₂ → ∀ u, (Cfg.ofSuccessors successors).Edge u w →
        reachableBlocks successors u = true → u ∈ o₁ := by
  have hlt : ∀ v, reachableBlocks successors v = true → v < successors.length := fun v hv =>
    hcfg.lt_of_reachable (hcfg.reachable_iff.1 hv)
  obtain ⟨indegree, q, hinv⟩ := @TopoInv.loop successors (reachableBlocks successors) hlt
    successors.length _ _ _ TopoInv.start
  have hcount : (topoSort successors (reachableBlocks successors)).length =
      (List.range successors.length).countP (reachableBlocks successors) := by
    have hlen := eq_of_beq h
    exact hlen
  generalize hord : topoSort successors (reachableBlocks successors) = order at hcount
  rw [topoSort] at hord
  rw [hord] at hinv
  have hnd : order.Nodup := (List.nodup_append.1 hinv.nodup).1
  have hsub : order.toFinset ⊆
      ((List.range successors.length).filter (reachableBlocks successors)).toFinset := by
    intro v hv
    obtain ⟨hn, hr, -⟩ := hinv.mem v (List.mem_append_left _ (List.mem_toFinset.1 hv))
    simp [hn, hr]
  -- the order and the reachable blocks are equally many
  have heq := Finset.eq_of_subset_of_card_le hsub (by
    rw [List.toFinset_card_of_nodup hnd,
      List.toFinset_card_of_nodup (List.Nodup.filter _ List.nodup_range), hcount,
      List.countP_eq_length_filter])
  refine ⟨order, hnd, fun v => ?_, fun o₁ w o₂ ho u hE hu => ?_⟩
  · rw [← List.mem_toFinset, heq, List.mem_toFinset, List.mem_filter, List.mem_range]
    exact and_iff_right_of_imp (hlt v)
  · exact hinv.sorted o₁ w o₂ ho u (hlt u hu) hu hE

/-- **A complete topological order excludes cycles**: no reachable block leads back to itself. -/
theorem acyclic_of_isAcyclic (hcfg : (Cfg.ofSuccessors successors).WellFormed)
    (h : (Cfg.ofSuccessors successors).isAcyclic = true) {v : ℕ}
    (hv : Flow.Reachable (Cfg.ofSuccessors successors).Edge 0 v) :
    ¬ Relation.TransGen (Cfg.ofSuccessors successors).Edge v v := by
  obtain ⟨order, hnd, hmem, hsorted⟩ := mem_topoOrder hcfg h
  -- along an edge the position in the order grows
  have hedge : ∀ {u w}, Flow.Reachable (Cfg.ofSuccessors successors).Edge 0 u →
      (Cfg.ofSuccessors successors).Edge u w →
        order.idxOf u < order.idxOf w := fun {u w} hu hE =>
    idxOf_lt_of_sorted hnd ((hmem w).2 (hcfg.reachable_iff.2 (hu.step hE))) fun o₁ o₂ ho =>
      hsorted o₁ w o₂ ho u hE (hcfg.reachable_iff.2 hu)
  have hpath : ∀ w, Relation.TransGen (Cfg.ofSuccessors successors).Edge v w →
      Flow.Reachable (Cfg.ofSuccessors successors).Edge 0 w ∧ order.idxOf v < order.idxOf w := by
    intro w hw
    induction hw with
    | single hE => exact ⟨hv.step hE, hedge hv hE⟩
    | tail _ hE ih => exact ⟨ih.1.step hE, Nat.lt_trans ih.2 (hedge ih.1 hE)⟩
  exact fun hcyc => Nat.lt_irrefl _ (hpath v hcyc).2

end Acyclic

end TrustMc.LoopUnroll
