import TrustMc.Native.UnrollSound

/-!
# Retreating edges

The depth-first search of `dfs_retreating_edges`. A node is finished when each of its successors is
finished, or the edge to it is retreating; what is finished is then closed under the other edges,
and finishing a node closes no cycle of them.

* `dfsRetreatingEdges_exact`: without the retreating edges the dependency graph has no cycle, each
  of them lies on a cycle, and so no unrolled problem has one.
-/

namespace TrustMc

namespace Native

open Relation (TransGen ReflTransGen)

/-! ### The search -/

section Search

variable {succs : ℕ → List ℕ}

/-- The edges of the graph. -/
def Leads (succs : ℕ → List ℕ) (u v : ℕ) : Prop := v ∈ succs u

/-- The edges that are not retreating. -/
def Kept (succs : ℕ → List ℕ) (retreating : List (ℕ × ℕ)) (u v : ℕ) : Prop :=
  Leads succs u v ∧ (u, v) ∉ retreating

/-- The successors that have been looked at are finished, or the edge to them is retreating, or the
search is at what is above on the stack. -/
def Examined (succs : ℕ → List ℕ) (st : DfsState) : Option ℕ → List (ℕ × ℕ) → Prop
  | _, [] => True
  | above, (node, next) :: stack =>
    (∀ v ∈ (succs node).take next,
      (node, v) ∈ st.retreating ∨ st.color v = .black ∨ above = some v) ∧
      Examined succs st (some node) stack

/-- What holds throughout the search. -/
structure Searching (succs : ℕ → List ℕ) (stack : List (ℕ × ℕ)) (st : DfsState) : Prop where
  /-- The gray nodes are those on the stack. -/
  gray : ∀ v, st.color v = .gray ↔ v ∈ stack.map Prod.fst
  nodup : (stack.map Prod.fst).Nodup
  /-- A node on the stack is a successor of the one below. -/
  chain : (stack.map Prod.fst).IsChain fun v u => Leads succs u v
  examined : Examined succs st none stack
  /-- What is finished is closed under the other edges. -/
  closed : ∀ u, st.color u = .black → ∀ v, Kept succs st.retreating u v → st.color v = .black
  /-- What is finished is on no cycle of the other edges. -/
  acyclic : ∀ u, st.color u = .black → ¬ TransGen (Kept succs st.retreating) u u
  /-- A retreating edge is on a cycle. -/
  cyclic : ∀ u v, (u, v) ∈ st.retreating →
    Leads succs u v ∧ ReflTransGen (Leads succs) v u

theorem Kept.anti {l l' : List (ℕ × ℕ)} (hl : l ⊆ l') {u v : ℕ} (h : Kept succs l' u v) :
    Kept succs l u v :=
  ⟨h.1, fun hmem => h.2 (hl hmem)⟩

/-- What has been examined stays so. -/
theorem Examined.mono {st st' : DfsState} (hretreating : st.retreating ⊆ st'.retreating)
    (hblack : ∀ v, st.color v = .black → st'.color v = .black) {above : Option ℕ}
    {stack : List (ℕ × ℕ)} (h : Examined succs st above stack) :
    Examined succs st' above stack := by
  induction stack generalizing above with
  | nil => trivial
  | cons p stack ih =>
    refine ⟨fun v hv => ?_, ih h.2⟩
    exact (h.1 v hv).imp (fun hmem => hretreating hmem) (Or.imp_left (hblack v))

/-- What is above on the stack is finished. -/
theorem Examined.finish {st st' : DfsState} (hretreating : st.retreating ⊆ st'.retreating)
    (hblack : ∀ v, st.color v = .black → st'.color v = .black) {node : ℕ}
    {stack : List (ℕ × ℕ)} (h : Examined succs st (some node) stack)
    (hnode : st'.color node = .black) : Examined succs st' none stack := by
  cases stack with
  | nil => trivial
  | cons p stack =>
    have hmono := h.mono hretreating hblack
    refine ⟨fun v hv => ?_, hmono.2⟩
    rcases hmono.1 v hv with hmem | hdone | habove
    · exact .inl hmem
    · exact .inr (.inl hdone)
    · obtain rfl := Option.some.inj habove
      exact .inr (.inl hnode)

/-- The search gets to its node from any below. -/
theorem reach_of_isChain {node u : ℕ} {nodes : List ℕ}
    (h : (node :: nodes).IsChain fun v u => Leads succs u v) (hu : u ∈ node :: nodes) :
    ReflTransGen (Leads succs) u node := by
  induction nodes generalizing node with
  | nil =>
    obtain rfl := List.mem_singleton.1 hu
    exact .refl
  | cons w nodes ih =>
    obtain ⟨hedge, hrest⟩ := List.isChain_cons_cons.1 h
    rcases List.mem_cons.1 hu with rfl | hu
    · exact .refl
    · exact (ih hrest hu).tail hedge

namespace Searching

variable {node next v : ℕ} {stack : List (ℕ × ℕ)} {st : DfsState}

/-- The next successor is looked at. -/
theorem examined_next (h : Searching succs ((node, next) :: stack) st)
    (hv : (succs node)[next]? = some v) {st' : DfsState}
    (hretreating : st.retreating ⊆ st'.retreating)
    (hblack : ∀ u, st.color u = .black → st'.color u = .black) {above : Option ℕ}
    (hnew : (node, v) ∈ st'.retreating ∨ st'.color v = .black ∨ above = some v) :
    Examined succs st' above ((node, next + 1) :: stack) := by
  have hold := h.examined.mono hretreating hblack
  refine ⟨fun w hw => ?_, hold.2⟩
  rw [List.take_add_one, hv, List.mem_append] at hw
  rcases hw with hw | hw
  · exact (hold.1 w hw).imp_right (Or.imp_right fun hnone => nomatch hnone)
  · obtain rfl := List.mem_singleton.1 hw
    exact hnew

/-- **A retreating edge is found.** -/
theorem retreat (h : Searching succs ((node, next) :: stack) st)
    (hv : (succs node)[next]? = some v) (hgray : st.color v = .gray) :
    Searching succs ((node, next + 1) :: stack)
      { st with retreating := st.retreating ++ [(node, v)] } where
  gray := h.gray
  nodup := h.nodup
  chain := h.chain
  examined := by
    refine h.examined_next hv ?_ (fun _ hu => ?_) (.inl ?_)
    · exact List.subset_append_left _ _
    · exact hu
    · exact List.mem_append_right _ (List.mem_singleton_self _)
  closed := fun u hu w hw => h.closed u hu w (hw.anti (List.subset_append_left _ _))
  acyclic := fun u hu hcycle => h.acyclic u hu
    (TransGen.mono (fun _ _ hw => hw.anti (List.subset_append_left _ _)) _ _ hcycle)
  cyclic := fun u w hmem => by
    rcases List.mem_append.1 hmem with hmem | hmem
    · exact h.cyclic u w hmem
    · obtain ⟨rfl, rfl⟩ := Prod.mk.inj (List.mem_singleton.1 hmem)
      exact ⟨List.mem_of_getElem? hv, reach_of_isChain h.chain ((h.gray w).1 hgray)⟩

/-- **A finished successor is passed.** -/
theorem pass (h : Searching succs ((node, next) :: stack) st)
    (hv : (succs node)[next]? = some v) (hblack : st.color v = .black) :
    Searching succs ((node, next + 1) :: stack) st where
  gray := h.gray
  nodup := h.nodup
  chain := h.chain
  examined := h.examined_next hv (List.Subset.refl _) (fun _ hu => hu) (.inr (.inl hblack))
  closed := h.closed
  acyclic := h.acyclic
  cyclic := h.cyclic

/-- A node is put on the stack. -/
theorem push {stack' : List (ℕ × ℕ)} (h : Searching succs stack st) (hwhite : st.color v = .white)
    (hnodes : stack'.map Prod.fst = stack.map Prod.fst)
    (hchain : (v :: stack.map Prod.fst).IsChain fun v u => Leads succs u v)
    (hexamined : Examined succs { st with color := Function.update st.color v .gray } (some v)
      stack') :
    Searching succs ((v, 0) :: stack') { st with color := Function.update st.color v .gray } := by
  have hblack : ∀ u, Function.update st.color v .gray u = .black ↔ st.color u = .black := by
    intro u
    by_cases huv : u = v
    · simp [huv, hwhite]
    · rw [Function.update_of_ne huv]
  have hnew : v ∉ stack.map Prod.fst := fun hmem => by
    rw [← h.gray, hwhite] at hmem
    cases hmem
  refine ⟨fun u => ?_, ?_, ?_, ⟨fun w hw => ?_, hexamined⟩, fun u hu w hw => ?_,
    fun u hu => h.acyclic u ((hblack u).1 hu), h.cyclic⟩
  · rw [List.map_cons, hnodes, List.mem_cons, ← h.gray u]
    by_cases huv : u = v
    · simp [huv]
    · dsimp only
      rw [Function.update_of_ne huv]
      simp [huv]
  · rw [List.map_cons, hnodes]
    exact List.nodup_cons.2 ⟨hnew, h.nodup⟩
  · rwa [List.map_cons, hnodes]
  · rw [List.take_zero] at hw
    cases hw
  · exact (hblack w).2 (h.closed u ((hblack u).1 hu) w hw)

/-- **A successor is discovered.** -/
theorem discover (h : Searching succs ((node, next) :: stack) st)
    (hv : (succs node)[next]? = some v) (hwhite : st.color v = .white) :
    Searching succs ((v, 0) :: (node, next + 1) :: stack)
      { st with color := Function.update st.color v .gray } := by
  refine h.push hwhite rfl (List.isChain_cons_cons.2 ⟨List.mem_of_getElem? hv, h.chain⟩) ?_
  refine h.examined_next hv ?_ (fun u hu => ?_) (.inr (.inr rfl))
  · exact List.Subset.refl _
  · have huv : u ≠ v := by
      rintro rfl
      rw [hwhite] at hu
      cases hu
    exact (Function.update_of_ne huv _ _).trans hu

/-- What is finished is not left by the other edges. -/
theorem black_of_reflTransGen (h : Searching succs stack st) {u w : ℕ}
    (hu : st.color u = .black) (hw : ReflTransGen (Kept succs st.retreating) u w) :
    st.color w = .black := by
  induction hw with
  | refl => exact hu
  | tail _ hedge ih => exact h.closed _ ih _ hedge

/-- **A node is finished.** -/
theorem finish (h : Searching succs ((node, next) :: stack) st)
    (hnone : (succs node)[next]? = none) :
    Searching succs stack { st with color := Function.update st.color node .black } := by
  have hgray : st.color node = .gray := (h.gray node).2 List.mem_cons_self
  obtain ⟨hnew, hnodup⟩ := List.nodup_cons.1 h.nodup
  have hmono : ∀ u, st.color u = .black →
      Function.update st.color node .black u = .black := fun u hu => by
    by_cases hun : u = node
    · simp [hun]
    · rw [Function.update_of_ne hun, hu]
  have hsucc : ∀ v, Kept succs st.retreating node v → st.color v = .black := by
    intro v hv
    have htake : v ∈ (succs node).take next := by
      rw [List.take_of_length_le (List.getElem?_eq_none_iff.1 hnone)]
      exact hv.1
    rcases h.examined.1 v htake with hmem | hblack | habove
    · exact absurd hmem hv.2
    · exact hblack
    · cases habove
  refine ⟨fun u => ?_, hnodup, h.chain.tail, ?_, fun u hu v hv => ?_, fun u hu hcycle => ?_,
    h.cyclic⟩
  · by_cases hun : u = node
    · subst hun
      simpa using hnew
    · dsimp only
      rw [Function.update_of_ne hun, h.gray u]
      simp [hun]
  · refine h.examined.2.finish ?_ hmono (Function.update_self _ _ _)
    exact List.Subset.refl _
  · by_cases hun : u = node
    · subst hun
      exact hmono v (hsucc v hv)
    · have hu : st.color u = .black := (Function.update_of_ne hun _ _).symm.trans hu
      exact hmono v (h.closed u hu v hv)
  · by_cases hun : u = node
    · -- a cycle through the node would lead back to it from what was finished before it
      subst hun
      obtain ⟨v, hv, hback⟩ := Relation.TransGen.head'_iff.1 hcycle
      have hblack := h.black_of_reflTransGen (hsucc v hv) hback
      rw [hgray] at hblack
      cases hblack
    · have hu : st.color u = .black := (Function.update_of_ne hun _ _).symm.trans hu
      exact h.acyclic u hu hcycle

/-- **The search ends** with every node that has been seen finished. -/
theorem dfsLoop {predicateCount : ℕ}
    (hsuccs : ∀ node, ∀ succ ∈ succs node, succ < predicateCount) {n : ℕ}
    (hn : dfsWork succs predicateCount stack st.color ≤ n) (h : Searching succs stack st) :
    Searching succs [] (dfsLoop succs n stack st) ∧
      ∀ v, st.color v ≠ .white → (Native.dfsLoop succs n stack st).color v ≠ .white := by
  induction n generalizing stack st with
  | zero =>
    cases stack with
    | nil => exact ⟨h, fun _ hv => hv⟩
    | cons p stack => simp [dfsWork] at hn
  | succ n ih =>
    rcases stack with _ | ⟨⟨node, next⟩, stack⟩
    · exact ⟨h, fun _ hv => hv⟩
    · rw [Native.dfsLoop.eq_def]
      dsimp only
      have hkeep : ∀ {c : Color} {u v : ℕ}, c ≠ .white → st.color v ≠ .white →
          Function.update st.color u c v ≠ .white := fun {c u v} hc hv => by
        by_cases hvu : v = u
        · simpa [hvu] using hc
        · rwa [Function.update_of_ne hvu]
      cases hnext : (succs node)[next]? with
      | none =>
        obtain ⟨hend, hseen⟩ := ih ((dfsWork_finish _ _ _).trans
          (Nat.le_of_succ_le_succ ((dfsWork_pop node next stack st.color).trans hn)))
          (h.finish hnext)
        exact ⟨hend, fun v hv => hseen v (hkeep (by decide) hv)⟩
      | some succ =>
        have hstep : dfsWork succs predicateCount ((node, next + 1) :: stack) st.color ≤ n :=
          Nat.le_of_succ_le_succ ((dfsWork_next hnext stack st.color).trans_le hn)
        dsimp only
        cases hcolor : st.color succ with
        | gray => exact ih hstep (h.retreat hnext hcolor)
        | black => exact ih hstep (h.pass hnext hcolor)
        | white =>
          have hmem := hsuccs node succ (List.mem_of_getElem? hnext)
          obtain ⟨hend, hseen⟩ :=
            ih ((dfsWork_discover hmem hcolor _).trans_le hstep) (h.discover hnext hcolor)
          exact ⟨hend, fun v hv => hseen v (hkeep (by decide) hv)⟩

end Searching

/-- Before the first search nothing is finished. -/
theorem searching_start : Searching succs [] ⟨fun _ => .white, []⟩ where
  gray := by simp
  nodup := List.nodup_nil
  chain := .nil
  examined := trivial
  closed := by simp
  acyclic := by simp
  cyclic := by simp

/-- A search from a root finishes it. -/
theorem Searching.dfsRoot {predicateCount root : ℕ} {st : DfsState}
    (hsuccs : ∀ node, ∀ succ ∈ succs node, succ < predicateCount) (hroot : root < predicateCount)
    (h : Searching succs [] st) :
    Searching succs [] (dfsRoot succs predicateCount st root) ∧
      ∀ v, v = root ∨ st.color v ≠ .white →
        (Native.dfsRoot succs predicateCount st root).color v ≠ .white := by
  by_cases hwhite : st.color root = .white
  · have hwork : dfsWork succs predicateCount [(root, 0)]
        (Function.update st.color root .gray) ≤ dfsFuel succs predicateCount := by
      rw [dfsWork_discover hroot hwhite]
      exact dfsWork_nil_le st.color
    obtain ⟨hend, hseen⟩ := (h.push hwhite rfl (List.isChain_singleton root) trivial).dfsLoop
      hsuccs hwork
    rw [Native.dfsRoot, if_neg (by simp [hwhite])]
    refine ⟨hend, fun v hv => hseen v ?_⟩
    dsimp only
    by_cases hvroot : v = root
    · simp [hvroot]
    · rw [Function.update_of_ne hvroot]
      exact hv.resolve_left hvroot
  · rw [Native.dfsRoot, if_pos hwhite]
    refine ⟨h, ?_⟩
    rintro v (rfl | hv)
    · exact hwhite
    · exact hv

/-- The searches from several roots finish them. -/
theorem Searching.foldl_dfsRoot {predicateCount : ℕ} {roots : List ℕ} {st : DfsState}
    (hsuccs : ∀ node, ∀ succ ∈ succs node, succ < predicateCount)
    (hroots : ∀ root ∈ roots, root < predicateCount) (h : Searching succs [] st) :
    Searching succs [] (roots.foldl (Native.dfsRoot succs predicateCount) st) ∧
      ∀ v, v ∈ roots ∨ st.color v ≠ .white →
        (roots.foldl (Native.dfsRoot succs predicateCount) st).color v ≠ .white := by
  induction roots generalizing st with
  | nil => exact ⟨h, fun v hv => hv.resolve_left List.not_mem_nil⟩
  | cons root roots ih =>
    obtain ⟨hroot, hseen⟩ := h.dfsRoot hsuccs (hroots root List.mem_cons_self)
    obtain ⟨hend, hrest⟩ := ih (fun r hr => hroots r (List.mem_cons_of_mem _ hr)) hroot
    refine ⟨hend, fun v hv => hrest v ?_⟩
    rcases hv with hv | hv
    · rcases List.mem_cons.1 hv with rfl | hv
      · exact .inr (hseen v (.inl rfl))
      · exact .inl hv
    · exact .inr (hseen v (.inr hv))

end Search

/-! ### The dependency graph -/

section Graph

variable {crate : ChcCrate} {problem : ChcProblem} {n : ℕ}

/-- An edge of the dependency graph, between declared predicates. -/
def DependencyEdge (crate : ChcCrate) (problem : ChcProblem) (n u v : ℕ) : Prop :=
  (u, v) ∈ crate.dependencyEdges problem ∧ u < n ∧ v < n

/-- An edge of the dependency graph that is not retreating. -/
def KeptEdge (crate : ChcCrate) (problem : ChcProblem) (n u v : ℕ) : Prop :=
  DependencyEdge crate problem n u v ∧ (u, v) ∉ dfsRetreatingEdges crate problem n

theorem leads_successors {edges : List (ℕ × ℕ)} {u v : ℕ} :
    Leads (successors edges n) u v ↔ (u, v) ∈ edges ∧ u < n ∧ v < n := by
  rw [Leads, successors, List.mem_map]
  constructor
  · rintro ⟨⟨u', v'⟩, he, rfl⟩
    obtain ⟨hmem, he⟩ := List.mem_filter.1 he
    simp only [Bool.and_eq_true, beq_iff_eq, decide_eq_true_eq] at he
    obtain ⟨⟨rfl, hu⟩, hv⟩ := he
    exact ⟨hmem, hu, hv⟩
  · rintro ⟨hmem, hu, hv⟩
    exact ⟨(u, v), List.mem_filter.2 ⟨hmem, by simp [hu, hv]⟩, rfl⟩

theorem leads_dependencyEdges :
    Leads (successors (crate.dependencyEdges problem) n) = DependencyEdge crate problem n :=
  funext fun _ => funext fun _ => propext leads_successors

/-- What has been found when all searches have ended. -/
theorem exists_searching (crate : ChcCrate) (problem : ChcProblem) (n : ℕ) :
    ∃ st, Searching (successors (crate.dependencyEdges problem) n) [] st ∧
      (∀ v < n, st.color v = .black) ∧
      ∀ e, e ∈ dfsRetreatingEdges crate problem n ↔ e ∈ st.retreating := by
  have hstart : Searching (successors (crate.dependencyEdges problem) n) [] ⟨fun _ => .white, []⟩ :=
    searching_start
  obtain ⟨hend, hseen⟩ := hstart.foldl_dfsRoot (fun _ _ => lt_of_mem_successors)
    (fun _ => List.mem_range.1)
  refine ⟨_, hend, fun v hv => ?_, fun e => ?_⟩
  · have hwhite := hseen v (.inl (List.mem_range.2 hv))
    have hgray := mt (hend.gray v).1 List.not_mem_nil
    revert hwhite hgray
    generalize DfsState.color _ v = c
    cases c <;> simp
  · rw [dfsRetreatingEdges, List.mem_dedup, List.mem_insertionSort]

/-- **Without the retreating edges there is no cycle.** -/
theorem acyclic_dfsRetreatingEdges (crate : ChcCrate) (problem : ChcProblem) (n u : ℕ) :
    ¬ TransGen (KeptEdge crate problem n) u u := by
  obtain ⟨st, hst, hblack, hmem⟩ := exists_searching crate problem n
  intro hcycle
  obtain ⟨v, hv, -⟩ := Relation.TransGen.head'_iff.1 hcycle
  refine hst.acyclic u (hblack u hv.1.2.1) (TransGen.mono (fun v w hvw => ?_) _ _ hcycle)
  exact ⟨leads_successors.2 hvw.1, fun h => hvw.2 ((hmem _).2 h)⟩

/-- **A retreating edge lies on a cycle.** -/
theorem cyclic_of_mem_dfsRetreatingEdges {u v : ℕ}
    (h : (u, v) ∈ dfsRetreatingEdges crate problem n) :
    DependencyEdge crate problem n u v ∧ ReflTransGen (DependencyEdge crate problem n) v u := by
  obtain ⟨st, hst, -, hmem⟩ := exists_searching crate problem n
  obtain ⟨hedge, hback⟩ := hst.cyclic u v ((hmem _).1 h)
  rw [leads_dependencyEdges] at hback
  exact ⟨leads_successors.1 hedge, hback⟩

end Graph

/-! ### The unrolled problem -/

/-- What the lane relies on: the dependency edges are those of the clauses, and a problem has cycles
when its dependency graph has one. -/
structure ChcCrate.LawfulGraph (crate : ChcCrate) : Prop where
  dependency_iff : ∀ p u v, (u, v) ∈ crate.dependencyEdges p ↔ ∃ c ∈ p.clauses,
    (∃ args, c.head = .predicate v args) ∧ ∃ app ∈ c.body.predicates, app.1 = u
  hasCycles_iff : ∀ p, crate.hasCycles p = true ↔
    ∃ u, TransGen (fun v w => (v, w) ∈ crate.dependencyEdges p) u u

/-- A graph in levels has no cycle if there is none within a level. -/
theorem lt_or_transGen_of_levels {α β : Type} {E : α → α → Prop} {K : β → β → Prop}
    (level : α → ℕ) (pos : α → β)
    (hE : ∀ a b, E a b → level a < level b ∨ level a = level b ∧ K (pos a) (pos b)) {a b : α}
    (h : TransGen E a b) :
    level a < level b ∨ level a = level b ∧ TransGen K (pos a) (pos b) := by
  induction h with
  | single hab => exact (hE _ _ hab).imp_right fun hK => ⟨hK.1, .single hK.2⟩
  | tail _ hbc ih =>
    rcases ih, hE _ _ hbc with ⟨hlt | ⟨heq, hK⟩, hlt' | ⟨heq', hK'⟩⟩
    · exact .inl (hlt.trans hlt')
    · exact .inl (heq' ▸ hlt)
    · exact .inl (heq ▸ hlt')
    · exact .inr ⟨heq.trans heq', hK.tail hK'⟩

section Levels

variable {crate : ChcCrate} {problem : ChcProblem} {levelPredicates : List (List ℕ)}
  {edges : List (ℕ × ℕ)} {count k : ℕ}

theorem levelId_eq_some (hlp : Consecutive levelPredicates count k) {l i id : ℕ}
    (h : levelId levelPredicates l i = some id) : i < count ∧ id = l * count + i := by
  rw [hlp] at h
  split_ifs at h with hlt
  exact ⟨hlt.2, (Option.some.inj h).symm⟩

/-- An edge of a copy stays in its level, or is retreating and leads to the next. -/
theorem edge_of_copyClause (hlp : Consecutive levelPredicates count k) {l : ℕ}
    {c c' : HornClause} (hlinear : c.body.predicates.length ≤ 1)
    (h : copyClause levelPredicates edges (k + 1) l c = some (some c')) {b : ℕ}
    {args' : List ChcExpr} (hhead : c'.head = .predicate b args') {app' : ℕ × List ChcExpr}
    (happ : app' ∈ c'.body.predicates) :
    ∃ u v, (∃ args, c.head = .predicate v args) ∧ (∃ app ∈ c.body.predicates, app.1 = u) ∧
      u < count ∧ v < count ∧ app'.1 = l * count + u ∧
      ((u, v) ∉ edges ∧ b = l * count + v ∨ b = (l + 1) * count + v) := by
  rw [copyClause] at h
  by_cases hskip : c.body.predicates.isEmpty ∧ 0 < l
  · rw [if_pos hskip] at h
    cases h
  · rw [if_neg hskip] at h
    obtain ⟨apps', hmap, h⟩ := Option.bind_eq_some_iff.1 h
    cases hc : c.head with
    | unrecognized => simp [hc] at h
    | false =>
      simp only [hc, Option.some.injEq] at h
      subst h
      cases hhead
    | predicate v args =>
      simp only [hc] at h
      generalize hlevel : (if isBackEdge edges c v = true then l + 1 else l) = l' at h
      have hover : ¬ k + 1 ≤ l' := fun hover => by
        rw [if_pos hover] at h
        cases h
      rw [if_neg hover] at h
      obtain ⟨id, hid, h⟩ := Option.map_eq_some_iff.1 h
      obtain rfl := Option.some.inj h
      obtain ⟨rfl, -⟩ := ClauseHead.predicate.inj hhead
      -- the body is one application
      obtain ⟨app, hbody⟩ : ∃ app, c.body.predicates = [app] := by
        refine List.length_eq_one_iff.1 (Nat.le_antisymm hlinear (Nat.pos_of_ne_zero fun hnil => ?_))
        rw [List.length_eq_zero_iff.1 hnil] at hmap
        obtain rfl : apps' = [] := by simpa using hmap.symm
        cases happ
      rw [hbody, List.mapM_cons] at hmap
      obtain ⟨app₁, happ₁, hmap⟩ := Option.bind_eq_some_iff.1 hmap
      obtain rfl : apps' = [app₁] := by simpa using hmap.symm
      obtain ⟨u', hu', rfl⟩ := Option.map_eq_some_iff.1 happ₁
      obtain rfl := List.mem_singleton.1 happ
      obtain ⟨hu, rfl⟩ := levelId_eq_some hlp hu'
      obtain ⟨hv, rfl⟩ := levelId_eq_some hlp hid
      refine ⟨app.1, v, ⟨args, rfl⟩, ⟨app, by simp [hbody], rfl⟩, hu, hv, rfl, ?_⟩
      subst hlevel
      have hback : isBackEdge edges c v = edges.contains (app.1, v) := by
        rw [isBackEdge, hbody]
        rfl
      by_cases hmem : (app.1, v) ∈ edges
      · rw [hback, if_pos (List.contains_iff_mem.2 hmem)]
        exact .inr rfl
      · rw [hback, if_neg (mt List.contains_iff_mem.1 hmem)]
        exact .inl ⟨hmem, rfl⟩

/-- The problem that is built before its cycles are looked for. -/
def builtUnroll (crate : ChcCrate) (problem : ChcProblem) (levels : ℕ) : Option ChcProblem :=
  let (unrolled, levelPredicates) :=
    declareLevels crate problem.predicates (List.range levels) crate.new
  addCopies crate
    (fun lc => copyClause levelPredicates
      (dfsRetreatingEdges crate problem problem.predicates.length) levels lc.1 lc.2)
    (leveledClauses levels problem.clauses) unrolled

/-- An edge of the built problem stays in its level, along an edge that is not retreating, or leads
to the next. -/
theorem edge_of_builtUnroll (hc : crate.Lawful) (hg : crate.LawfulGraph)
    (hdom : inDomain crate problem = true) {unrolled : ChcProblem}
    (h : builtUnroll crate problem (k + 1) = some unrolled) {a b : ℕ}
    (hedge : (a, b) ∈ crate.dependencyEdges unrolled) :
    ∃ l u v, DependencyEdge crate problem problem.predicates.length u v ∧
      a = l * problem.predicates.length + u ∧
      ((u, v) ∉ dfsRetreatingEdges crate problem problem.predicates.length ∧
          b = l * problem.predicates.length + v ∨
        b = (l + 1) * problem.predicates.length + v) := by
  simp only [inDomain, Bool.and_eq_true, Bool.not_eq_true', List.any_eq_false,
    decide_eq_true_eq] at hdom
  obtain ⟨⟨⟨⟨-, hlinear⟩, -⟩, hfree⟩, -⟩ := hdom
  obtain ⟨hclauses, hlp⟩ := consecutive_declareLevels hc hfree k
  obtain ⟨-, hmem⟩ := mem_addCopies hc h
  obtain ⟨c', hc', ⟨args', hhead⟩, app', happ, rfl⟩ := (hg.dependency_iff _ _ _).1 hedge
  rw [hmem, hclauses] at hc'
  obtain ⟨⟨l, c⟩, hlc, hcopy⟩ := hc'.resolve_left (by simp)
  obtain ⟨-, hcl⟩ := mem_leveledClauses.1 hlc
  obtain ⟨u, v, hv, hu, hu', hv', ha, hb⟩ :=
    edge_of_copyClause hlp (Nat.le_of_not_lt (hlinear c hcl)) hcopy hhead happ
  exact ⟨l, u, v, ⟨(hg.dependency_iff _ _ _).2 ⟨c, hcl, hv, hu⟩, hu', hv'⟩, ha, hb⟩

theorem div_mod_level {l u : ℕ} (hu : u < count) :
    (l * count + u) / count = l ∧ (l * count + u) % count = u :=
  (Nat.div_mod_unique (Nat.zero_lt_of_lt hu)).2 ⟨by rw [Nat.mul_comm, Nat.add_comm], hu⟩

/-- **What is built has no cycle.** -/
theorem hasCycles_builtUnroll (hc : crate.Lawful) (hg : crate.LawfulGraph)
    (hdom : inDomain crate problem = true) {unrolled : ChcProblem}
    (h : builtUnroll crate problem (k + 1) = some unrolled) :
    crate.hasCycles unrolled = false := by
  rw [Bool.eq_false_iff, Ne, hg.hasCycles_iff]
  rintro ⟨a, hcycle⟩
  set n := problem.predicates.length
  have hlevels : ∀ a b, (a, b) ∈ crate.dependencyEdges unrolled → a / n < b / n ∨
      a / n = b / n ∧ KeptEdge crate problem n (a % n) (b % n) := by
    intro a b hab
    obtain ⟨l, u, v, hedge, rfl, hb⟩ := edge_of_builtUnroll hc hg hdom h hab
    obtain ⟨hdiv, hmod⟩ := div_mod_level (l := l) hedge.2.1
    rw [hdiv, hmod]
    rcases hb with ⟨hkept, rfl⟩ | rfl
    · obtain ⟨hdiv', hmod'⟩ := div_mod_level (l := l) hedge.2.2
      rw [hdiv', hmod']
      exact .inr ⟨rfl, hedge, hkept⟩
    · rw [(div_mod_level hedge.2.2).1]
      exact .inl (Nat.lt_succ_self l)
  rcases lt_or_transGen_of_levels (· / n) (· % n) hlevels hcycle with hlt | ⟨-, hcycle⟩
  · exact Nat.lt_irrefl _ hlt
  · exact acyclic_dfsRetreatingEdges _ _ _ _ hcycle

end Levels

/-- **Removing the retreating edges leaves an acyclic graph.** For every graph of dependency edges
each retreating edge lies on a cycle, the other edges have no cycle, and the check for cycles that
an unrolled problem undergoes at the end never fails. -/
theorem dfsRetreatingEdges_exact (crate : ChcCrate) (problem : ChcProblem) :
    (∀ n u, ¬ TransGen (KeptEdge crate problem n) u u) ∧
      (∀ n u v, (u, v) ∈ dfsRetreatingEdges crate problem n →
        DependencyEdge crate problem n u v ∧
          ReflTransGen (DependencyEdge crate problem n) v u) ∧
      (crate.Lawful → crate.LawfulGraph → inDomain crate problem = true →
        ∀ k unrolled, builtUnroll crate problem (k + 1) = some unrolled →
          crate.hasCycles unrolled = false) := by
  refine ⟨acyclic_dfsRetreatingEdges crate problem, fun n u v => ?_, fun hc hg hdom k u hu => ?_⟩
  · exact cyclic_of_mem_dfsRetreatingEdges
  · exact hasCycles_builtUnroll hc hg hdom hu

/-! ### The counter loop -/

/-- Above the indices of all predicates of the clauses. -/
def edgeBound (p : ChcProblem) : ℕ := ((clauseEdges p).map fun e => e.1 + e.2 + 1).sum

/-- The crate over lists, in which a cycle is looked for among all edges. -/
def graphCrate : ChcCrate :=
  { listCrate with
    hasCycles := fun p => !(dfsRetreatingEdges listCrate p (edgeBound p)).isEmpty }

theorem graphCrate_lawful : graphCrate.Lawful where
  predicates_new := listCrate_lawful.predicates_new
  clauses_new := listCrate_lawful.clauses_new
  declare_fresh := listCrate_lawful.declare_fresh
  clauses_declare := listCrate_lawful.clauses_declare
  clauses_add := listCrate_lawful.clauses_add

theorem dependencyEdge_edgeBound {p : ChcProblem} {u v : ℕ} :
    DependencyEdge listCrate p (edgeBound p) u v ↔ (u, v) ∈ clauseEdges p := by
  refine ⟨fun h => h.1, fun h => ?_⟩
  have hle : u + v + 1 ≤ edgeBound p :=
    List.le_sum_of_mem (List.mem_map_of_mem (f := fun e : ℕ × ℕ => e.1 + e.2 + 1) h)
  exact ⟨h, by omega, by omega⟩

theorem mem_clauseEdges {p : ChcProblem} {u v : ℕ} : (u, v) ∈ clauseEdges p ↔
    ∃ c ∈ p.clauses, (∃ args, c.head = .predicate v args) ∧
      ∃ app ∈ c.body.predicates, app.1 = u := by
  rw [clauseEdges, List.mem_flatMap]
  refine exists_congr fun c => and_congr_right fun _ => ?_
  cases hhead : c.head with
  | predicate id args => simp [eq_comm, and_comm]
  | false => simp
  | unrecognized => simp

theorem graphCrate_lawfulGraph : graphCrate.LawfulGraph where
  dependency_iff := fun _ _ _ => mem_clauseEdges
  hasCycles_iff := fun p => by
    have hedge : DependencyEdge listCrate p (edgeBound p) = fun v w => (v, w) ∈ clauseEdges p :=
      funext fun _ => funext fun _ => propext dependencyEdge_edgeBound
    change (!(dfsRetreatingEdges listCrate p (edgeBound p)).isEmpty) = true ↔
      ∃ u, TransGen (fun v w => (v, w) ∈ clauseEdges p) u u
    rw [← hedge, Bool.not_eq_true', List.isEmpty_eq_false_iff]
    constructor
    · intro hne
      obtain ⟨⟨u, v⟩, hmem⟩ := List.exists_mem_of_ne_nil _ hne
      obtain ⟨huv, hback⟩ := cyclic_of_mem_dfsRetreatingEdges hmem
      exact ⟨u, TransGen.head' huv hback⟩
    · rintro ⟨u, hcycle⟩ hnil
      refine acyclic_dfsRetreatingEdges listCrate p (edgeBound p) u
        (TransGen.mono (fun v w hvw => ⟨hvw, ?_⟩) _ _ hcycle)
      rw [hnil]
      exact List.not_mem_nil

theorem dfsRetreatingEdges_exact_counterLoop :
    (1, 1) ∈ dfsRetreatingEdges graphCrate (counterLoop 100 1) 2 ∧
      ReflTransGen (DependencyEdge graphCrate (counterLoop 100 1) 2) 1 1 ∧
      ∃ unrolled, builtUnroll graphCrate (counterLoop 100 1) 2 = some unrolled ∧
        graphCrate.hasCycles unrolled = false := by
  have hmem : (1, 1) ∈ dfsRetreatingEdges graphCrate (counterLoop 100 1) 2 := by decide +kernel
  have hbuilt : (builtUnroll graphCrate (counterLoop 100 1) 2).isSome := by decide +kernel
  obtain ⟨unrolled, hunrolled⟩ := Option.isSome_iff_exists.1 hbuilt
  obtain ⟨-, hcyclic, hchecked⟩ := dfsRetreatingEdges_exact graphCrate (counterLoop 100 1)
  exact ⟨hmem, (hcyclic 2 1 1 hmem).2, unrolled, hunrolled,
    hchecked graphCrate_lawful graphCrate_lawfulGraph (by decide +kernel) 1 unrolled hunrolled⟩

end Native

end TrustMc
