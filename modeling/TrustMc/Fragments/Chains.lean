import TrustMc.Fragments.Compose

/-!
# The chains of a split fragment

What `generate_fallback_fragment_rules` hands on when a fragment is split at its calls.

* `mem_reachablePredecessors`: the predecessors of a block are the live blocks that lead to it.
* `walkChain_grown`: a walk from a landing pad is a control-flow path of different blocks, and
  every block after the first has the one before it as its only predecessor. `walkChain_fuel`:
  it ends by itself.
* `buildChains_spec`: the chains are disjoint.
-/

namespace TrustMc.Fragments

open LoopUnroll

namespace ChcCtx

variable {M : Mir} {ctx : ChcCtx M}

/-! ### Predecessors -/

/-- The block is reached from the entry of the body, unwinding included. -/
def Live (ctx : ChcCtx M) (v : ℕ) : Prop := Flow.Reachable (fun u w => w ∈ ctx.successors u) 0 v

theorem mem_successors {u w : ℕ} : w ∈ ctx.successors u ↔ ctx.body.Edge true u w := by
  unfold successors kind Body.Edge
  cases ctx.body.blocks[u]? <;> simp

theorem mem_targets {u w : ℕ} : w ∈ ctx.targets u ↔ ctx.body.Edge false u w := by
  unfold targets kind Body.Edge
  cases ctx.body.blocks[u]? <;> simp [TerminatorKind.exits]

theorem mem_successors_of_mem_targets {u w : ℕ} (h : w ∈ ctx.targets u) :
    w ∈ ctx.successors u := by
  obtain ⟨block, hblock, hw⟩ := mem_targets.1 h
  refine mem_successors.2 ⟨block, hblock, ?_⟩
  exact List.mem_append_left _ (by simpa [TerminatorKind.exits] using hw)

theorem lt_of_mem_successors (u w : ℕ) (h : w ∈ ctx.successors u) :
    w < ctx.body.blocks.length := by
  obtain ⟨block, hblock, hw⟩ := mem_successors.1 h
  exact ctx.valid.exits_lt block (List.mem_of_getElem? hblock) w hw

/-- The successors of a block are searched as in any marking search. -/
theorem foldl_predVisit {n : ℕ} (bb : ℕ) {succs : List ℕ} (hlt : ∀ w ∈ succs, w < n)
    (s : PredSearch) :
    (succs.foldl (PredSearch.visit n bb) s).seen =
        (Flow.push (fun q w => w :: q) s.seen s.worklist succs).1 ∧
      (succs.foldl (PredSearch.visit n bb) s).worklist =
        (Flow.push (fun q w => w :: q) s.seen s.worklist succs).2 ∧
      ∀ u w, u ∈ (succs.foldl (PredSearch.visit n bb) s).preds w ↔
        u ∈ s.preds w ∨ (u = bb ∧ w ∈ succs) := by
  induction succs generalizing s with
  | nil => simp [Flow.push]
  | cons x succs ih =>
    rw [List.foldl_cons]
    obtain ⟨hseen, hwork, hpreds⟩ :=
      ih (fun w hw => hlt w (List.mem_cons_of_mem _ hw)) (s.visit n bb x)
    have hx : ¬ n ≤ x := Nat.not_le.2 (hlt x List.mem_cons_self)
    have hvisit : ∀ u w, u ∈ (s.visit n bb x).preds w ↔ u ∈ s.preds w ∨ (u = bb ∧ w = x) := by
      intro u w
      have hsplit : (s.visit n bb x).preds = Function.update s.preds x (bb :: s.preds x) := by
        rw [PredSearch.visit, if_neg hx]
        dsimp only
        split_ifs <;> rfl
      rw [hsplit]
      by_cases hw : w = x
      · subst hw
        simp [or_comm]
      · simp [hw]
    refine ⟨?_, ?_, fun u w => ?_⟩
    · rw [hseen, PredSearch.visit, if_neg hx, Flow.push]
      dsimp only
      split_ifs <;> rfl
    · rw [hwork, PredSearch.visit, if_neg hx, Flow.push]
      dsimp only
      split_ifs <;> rfl
    · rw [hpreds, hvisit, List.mem_cons]
      tauto

/-- The invariant of the search: what is seen is live, and the edges of a block that has left
the worklist are recorded. -/
structure PredInv (ctx : ChcCtx M) (s : PredSearch) : Prop where
  entry : s.seen 0 = true
  sound : ∀ v, s.seen v = true → ctx.Live v
  queued : ∀ v ∈ s.worklist, s.seen v = true
  preds_sound : ∀ u w, u ∈ s.preds w → ctx.Live u ∧ w ∈ ctx.successors u
  done : ∀ v, s.seen v = true → v ∈ s.worklist ∨
    ∀ w ∈ ctx.successors v, s.seen w = true ∧ v ∈ s.preds w

private theorem mem_cons_work (q : List ℕ) (w x : ℕ) :
    x ∈ w :: q ↔ x ∈ q ∨ (x = w ∧ True) := by
  simp [or_comm]

theorem PredInv.step {s : PredSearch} {bb : ℕ} {worklist : List ℕ} (h : ctx.PredInv s)
    (hs : s.worklist = bb :: worklist) :
    ctx.PredInv ((ctx.successors bb).foldl (PredSearch.visit ctx.body.blocks.length bb)
      { s with worklist }) := by
  have hbb : s.seen bb = true := h.queued bb (by simp [hs])
  obtain ⟨hseen, hwork, hpreds⟩ :=
    foldl_predVisit bb (@lt_of_mem_successors _ ctx bb) { s with worklist }
  have hmark : ∀ v, ((ctx.successors bb).foldl (PredSearch.visit ctx.body.blocks.length bb)
      { s with worklist }).seen v = true ↔ s.seen v = true ∨ v ∈ ctx.successors bb := by
    intro v
    rw [hseen, Flow.push_mark]
  have hmem : ∀ v, v ∈ ((ctx.successors bb).foldl (PredSearch.visit ctx.body.blocks.length bb)
      { s with worklist }).worklist ↔
        v ∈ worklist ∨ (v ∈ ctx.successors bb ∧ s.seen v = false) := by
    intro v
    rw [hwork, Flow.push_work mem_cons_work]
    simp
  refine ⟨(hmark 0).2 (.inl h.entry), fun v hv => ?_, fun v hv => ?_, fun u w hu => ?_,
    fun v hv => ?_⟩
  · rcases (hmark v).1 hv with hv | hv
    · exact h.sound v hv
    · exact (h.sound bb hbb).step hv
  · rcases (hmem v).1 hv with hv | ⟨hv, -⟩
    · exact (hmark v).2 (.inl (h.queued v (by simp [hs, hv])))
    · exact (hmark v).2 (.inr hv)
  · rcases (hpreds u w).1 hu with hu | ⟨rfl, hw⟩
    · exact h.preds_sound u w hu
    · exact ⟨h.sound u hbb, hw⟩
  · -- a block is new and queued, is the one dealt with, or was there before
    by_cases hold : s.seen v = true
    · rcases h.done v hold with hv | hv
      · rw [hs] at hv
        rcases List.mem_cons.1 hv with rfl | hv
        · exact .inr fun w hw => ⟨(hmark w).2 (.inr hw), (hpreds v w).2 (.inr ⟨rfl, hw⟩)⟩
        · exact .inl ((hmem v).2 (.inl hv))
      · exact .inr fun w hw =>
          ⟨(hmark w).2 (.inl (hv w hw).1), (hpreds v w).2 (.inl (hv w hw).2)⟩
    · have hnew := ((hmark v).1 hv).resolve_left hold
      exact .inl ((hmem v).2 (.inr ⟨hnew, by simpa using hold⟩))

theorem predLoop_inv {fuel : ℕ} {s : PredSearch} (h : ctx.PredInv s)
    (hfuel : Flow.unmarked ctx.body.blocks.length s.seen + s.worklist.length ≤ fuel) :
    ctx.PredInv (ctx.predLoop fuel s) ∧ (ctx.predLoop fuel s).worklist = [] := by
  induction fuel generalizing s with
  | zero =>
    rw [predLoop]
    exact ⟨h, List.length_eq_zero_iff.1 (by omega)⟩
  | succ fuel ih =>
    rw [predLoop]
    cases hs : s.worklist with
    | nil => exact ⟨h, hs⟩
    | cons bb worklist =>
      refine ih (h.step hs) ?_
      obtain ⟨hseen, hwork, -⟩ :=
        foldl_predVisit bb (@lt_of_mem_successors _ ctx bb) { s with worklist }
      rw [hseen, hwork]
      rw [hs, List.length_cons] at hfuel
      dsimp only
      have hpot := @Flow.push_potential (fun q w => w :: q) ctx.body.blocks.length (by simp)
        s.seen worklist (ctx.successors bb) (lt_of_mem_successors bb)
      omega

theorem PredInv.start :
    ctx.PredInv { preds := fun _ => [], seen := (· == 0), worklist := [0] } where
  entry := by simp
  sound v hv := by
    obtain rfl : v = 0 := by simpa using hv
    exact .entry
  queued v hv := by simpa using hv
  preds_sound u w hu := by simp at hu
  done v hv := by
    obtain rfl : v = 0 := by simpa using hv
    exact .inl (List.mem_singleton_self 0)

/-- **The predecessors** of a block are the live blocks that lead to it. -/
theorem mem_reachablePredecessors {u w : ℕ} :
    u ∈ ctx.reachablePredecessors w ↔ ctx.Live u ∧ w ∈ ctx.successors u := by
  have hfuel : Flow.unmarked ctx.body.blocks.length (· == 0) + 1 ≤ ctx.body.blocks.length := by
    have hinit : Function.update (fun _ => false) 0 true = (· == 0) := by
      funext bb
      by_cases hbb : bb = 0 <;> simp [hbb]
    have hupdate : Flow.unmarked ctx.body.blocks.length (Function.update (fun _ => false) 0 true) +
        1 = Flow.unmarked ctx.body.blocks.length fun _ => false :=
      Flow.unmarked_update ctx.valid.nonempty rfl
    have hle := Flow.unmarked_le ctx.body.blocks.length fun _ => false
    rw [hinit] at hupdate
    omega
  obtain ⟨hinv, hnil⟩ := predLoop_inv PredInv.start hfuel
  have hdone : ∀ v, (ctx.predLoop ctx.body.blocks.length
      { preds := fun _ => [], seen := (· == 0), worklist := [0] }).seen v = true →
        ∀ w ∈ ctx.successors v, (ctx.predLoop ctx.body.blocks.length
            { preds := fun _ => [], seen := (· == 0), worklist := [0] }).seen w = true ∧
          v ∈ ctx.reachablePredecessors w := by
    intro v hv
    refine (hinv.done v hv).resolve_left fun hmem => ?_
    rw [hnil] at hmem
    simp at hmem
  -- by induction on the path: every live block is seen
  have hseen : ∀ v, ctx.Live v → (ctx.predLoop ctx.body.blocks.length
      { preds := fun _ => [], seen := (· == 0), worklist := [0] }).seen v = true := by
    rintro v ⟨p, hp⟩
    induction hp with
    | start => exact hinv.entry
    | step _ hE ih => exact (hdone _ ih _ hE).1
  exact ⟨hinv.preds_sound u w, fun h => (hdone u (hseen u h.1) w h.2).2⟩

/-! ### Walks -/

/-- The block `w` is entered from `u` only. -/
def EnteredFrom (ctx : ChcCtx M) (u w : ℕ) : Prop :=
  w ∈ ctx.successors u ∧ ∀ p, ctx.Live p → w ∈ ctx.successors p → p = u

/-- The block may be on a chain: it is in the fragment, no call block and not unreachable. -/
def Free (ctx : ChcCtx M) (blocks : List ℕ) (b : ℕ) : Prop :=
  b ∈ blocks ∧ b ∉ ctx.callBlocks blocks ∧ ctx.isUnreachable b = false

theorem chainable_iff {blocks assigned : List ℕ} {b : ℕ} :
    ctx.chainable blocks assigned b = true ↔ ctx.Free blocks b ∧ b ∉ assigned := by
  simp only [chainable, unreachableBlocks, Free, Bool.and_eq_true, Bool.not_eq_true',
    List.contains_eq_mem, decide_eq_true_eq, decide_eq_false_iff_not, List.mem_filter,
    not_and, Bool.not_eq_true]
  tauto

section Walk

variable {blocks assigned : List ℕ} {pad : ℕ}

/-- A chain from a landing pad. -/
structure Grown (ctx : ChcCtx M) (blocks assigned : List ℕ) (pad : ℕ) (chain : List ℕ) :
    Prop where
  head : chain.head? = some pad
  path : chain.IsChain ctx.EnteredFrom
  nodup : chain.Nodup
  free : ∀ b ∈ chain, ctx.Free blocks b ∧ b ∉ assigned

theorem Grown.snoc {chain : List ℕ} {current : ℕ}
    (h : ctx.Grown blocks assigned pad chain) (hnew : current ∉ chain)
    (hfree : ctx.Free blocks current ∧ current ∉ assigned)
    (hlink : ∀ u ∈ chain.getLast?, ctx.EnteredFrom u current) :
    ctx.Grown blocks assigned pad (chain ++ [current]) where
  head := by rw [List.head?_append, h.head]; rfl
  path := List.isChain_append.2 ⟨h.path, .singleton _, fun u hu w hw => by
    obtain rfl : current = w := by simpa using hw
    exact hlink u hu⟩
  nodup := List.nodup_append.2 ⟨h.nodup, List.nodup_singleton _, fun a ha b hb => by
    obtain rfl : b = current := by simpa using hb
    exact fun hab => hnew (hab ▸ ha)⟩
  free b hb := by
    rcases List.mem_append.1 hb with hb | hb
    · exact h.free b hb
    · obtain rfl : b = current := by simpa using hb
      exact hfree

theorem mem_of_pickSucc {current next : ℕ} {succs : List ℕ}
    (h : pickSucc blocks current succs = some next) : next ∈ succs := by
  unfold pickSucc at h
  split at h
  · cases h
  · simpa [eq_comm] using h
  · exact List.argmin_mem h

theorem enteredFrom_of_mem_eligibleSuccs {chain : List ℕ} {current next : ℕ}
    (h : next ∈ ctx.eligibleSuccs blocks ctx.reachablePredecessors assigned pad chain current) :
    ctx.EnteredFrom current next := by
  simp only [eligibleSuccs, List.mem_filter, Bool.and_eq_true, List.all_eq_true,
    beq_iff_eq] at h
  exact ⟨h.1, fun p hp hE => h.2.2 p (mem_reachablePredecessors.2 ⟨hp, hE⟩)⟩

/-- **The walk**: it starts at the landing pad, and keeps what it has. -/
theorem walkChain_grown {fuel : ℕ} {chain : List ℕ} {current : ℕ}
    (hpad : ctx.chainable blocks assigned pad = true)
    (h : (chain = [] ∧ current = pad ∧ 0 < fuel) ∨
      (ctx.Grown blocks assigned pad chain ∧
        ∀ u ∈ chain.getLast?, ctx.EnteredFrom u current)) :
    ctx.Grown blocks assigned pad
      (ctx.walkChain blocks ctx.reachablePredecessors assigned pad fuel chain current) := by
  induction fuel generalizing chain current with
  | zero =>
    rcases h with ⟨-, -, h⟩ | h
    · omega
    · exact h.1
  | succ fuel ih =>
    rw [walkChain]
    split_ifs with hstop
    · rcases h with ⟨rfl, rfl, -⟩ | h
      · simp [hpad] at hstop
      · exact h.1
    · simp only [Bool.or_eq_true, List.contains_iff_mem, Bool.not_eq_true', Bool.and_eq_true,
        not_or, Bool.not_eq_false] at hstop
      obtain ⟨⟨hnew, hcur⟩, -⟩ := hstop
      have hgrown : ctx.Grown blocks assigned pad (chain ++ [current]) := by
        rcases h with ⟨rfl, rfl, -⟩ | ⟨h, hlink⟩
        · exact ⟨rfl, .singleton _, List.nodup_singleton _, by simpa using chainable_iff.1 hcur⟩
        · exact h.snoc hnew (chainable_iff.1 hcur) hlink
      split
      · exact hgrown
      · rename_i next hnext
        refine ih (.inr ⟨hgrown, fun u hu => ?_⟩)
        obtain rfl : current = u := by simpa using hu
        exact enteredFrom_of_mem_eligibleSuccs (mem_of_pickSucc hnext)

/-- More fuel does not change a walk: its blocks are different blocks of the fragment. -/
theorem walkChain_fuel {preds : ℕ → List ℕ} {fuel k : ℕ} {chain : List ℕ} {current : ℕ}
    (hnd : chain.Nodup) (hsub : chain ⊆ blocks) (hfuel : blocks.length < chain.length + fuel) :
    ctx.walkChain blocks preds assigned pad (fuel + k) chain current =
      ctx.walkChain blocks preds assigned pad fuel chain current := by
  induction fuel generalizing chain current with
  | zero =>
    have hle := (hnd.subperm hsub).length_le
    omega
  | succ fuel ih =>
    rw [Nat.add_right_comm, walkChain, walkChain]
    split_ifs with hstop
    · rfl
    · simp only [Bool.or_eq_true, List.contains_iff_mem, Bool.not_eq_true', Bool.and_eq_true,
        not_or, Bool.not_eq_false] at hstop
      obtain ⟨⟨hnew, hcur⟩, -⟩ := hstop
      split
      · rfl
      · refine ih (List.nodup_append.2 ⟨hnd, List.nodup_singleton _, fun a ha b hb => ?_⟩)
          (List.append_subset.2 ⟨hsub, ?_⟩) ?_
        · obtain rfl : b = current := by simpa using hb
          exact fun hab => hnew (hab ▸ ha)
        · simpa using (chainable_iff.1 hcur).1.1
        · rw [List.length_append, List.length_singleton]
          omega

end Walk

/-! ### All chains -/

section Build

variable {blocks : List ℕ}

/-- A chain as it is handed on. -/
structure IsWalk (ctx : ChcCtx M) (blocks chain : List ℕ) : Prop where
  ne_nil : chain ≠ []
  path : chain.IsChain ctx.EnteredFrom
  free : ∀ b ∈ chain, ctx.Free blocks b

/-- The chains so far: they are disjoint, and their blocks are the assigned ones. -/
structure Built (ctx : ChcCtx M) (blocks : List ℕ) (s : Chains) : Prop where
  nodup : s.chainEntries.flatten.Nodup
  mem_assigned : ∀ b, b ∈ s.assigned ↔ b ∈ s.chainEntries.flatten
  walks : ∀ chain ∈ s.chainEntries, ctx.IsWalk blocks chain

theorem Built.addChain {s : Chains} (h : ctx.Built blocks s) (callBb : ℕ) :
    ctx.Built blocks (ctx.addChain blocks s callBb) := by
  unfold ChcCtx.addChain
  cases hpad : ctx.landingPad callBb with
  | none => exact h
  | some pad =>
    dsimp only
    by_cases hskip : (!ctx.chainable blocks s.assigned pad) = true
    · rw [if_pos hskip]
      exact h
    · have hgrown := @walkChain_grown _ ctx blocks s.assigned pad (blocks.length + 1) [] pad
        (by simpa using hskip) (.inl ⟨rfl, rfl, by omega⟩)
      have hnil := List.ne_nil_of_mem (List.mem_of_head? hgrown.head)
      rw [if_neg hskip, if_neg hnil]
      refine ⟨?_, fun b => ?_, fun chain hchain => ?_⟩
      · rw [List.flatten_append, List.flatten_singleton]
        refine List.nodup_append.2 ⟨h.nodup, hgrown.nodup, fun a ha b hb hab => ?_⟩
        exact (hgrown.free b hb).2 ((h.mem_assigned b).2 (hab ▸ ha))
      · simp [h.mem_assigned]
      · rcases List.mem_append.1 hchain with hchain | hchain
        · exact h.walks chain hchain
        · rw [List.mem_singleton.1 hchain]
          exact ⟨hnil, hgrown.path, fun b hb => (hgrown.free b hb).1⟩

/-- **The chains** of a fragment: different blocks, each chain entered at its head only. -/
theorem buildChains_spec : ctx.Built blocks (ctx.buildChains blocks) := by
  have hfold : ∀ (calls : List ℕ) (s : Chains), ctx.Built blocks s →
      ctx.Built blocks (calls.foldl (ctx.addChain blocks) s) := by
    intro calls
    induction calls with
    | nil => exact fun s hs => hs
    | cons c calls ih => exact fun s hs => ih _ (hs.addChain c)
  exact hfold _ _ ⟨by simp, by simp, by simp⟩

theorem mem_orphans {b : ℕ} :
    b ∈ ctx.orphans blocks ↔
      ctx.Free blocks b ∧ b ∉ (ctx.buildChains blocks).chainEntries.flatten := by
  rw [orphans, List.mem_filter, chainable_iff, buildChains_spec.mem_assigned]
  exact ⟨fun h => h.2, fun h => ⟨h.1.1, h⟩⟩

end Build

end ChcCtx

end TrustMc.Fragments
