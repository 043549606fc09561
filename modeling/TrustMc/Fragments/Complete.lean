import TrustMc.Fragments.Analyze
import TrustMc.LoopUnroll.DominatorsExact

/-!
# Fragments lose no block exactly when the cut points cut every cycle

A fragment is sorted by Kahn's algorithm, which leaves out the blocks of a cycle and all that
comes after it. The cut points are the entry, the returns and the loop headers, and a loop
header is a block that dominates the source of an edge to it; in an irreducible graph there are
cycles without one.

* `Inside`: the blocks reached from a cut point without passing another one.
* `explore_spec`: the search finds these blocks and the edges that leave them.
* `fragments_complete_iff`: the fragments hold every reachable block and every edge if and only
  if every cycle of reachable blocks contains the entry or a loop header (`CyclesCut`).
-/

namespace TrustMc.Fragments

open LoopUnroll

/-! ### The search -/

section Explore

variable {cfg : Cfg} {cut : ℕ → Bool} {entry : ℕ}

/-- The block is reached from the entry of the fragment without passing a cut point. -/
def Inside (cfg : Cfg) (cut : ℕ → Bool) (entry b : ℕ) : Prop :=
  Relation.ReflTransGen (fun u w => cfg.Edge u w ∧ cut w = false) entry b

theorem Inside.reachable (hr : Flow.Reachable cfg.Edge 0 entry) {b : ℕ}
    (h : Inside cfg cut entry b) : Flow.Reachable cfg.Edge 0 b := by
  induction h with
  | refl => exact hr
  | tail _ hE ih => exact ih.step hE.1

/-- The blocks of a fragment other than its entry are no cut points. -/
theorem Inside.eq_or_cut {b : ℕ} (h : Inside cfg cut entry b) : b = entry ∨ cut b = false := by
  rcases Relation.ReflTransGen.cases_tail h with h | ⟨u, -, hE⟩
  · exact .inl h
  · exact .inr hE.2

theorem visit_eq (hcut : cut entry = true) (bb : ℕ) (s : Region) (succ : ℕ) :
    s.visit cfg cut entry bb succ =
      if !cfg.reachable succ then s
      else if cut succ then { s with exits := s.exits ++ [(bb, succ)] }
      else if s.blocks succ then s
      else { s with
        blocks := Function.update s.blocks succ true, queue := s.queue ++ [succ] } := by
  by_cases hsucc : succ = entry
  · subst hsucc
    simp [Region.visit, hcut]
  · simp [Region.visit, hsucc]

/-- The successors of a block are pushed as in any marking search, and those that are cut
points become exits. -/
theorem foldl_visit (hcut : cut entry = true) (bb : ℕ) (succs : List ℕ) (s : Region) :
    succs.foldl (Region.visit cfg cut entry bb) s =
      { blocks := (Flow.push (fun q succ => q ++ [succ]) s.blocks s.queue
          (succs.filter fun succ => cfg.reachable succ && !cut succ)).1
        queue := (Flow.push (fun q succ => q ++ [succ]) s.blocks s.queue
          (succs.filter fun succ => cfg.reachable succ && !cut succ)).2
        exits := s.exits ++
          (succs.filter fun succ => cfg.reachable succ && cut succ).map (bb, ·) } := by
  induction succs generalizing s with
  | nil => simp [Flow.push]
  | cons succ succs ih =>
    rw [List.foldl_cons, ih, visit_eq hcut]
    by_cases hr : cfg.reachable succ = true
    · by_cases hc : cut succ = true
      · simp [hr, hc]
      · by_cases hb : s.blocks succ = true
        · simp [hr, hc, hb, Flow.push]
        · simp [hr, hc, hb, Flow.push]
    · simp [hr]

/-- The invariant of the search: what is found is inside the fragment, and a block that is not
queued any more has been dealt with. -/
structure RegionInv (cfg : Cfg) (cut : ℕ → Bool) (entry : ℕ) (s : Region) : Prop where
  entry_mem : s.blocks entry = true
  sound : ∀ b, s.blocks b = true → Inside cfg cut entry b
  queued : ∀ b ∈ s.queue, s.blocks b = true
  exits_sound : ∀ e ∈ s.exits, s.blocks e.1 = true ∧ cfg.Edge e.1 e.2 ∧ cut e.2 = true
  done : ∀ b, s.blocks b = true → b ∈ s.queue ∨ ∀ w, cfg.Edge b w →
    if cut w then (b, w) ∈ s.exits else s.blocks w = true

private theorem mem_enqueue (q : List ℕ) (succ x : ℕ) :
    x ∈ q ++ [succ] ↔ x ∈ q ∨ (x = succ ∧ True) := by
  simp

/-- **One block** of the queue is dealt with. -/
theorem RegionInv.step (hcfg : cfg.WellFormed) (hcut : cut entry = true)
    (hr : Flow.Reachable cfg.Edge 0 entry) {s : Region} {bb : ℕ} {queue : List ℕ}
    (hs : RegionInv cfg cut entry s) (hq : s.queue = bb :: queue) :
    RegionInv cfg cut entry
      ((cfg.succs bb).foldl (Region.visit cfg cut entry bb) { s with queue }) := by
  have hbb : s.blocks bb = true := hs.queued bb (by simp [hq])
  have hin := hs.sound bb hbb
  have hreach : ∀ w, cfg.Edge bb w → cfg.reachable w = true := fun w hE =>
    hcfg.reachable_iff.2 ((hin.reachable hr).step hE)
  rw [foldl_visit hcut]
  have hmark : ∀ b, (Flow.push (fun q succ => q ++ [succ]) s.blocks queue
      ((cfg.succs bb).filter fun succ => cfg.reachable succ && !cut succ)).1 b = true ↔
        s.blocks b = true ∨ (cfg.Edge bb b ∧ cut b = false) := by
    intro b
    rw [Flow.push_mark, List.mem_filter]
    refine or_congr_right ⟨fun h => ?_, fun h => ⟨h.1, by simp [hreach b h.1, h.2]⟩⟩
    have hc : cfg.reachable b = true ∧ cut b = false := by simpa using h.2
    exact ⟨h.1, hc.2⟩
  have hwork : ∀ b, b ∈ (Flow.push (fun q succ => q ++ [succ]) s.blocks queue
      ((cfg.succs bb).filter fun succ => cfg.reachable succ && !cut succ)).2 ↔
        b ∈ queue ∨ (cfg.Edge bb b ∧ cut b = false ∧ s.blocks b = false) := by
    intro b
    rw [Flow.push_work mem_enqueue, List.mem_filter]
    refine or_congr_right ⟨fun h => ?_, fun h => ?_⟩
    · have hc : cfg.reachable b = true ∧ cut b = false := by simpa using h.1.2
      exact ⟨h.1.1, hc.2, h.2.1⟩
    · exact ⟨⟨h.1, by simp [hreach b h.1, h.2.1]⟩, h.2.2, trivial⟩
  have hexits : ∀ e, e ∈ s.exits ++
      ((cfg.succs bb).filter fun succ => cfg.reachable succ && cut succ).map (bb, ·) ↔
        e ∈ s.exits ∨ (e.1 = bb ∧ cfg.Edge bb e.2 ∧ cut e.2 = true) := by
    rintro ⟨u, w⟩
    simp only [List.mem_append, List.mem_map, List.mem_filter, Bool.and_eq_true, Prod.mk.injEq]
    refine or_congr_right ⟨?_, ?_⟩
    · rintro ⟨w', ⟨hE, -, hc⟩, rfl, rfl⟩
      exact ⟨rfl, hE, hc⟩
    · rintro ⟨rfl, hE, hc⟩
      exact ⟨w, ⟨hE, hreach w hE, hc⟩, rfl, rfl⟩
  refine ⟨(hmark _).2 (.inl hs.entry_mem), fun b hb => ?_, fun b hb => ?_, fun e he => ?_,
    fun b hb => ?_⟩
  · rcases (hmark b).1 hb with hb | hb
    · exact hs.sound b hb
    · exact hin.tail hb
  · rcases (hwork b).1 hb with hb | ⟨hE, hc, -⟩
    · exact (hmark b).2 (.inl (hs.queued b (by simp [hq, hb])))
    · exact (hmark b).2 (.inr ⟨hE, hc⟩)
  · rcases (hexits e).1 he with he | ⟨he, hE, hc⟩
    · obtain ⟨hu, hE, hc⟩ := hs.exits_sound e he
      exact ⟨(hmark _).2 (.inl hu), hE, hc⟩
    · rw [he]
      exact ⟨(hmark _).2 (.inl hbb), hE, hc⟩
  · -- a block is new and queued, is the one dealt with, or was there before
    have hlater : ∀ {b}, (∀ w, cfg.Edge b w →
        if cut w then (b, w) ∈ s.exits else s.blocks w = true) → ∀ w, cfg.Edge b w →
          if cut w then (b, w) ∈ s.exits ++
            ((cfg.succs bb).filter fun succ => cfg.reachable succ && cut succ).map (bb, ·)
          else (Flow.push (fun q succ => q ++ [succ]) s.blocks queue
            ((cfg.succs bb).filter fun succ => cfg.reachable succ && !cut succ)).1 w = true := by
      intro b h w hE
      have hw := h w hE
      by_cases hc : cut w = true
      · rw [if_pos hc] at hw ⊢
        exact (hexits _).2 (.inl hw)
      · rw [if_neg hc] at hw ⊢
        exact (hmark w).2 (.inl hw)
    by_cases hold : s.blocks b = true
    · rcases hs.done b hold with hb | hb
      · rw [hq] at hb
        rcases List.mem_cons.1 hb with rfl | hb
        · refine .inr fun w hE => ?_
          by_cases hc : cut w = true
          · rw [if_pos hc]
            exact (hexits _).2 (.inr ⟨rfl, hE, hc⟩)
          · rw [if_neg hc]
            exact (hmark w).2 (.inr ⟨hE, by simpa using hc⟩)
        · exact .inl ((hwork b).2 (.inl hb))
      · exact .inr (hlater hb)
    · rcases (hmark b).1 hb with hb | ⟨hE, hc⟩
      · exact absurd hb hold
      · exact .inl ((hwork b).2 (.inr ⟨hE, hc, by simpa using hold⟩))

/-- Dealing with a block uses up one of the blocks not found or not dealt with. -/
theorem foldl_visit_potential (hcfg : cfg.WellFormed) (hcut : cut entry = true) {s : Region}
    {bb : ℕ} {queue : List ℕ} (hq : s.queue = bb :: queue) :
    Flow.unmarked cfg.size
        ((cfg.succs bb).foldl (Region.visit cfg cut entry bb) { s with queue }).blocks +
      ((cfg.succs bb).foldl (Region.visit cfg cut entry bb) { s with queue }).queue.length <
      Flow.unmarked cfg.size s.blocks + s.queue.length := by
  rw [foldl_visit hcut, hq, List.length_cons]
  refine Nat.lt_succ_of_le (Flow.push_potential (by simp) fun w hw => ?_)
  exact hcfg.lt_of_edge (List.mem_filter.1 hw).1

theorem exploreLoop_inv (hcfg : cfg.WellFormed) (hcut : cut entry = true)
    (hr : Flow.Reachable cfg.Edge 0 entry) {fuel : ℕ} {s : Region}
    (hs : RegionInv cfg cut entry s)
    (hfuel : Flow.unmarked cfg.size s.blocks + s.queue.length ≤ fuel) :
    RegionInv cfg cut entry (exploreLoop cfg cut entry fuel s) ∧
      (exploreLoop cfg cut entry fuel s).queue = [] := by
  induction fuel generalizing s with
  | zero =>
    rw [exploreLoop]
    exact ⟨hs, List.length_eq_zero_iff.1 (by omega)⟩
  | succ fuel ih =>
    rw [exploreLoop]
    cases hq : s.queue with
    | nil => exact ⟨hs, hq⟩
    | cons bb queue =>
      have hlt := foldl_visit_potential hcfg hcut hq
      exact ih (hs.step hcfg hcut hr hq) (by omega)

theorem RegionInv.start :
    RegionInv cfg cut entry { blocks := (· == entry), exits := [], queue := [entry] } where
  entry_mem := by simp
  sound b hb := by
    obtain rfl : b = entry := by simpa using hb
    exact .refl
  queued b hb := by simpa using hb
  exits_sound e he := by simp at he
  done b hb := by
    obtain rfl : b = entry := by simpa using hb
    exact .inl (List.mem_singleton_self b)

/-- **The search** finds the blocks inside the fragment and the edges from them to cut
points. -/
theorem explore_spec (hcfg : cfg.WellFormed) (hcut : cut entry = true)
    (hr : Flow.Reachable cfg.Edge 0 entry) :
    (∀ b, (explore cfg cut entry).blocks b = true ↔ Inside cfg cut entry b) ∧
      ∀ u w, (u, w) ∈ (explore cfg cut entry).exits ↔
        Inside cfg cut entry u ∧ cfg.Edge u w ∧ cut w = true := by
  have hlt : entry < cfg.size := hcfg.lt_of_reachable hr
  have hpot : Flow.unmarked cfg.size (· == entry) + 1 ≤ cfg.size := by
    have hinit : Function.update (fun _ => false) entry true = (· == entry) := by
      funext bb
      by_cases hbb : bb = entry <;> simp [hbb]
    have hupdate : Flow.unmarked cfg.size (Function.update (fun _ => false) entry true) + 1 =
        Flow.unmarked cfg.size fun _ => false := Flow.unmarked_update hlt rfl
    have hle := Flow.unmarked_le cfg.size fun _ => false
    rw [hinit] at hupdate
    omega
  obtain ⟨hinv, hqueue⟩ := exploreLoop_inv hcfg hcut hr RegionInv.start hpot
  have hdone : ∀ b, (explore cfg cut entry).blocks b = true → ∀ w, cfg.Edge b w →
      if cut w then (b, w) ∈ (explore cfg cut entry).exits
      else (explore cfg cut entry).blocks w = true := by
    intro b hb
    refine (hinv.done b hb).resolve_left fun hmem => ?_
    rw [hqueue] at hmem
    simp at hmem
  have hcomplete : ∀ b, Inside cfg cut entry b → (explore cfg cut entry).blocks b = true := by
    intro b hb
    induction hb with
    | refl => exact hinv.entry_mem
    | tail _ hE ih =>
      have hnext := hdone _ ih _ hE.1
      rwa [if_neg (by simp [hE.2])] at hnext
  refine ⟨fun b => ⟨hinv.sound b, hcomplete b⟩, fun u w => ⟨fun he => ?_, ?_⟩⟩
  · obtain ⟨hu, hE, hc⟩ := hinv.exits_sound _ he
    exact ⟨hinv.sound u hu, hE, hc⟩
  · rintro ⟨hu, hE, hc⟩
    have hnext := hdone u (hcomplete u hu) w hE
    rwa [if_pos hc] at hnext

/-! ### The order of a fragment -/

theorem mem_destutter' {α : Type} [DecidableEq α] {x a : α} {l : List α} :
    x ∈ List.destutter' (· ≠ ·) a l ↔ x = a ∨ x ∈ l := by
  induction l generalizing a with
  | nil => simp
  | cons b l ih =>
    by_cases hab : a = b
    · subst hab
      rw [List.destutter'_cons_neg _ (by simp), ih]
      simp
    · rw [List.destutter'_cons_pos _ hab, List.mem_cons, ih, List.mem_cons]

theorem mem_sortDedupPairs {e : ℕ × ℕ} {pairs : List (ℕ × ℕ)} :
    e ∈ sortDedupPairs pairs ↔ e ∈ pairs := by
  have hmem : ∀ l : List (ℕ × ℕ), e ∈ l.destutter (· ≠ ·) ↔ e ∈ l := by
    intro l
    cases l with
    | nil => simp
    | cons a l => rw [List.destutter_cons', mem_destutter', List.mem_cons]
  rw [sortDedupPairs, hmem, List.mem_insertionSort]

/-- The edges that are sorted are those between blocks of the fragment that do not lead to its
entry. -/
theorem mem_fragmentSuccs (hcfg : cfg.WellFormed) (hcut : cut entry = true)
    (hr : Flow.Reachable cfg.Edge 0 entry) {u w : ℕ} :
    w ∈ (fragmentSuccs cfg entry (explore cfg cut entry).blocks).getD u [] ↔
      Inside cfg cut entry u ∧ cfg.Edge u w ∧ cut w = false := by
  obtain ⟨hblocks, -⟩ := explore_spec hcfg hcut hr
  have hlookup : u < cfg.size →
      (fragmentSuccs cfg entry (explore cfg cut entry).blocks).getD u [] =
        if (explore cfg cut entry).blocks u then
          (cfg.succs u).filter fun succ => (explore cfg cut entry).blocks succ && succ != entry
        else [] := by
    intro hu
    rw [fragmentSuccs, List.getD_eq_getElem?_getD, List.getElem?_map, List.getElem?_range hu]
    rfl
  constructor
  · intro h
    have hu : u < cfg.size := by
      by_contra hge
      rw [List.getD_eq_getElem?_getD, List.getElem?_eq_none] at h
      · simp at h
      · simpa [fragmentSuccs] using hge
    rw [hlookup hu] at h
    split_ifs at h with hmark
    · simp only [List.mem_filter, Bool.and_eq_true, bne_iff_ne, ne_eq] at h
      have hw : Inside cfg cut entry w := (hblocks w).1 h.2.1
      exact ⟨(hblocks u).1 hmark, h.1, hw.eq_or_cut.resolve_left h.2.2⟩
    · simp at h
  · rintro ⟨hu, hE, hc⟩
    have hne : w ≠ entry := by
      rintro rfl
      rw [hcut] at hc
      cases hc
    rw [hlookup hE.source_lt, if_pos ((hblocks u).2 hu), List.mem_filter]
    exact ⟨hE, by simp [(hblocks w).2 (hu.tail ⟨hE, hc⟩), hne]⟩

private theorem region_lt (hcfg : cfg.WellFormed) (hcut : cut entry = true)
    (hr : Flow.Reachable cfg.Edge 0 entry) (v : ℕ)
    (hv : (explore cfg cut entry).blocks v = true) :
    v < (fragmentSuccs cfg entry (explore cfg cut entry).blocks).length := by
  rw [fragmentSuccs, List.length_map, List.length_range]
  exact hcfg.lt_of_reachable ((((explore_spec hcfg hcut hr).1 v).1 hv).reachable hr)

/-- What is listed of a fragment, whatever its cycles: blocks inside it, each once, and every
one after the sources of the inner edges to it. -/
theorem buildFragment_spec (hcfg : cfg.WellFormed) (hcut : cut entry = true)
    (hr : Flow.Reachable cfg.Edge 0 entry) :
    (buildFragment cfg cut entry).blocks.Nodup ∧
      (∀ b ∈ (buildFragment cfg cut entry).blocks, Inside cfg cut entry b) ∧
      ∀ u w, w ∈ (buildFragment cfg cut entry).blocks → Inside cfg cut entry u →
        cfg.Edge u w → cut w = false → (buildFragment cfg cut entry).blocks.idxOf u <
          (buildFragment cfg cut entry).blocks.idxOf w := by
  obtain ⟨hblocks, -⟩ := explore_spec hcfg hcut hr
  obtain ⟨hnodup, hmem, hsorted⟩ := topoSort_spec (region_lt hcfg hcut hr)
  refine ⟨hnodup, fun b hb => (hblocks b).1 (hmem b hb), fun u w hw hu hE hc => ?_⟩
  exact hsorted u w hw ((hblocks u).2 hu) ((mem_fragmentSuccs hcfg hcut hr).2 ⟨hu, hE, hc⟩)

/-- A fragment without inner cycles is listed completely. -/
theorem mem_buildFragment (hcfg : cfg.WellFormed) (hcut : cut entry = true)
    (hr : Flow.Reachable cfg.Edge 0 entry)
    (hacyclic : ∀ v, ¬ Relation.TransGen
      (fun u w => Inside cfg cut entry u ∧ cfg.Edge u w ∧ cut w = false) v v)
    {b : ℕ} (hb : Inside cfg cut entry b) : b ∈ (buildFragment cfg cut entry).blocks := by
  obtain ⟨hblocks, -⟩ := explore_spec hcfg hcut hr
  refine mem_topoSort_of_wellFounded (region_lt hcfg hcut hr) ?_ ((hblocks b).2 hb)
  have hwf := wellFounded_of_acyclic (n := cfg.size)
    (fun u w h => h.2.1.source_lt) hacyclic
  exact Subrelation.wf (fun h => (mem_fragmentSuccs hcfg hcut hr).1 h) hwf

/-- The entry is listed, whatever the cycles: no inner edge leads to it. -/
theorem entry_mem_buildFragment (hcfg : cfg.WellFormed) (hcut : cut entry = true)
    (hr : Flow.Reachable cfg.Edge 0 entry) : entry ∈ (buildFragment cfg cut entry).blocks := by
  refine mem_topoSort_of_acc (region_lt hcfg hcut hr) (.intro entry fun u hu => ?_)
    (((explore_spec hcfg hcut hr).1 entry).2 .refl)
  obtain ⟨-, -, hc⟩ := (mem_fragmentSuccs hcfg hcut hr).1 hu
  rw [hcut] at hc
  cases hc

/-- The entry comes first: every other block comes after the source of an edge to it. -/
theorem head_buildFragment (hcfg : cfg.WellFormed) (hcut : cut entry = true)
    (hr : Flow.Reachable cfg.Edge 0 entry) :
    ∃ rest, (buildFragment cfg cut entry).blocks = entry :: rest := by
  obtain ⟨hnd, hin, hforward⟩ := buildFragment_spec hcfg hcut hr
  have hentry := entry_mem_buildFragment hcfg hcut hr
  cases hblocks : (buildFragment cfg cut entry).blocks with
  | nil => simp [hblocks] at hentry
  | cons b rest =>
    rw [hblocks] at hin hforward
    rcases Relation.ReflTransGen.cases_tail (hin b List.mem_cons_self) with rfl | ⟨u, hu, hE⟩
    · exact ⟨rest, rfl⟩
    · have hlt := hforward u b List.mem_cons_self hu hE.1 hE.2
      rw [List.idxOf_cons_self] at hlt
      omega

end Explore

/-! ### The cut points -/

/-- The block is the entry of the body or dominates the source of an edge to it. Dominance is
over the timely edges, which are all the dominator computation sees; on them at least the
dominators of the graph dominate. -/
def CycleCut (cfg : Cfg) (w : ℕ) : Prop :=
  w = 0 ∨ ∃ u, Flow.Reachable cfg.Edge 0 u ∧ cfg.Edge u w ∧
    Flow.Dominates (TimelyEdge cfg) 0 w u

/-- Every cycle of reachable blocks contains a block that cuts it. -/
def CyclesCut (cfg : Cfg) : Prop :=
  ∀ v, Flow.Reachable cfg.Edge 0 v →
    ¬ Relation.TransGen (fun u w => cfg.Edge u w ∧ ¬ CycleCut cfg u) v v

/-- In a reducible graph, where every cycle contains the entry or a block that dominates the
source of an edge to it, every cycle is cut. -/
theorem cyclesCut_of_reducible {cfg : Cfg}
    (h : ∀ v, Flow.Reachable cfg.Edge 0 v → ¬ Relation.TransGen (fun u w => cfg.Edge u w ∧
      ¬ (u = 0 ∨ ∃ x, Flow.Reachable cfg.Edge 0 x ∧ cfg.Edge x u ∧
        Flow.Dominates cfg.Edge 0 u x)) v v) : CyclesCut cfg := by
  intro v hv hcycle
  refine h v hv (hcycle.lift id fun u w huw => ⟨huw.1, fun hu => huw.2 ?_⟩)
  exact hu.imp_right fun ⟨x, hx, hE, hdom⟩ => ⟨x, hx, hE, hdom.anti fun _ _ htime => htime.1⟩

section Analyze

variable {M : Mir} {body : Body M}

theorem mem_returnBlocks {b : ℕ} :
    b ∈ returnBlocks body ↔
      ∃ block, body.blocks[b]? = some block ∧ isReturn block.terminator.kind = true := by
  simp [returnBlocks, List.mem_zipIdx_iff_getElem?]

/-- A return has no successors. -/
theorem not_edge_of_mem_returnBlocks {b w : ℕ} (hb : b ∈ returnBlocks body) :
    ¬ (Cfg.fromBody body).Edge b w := by
  obtain ⟨block, hblock, hret⟩ := mem_returnBlocks.1 hb
  intro hE
  obtain ⟨block', hblock', hw⟩ := fromBody_edge.1 hE
  obtain rfl : block = block' := Option.some.inj (hblock.symm.trans hblock')
  unfold isReturn at hret
  split at hret
  · rename_i hkind
    simp [hkind, TerminatorKind.exits, TerminatorKind.targets] at hw
  · cases hret

/-- The cut points: blocks that cut cycles, and returns. -/
theorem mem_cutPointSet (hv : body.Valid) {b : ℕ} :
    b ∈ (analyzeFragments body).cutPointSet ↔
      CycleCut (Cfg.fromBody body) b ∨ b ∈ returnBlocks body := by
  have hcfg := fromBody_wellFormed hv
  obtain ⟨headers, hok, hmem⟩ := findLoopHeaders_ok hcfg
  have hheader : (b < (Cfg.fromBody body).size ∧ headers b ≠ []) ↔
      ∃ u, Flow.Reachable (Cfg.fromBody body).Edge 0 u ∧ (Cfg.fromBody body).Edge u b ∧
        Flow.Dominates (TimelyEdge (Cfg.fromBody body)) 0 b u := by
    constructor
    · rintro ⟨-, hne⟩
      obtain ⟨u, hu⟩ := List.exists_mem_of_ne_nil _ hne
      obtain ⟨hreach, hE, hdom⟩ := (hmem u b).1 hu
      exact ⟨u, hreach, hE, (dominates_iff_timely hcfg hreach).1 hdom⟩
    · rintro ⟨u, hreach, hE, hdom⟩
      refine ⟨hcfg.lt_of_edge hE, List.ne_nil_of_mem ((hmem u b).2 ⟨hreach, hE, ?_⟩)⟩
      exact (dominates_iff_timely hcfg hreach).2 hdom
  rw [CycleCut, ← hheader]
  simp [analyzeFragments, hok, or_assoc, eq_comm (a := b), Function.comp_def]

/-- One fragment is built for each reachable cut point. -/
theorem mem_fragments (hv : body.Valid) {f : Fragment} :
    f ∈ (analyzeFragments body).fragments ↔
      ∃ e, Flow.Reachable (Cfg.fromBody body).Edge 0 e ∧
        e ∈ (analyzeFragments body).cutPointSet ∧
        buildFragment (Cfg.fromBody body)
          (fun bb => decide (bb ∈ (analyzeFragments body).cutPointSet)) e = f := by
  have hcfg := fromBody_wellFormed hv
  have hfragments : (analyzeFragments body).fragments =
      buildFragments (Cfg.fromBody body) (analyzeFragments body).cutPointSet := rfl
  rw [hfragments, buildFragments, List.mem_map]
  refine exists_congr fun e => ?_
  rw [List.mem_filter, List.mem_range, Bool.and_eq_true, decide_eq_true_eq, hcfg.reachable_iff]
  constructor
  · rintro ⟨⟨-, hcut, hr⟩, hf⟩
    exact ⟨hr, hcut, hf⟩
  · rintro ⟨hr, hcut, hf⟩
    exact ⟨⟨hcfg.lt_of_reachable hr, hcut, hr⟩, hf⟩

/-! ### Complete fragments -/

/-- The fragments lose no block and no edge of the graph. -/
structure FragmentsComplete (cfg : Cfg) (fragments : List Fragment) : Prop where
  /-- Every reachable block is in some fragment. -/
  cover : ∀ v, Flow.Reachable cfg.Edge 0 v → ∃ f ∈ fragments, v ∈ f.blocks
  /-- A fragment lists a block once. -/
  nodup : ∀ f ∈ fragments, f.blocks.Nodup
  /-- It lists the blocks that are reached from its entry without passing an entry. -/
  mem_iff : ∀ f ∈ fragments, ∀ b, b ∈ f.blocks ↔
    Relation.ReflTransGen (fun u w => cfg.Edge u w ∧ ∀ g ∈ fragments, g.entryBb ≠ w) f.entryBb b
  /-- Its inner edges go forward. -/
  forward : ∀ f ∈ fragments, ∀ u ∈ f.blocks, ∀ w ∈ f.blocks, cfg.Edge u w → w ≠ f.entryBb →
    f.blocks.idxOf u < f.blocks.idxOf w
  /-- An edge from one of its blocks is an inner edge, or an exit to the entry of a fragment. -/
  edges : ∀ f ∈ fragments, ∀ u ∈ f.blocks, ∀ w, cfg.Edge u w →
    (w ∈ f.blocks ∧ w ≠ f.entryBb) ∨ ((u, w) ∈ f.exits ∧ ∃ g ∈ fragments, g.entryBb = w)

/-- Every reachable block is inside the fragment of some reachable cut point: the last one on a
path to it. -/
theorem exists_inside {cfg : Cfg} {cut : ℕ → Bool} (h0 : cut 0 = true) {v : ℕ}
    (hv : Flow.Reachable cfg.Edge 0 v) :
    ∃ e, Flow.Reachable cfg.Edge 0 e ∧ cut e = true ∧ Inside cfg cut e v := by
  obtain ⟨p, hp⟩ := hv
  induction hp with
  | start => exact ⟨0, .entry, h0, .refl⟩
  | @step u w p hp hE ih =>
    obtain ⟨e, he, hcut, hin⟩ := ih
    by_cases hw : cut w = true
    · exact ⟨w, Flow.Reachable.step ⟨_, hp⟩ hE, hw, .refl⟩
    · exact ⟨e, he, hcut, hin.tail ⟨hE, by simpa using hw⟩⟩

/-- Where every cycle is cut, the inner edges of a fragment make no cycle. -/
theorem inner_acyclic (hv : body.Valid) (h : CyclesCut (Cfg.fromBody body)) {e : ℕ}
    (he : Flow.Reachable (Cfg.fromBody body).Edge 0 e) (v : ℕ) :
    ¬ Relation.TransGen (fun u w =>
      Inside (Cfg.fromBody body) (fun bb => decide (bb ∈ (analyzeFragments body).cutPointSet)) e u ∧
        (Cfg.fromBody body).Edge u w ∧
        decide (w ∈ (analyzeFragments body).cutPointSet) = false) v v := by
  have huncut : ∀ b, decide (b ∈ (analyzeFragments body).cutPointSet) = false →
      ¬ CycleCut (Cfg.fromBody body) b := fun b hb hcut =>
    of_decide_eq_false hb ((mem_cutPointSet hv).2 (.inl hcut))
  intro hcycle
  -- the sources of the edges on the cycle are targets as well, hence no cut points
  obtain ⟨x, -, -, -, hlast⟩ := Relation.TransGen.tail'_iff.1 hcycle
  obtain ⟨y, ⟨hin, -⟩, -⟩ := Relation.TransGen.head'_iff.1 hcycle
  refine h v (hin.reachable he) ?_
  have hpath : ∀ w, Relation.TransGen (fun u w =>
      Inside (Cfg.fromBody body) (fun bb => decide (bb ∈ (analyzeFragments body).cutPointSet)) e u ∧
        (Cfg.fromBody body).Edge u w ∧
        decide (w ∈ (analyzeFragments body).cutPointSet) = false) v w →
      Relation.TransGen (fun u w => (Cfg.fromBody body).Edge u w ∧
        ¬ CycleCut (Cfg.fromBody body) u) v w := by
    intro w hw
    induction hw with
    | single hE => exact .single ⟨hE.2.1, huncut v hlast⟩
    | tail hvu hE ih =>
      obtain ⟨z, -, -, -, hu⟩ := Relation.TransGen.tail'_iff.1 hvu
      exact ih.tail ⟨hE.2.1, huncut _ hu⟩
  exact hpath v hcycle

/-- **Fragments lose nothing exactly when every cycle is cut**: the fragments that are built
for a body hold every reachable block and edge, in order, if and only if every cycle of
reachable blocks contains the entry or a block that dominates the source of an edge to it. -/
theorem fragments_complete_iff (hv : body.Valid) :
    FragmentsComplete (Cfg.fromBody body) (analyzeFragments body).fragments ↔
      CyclesCut (Cfg.fromBody body) := by
  have hcfg := fromBody_wellFormed hv
  set cut : ℕ → Bool := fun bb => decide (bb ∈ (analyzeFragments body).cutPointSet) with hcut
  have hentry : ∀ w, Flow.Reachable (Cfg.fromBody body).Edge 0 w →
      ((∃ g ∈ (analyzeFragments body).fragments, g.entryBb = w) ↔ cut w = true) := by
    intro w hw
    rw [hcut]
    constructor
    · rintro ⟨g, hg, rfl⟩
      obtain ⟨e, -, he, rfl⟩ := (mem_fragments hv).1 hg
      exact decide_eq_true he
    · intro h
      exact ⟨_, (mem_fragments hv).2 ⟨w, hw, of_decide_eq_true h, rfl⟩, rfl⟩
  constructor
  · intro hcomplete v hreach hcycle
    obtain ⟨f, hf, hmem⟩ := hcomplete.cover v hreach
    -- a block on the cycle is no entry, so the edges of the cycle are inner edges
    have hnext : ∀ {u w}, Flow.Reachable (Cfg.fromBody body).Edge 0 u → u ∈ f.blocks →
        (Cfg.fromBody body).Edge u w → ¬ CycleCut (Cfg.fromBody body) w →
        (∃ x, (Cfg.fromBody body).Edge w x) →
        w ∈ f.blocks ∧ f.blocks.idxOf u < f.blocks.idxOf w := by
      intro u w hu hmemu hE hnocut hout
      rcases hcomplete.edges f hf u hmemu w hE with ⟨hw, hne⟩ | ⟨-, hg⟩
      · exact ⟨hw, hcomplete.forward f hf u hmemu w hw hE hne⟩
      · have hw : cut w = true := (hentry w (hu.step hE)).1 hg
        obtain ⟨x, hx⟩ := hout
        rcases (mem_cutPointSet hv).1 (of_decide_eq_true hw) with hw | hw
        · exact absurd hw hnocut
        · exact absurd hx (not_edge_of_mem_returnBlocks hw)
    have hpath : ∀ w, Relation.TransGen (fun u w => (Cfg.fromBody body).Edge u w ∧
        ¬ CycleCut (Cfg.fromBody body) u) v w → Flow.Reachable (Cfg.fromBody body).Edge 0 w ∧
        (¬ CycleCut (Cfg.fromBody body) w → (∃ x, (Cfg.fromBody body).Edge w x) →
          w ∈ f.blocks ∧ f.blocks.idxOf v < f.blocks.idxOf w) := by
      intro w hw
      induction hw with
      | single hE => exact ⟨hreach.step hE.1, hnext hreach hmem hE.1⟩
      | tail _ hE ih =>
        obtain ⟨hu, hidx⟩ := ih
        obtain ⟨hmemu, hlt⟩ := hidx hE.2 ⟨_, hE.1⟩
        refine ⟨hu.step hE.1, fun hnocut hout => ?_⟩
        obtain ⟨hw, hlt'⟩ := hnext hu hmemu hE.1 hnocut hout
        exact ⟨hw, hlt.trans hlt'⟩
    obtain ⟨y, ⟨hE, hnocut⟩, -⟩ := Relation.TransGen.head'_iff.1 hcycle
    exact Nat.lt_irrefl _ ((hpath v hcycle).2 hnocut ⟨y, hE⟩).2
  · intro h
    have hbuilt : ∀ f ∈ (analyzeFragments body).fragments, ∃ e,
        Flow.Reachable (Cfg.fromBody body).Edge 0 e ∧ cut e = true ∧
          buildFragment (Cfg.fromBody body) cut e = f ∧
          ∀ b, b ∈ f.blocks ↔ Inside (Cfg.fromBody body) cut e b := by
      intro f hf
      obtain ⟨e, he, hce, rfl⟩ := (mem_fragments hv).1 hf
      refine ⟨e, he, decide_eq_true hce, rfl, fun b => ⟨?_, ?_⟩⟩
      · exact (buildFragment_spec hcfg (decide_eq_true hce) he).2.1 b
      · exact mem_buildFragment hcfg (decide_eq_true hce) he (inner_acyclic hv h he)
    have hzero : cut 0 = true := decide_eq_true ((mem_cutPointSet hv).2 (.inl (.inl rfl)))
    refine ⟨fun v hreach => ?_, fun f hf => ?_, fun f hf b => ?_, fun f hf u hu w hw hE hne => ?_,
      fun f hf u hu w hE => ?_⟩
    · obtain ⟨e, he, hce, hin⟩ := exists_inside hzero hreach
      exact ⟨_, (mem_fragments hv).2 ⟨e, he, of_decide_eq_true hce, rfl⟩,
        mem_buildFragment hcfg hce he (inner_acyclic hv h he) hin⟩
    · obtain ⟨e, he, hce, rfl, -⟩ := hbuilt f hf
      exact (buildFragment_spec hcfg hce he).1
    · obtain ⟨e, he, hce, rfl, hmem⟩ := hbuilt f hf
      rw [hmem]
      -- reached without passing a cut point is reached without passing an entry
      constructor
      · intro hb
        induction hb with
        | refl => exact .refl
        | @tail u w hu hE ih =>
          refine ih.tail ⟨hE.1, fun g hg hgw => ?_⟩
          have hw := (hentry w ((Inside.reachable he hu).step hE.1)).1 ⟨g, hg, hgw⟩
          exact Bool.false_ne_true (hE.2.symm.trans hw)
      · intro hb
        induction hb with
        | refl => exact .refl
        | @tail u w _ hE ih =>
          refine Relation.ReflTransGen.tail ih ⟨hE.1, ?_⟩
          by_contra hw
          obtain ⟨g, hg, hgw⟩ := (hentry w ((ih.reachable he).step hE.1)).2 (by simpa using hw)
          exact hE.2 g hg hgw
    · obtain ⟨e, he, hce, rfl, hmem⟩ := hbuilt f hf
      have hcw : cut w = false := ((hmem w).1 hw).eq_or_cut.resolve_left hne
      exact (buildFragment_spec hcfg hce he).2.2 u w hw ((hmem u).1 hu) hE hcw
    · obtain ⟨e, he, hce, rfl, hmem⟩ := hbuilt f hf
      have hin := (hmem u).1 hu
      by_cases hcw : cut w = true
      · refine .inr ⟨?_, (hentry w ((hin.reachable he).step hE)).2 hcw⟩
        exact mem_sortDedupPairs.2 (((explore_spec hcfg hce he).2 u w).2 ⟨hin, hE, hcw⟩)
      · have hcw' : cut w = false := by simpa using hcw
        refine .inl ⟨(hmem w).2 (Relation.ReflTransGen.tail hin ⟨hE, hcw'⟩), ?_⟩
        rintro rfl
        exact hcw hce

end Analyze

/-- The cycle of `loopBody` is cut at its header. -/
theorem fragments_complete_iff_loopBody :
    FragmentsComplete (Cfg.fromBody loopBody) (analyzeFragments loopBody).fragments := by
  have hv : loopBody.Valid := ⟨by decide, by decide⟩
  have hcfg := fromBody_wellFormed hv
  have hreach : Flow.Reachable (Cfg.fromBody loopBody).Edge 0 2 :=
    (Flow.Reachable.entry.step (show (1 : ℕ) ∈ (Cfg.fromBody loopBody).succs 0 by decide)).step
      (show (2 : ℕ) ∈ (Cfg.fromBody loopBody).succs 1 by decide)
  have hheader : CycleCut (Cfg.fromBody loopBody) 1 := by
    refine .inr ⟨2, hreach, ?_, (dominates_iff_timely hcfg hreach).1 (by decide)⟩
    exact (show (1 : ℕ) ∈ (Cfg.fromBody loopBody).succs 2 by decide)
  -- the only edge from a block that is no header leads to one
  have hedge : ∀ u w, (Cfg.fromBody loopBody).Edge u w →
      ¬ CycleCut (Cfg.fromBody loopBody) u → u = 2 ∧ w = 1 := by
    intro u w hE hu
    have hall : ∀ u < 4, ∀ w ∈ (Cfg.fromBody loopBody).succs u,
        u = 0 ∨ u = 1 ∨ u = 2 ∧ w = 1 := by decide
    rcases hall u hE.source_lt w hE with rfl | rfl | h
    · exact absurd (.inl rfl) hu
    · exact absurd hheader hu
    · exact h
  refine (fragments_complete_iff hv).2 fun v _ hcycle => ?_
  obtain ⟨x, ⟨hE, hu⟩, -⟩ := Relation.TransGen.head'_iff.1 hcycle
  obtain ⟨y, -, hE', hu'⟩ := Relation.TransGen.tail'_iff.1 hcycle
  have hv₂ : v = 2 := (hedge v x hE hu).1
  have hv₁ : v = 1 := (hedge y v hE' hu').2
  omega

/-! ### A cycle without a header -/

/-- A body with the loop `1 → 2 → 1`, entered at both blocks. -/
def irreducibleLoop : Body ⟨Unit, Unit, Unit, Unit, Unit, Unit⟩ where
  blocks :=
    [⟨[], ⟨.switchInt () [(0, 1)] 2, ()⟩⟩, ⟨[], ⟨.goto 2, ()⟩⟩,
      ⟨[], ⟨.switchInt () [(0, 1)] 3, ()⟩⟩, ⟨[], ⟨.return, ()⟩⟩]

/-- **The blocks of an irreducible loop are in no fragment.** -/
theorem irreducibleLoop_dropped :
    irreducibleLoop.Valid ∧ Flow.Reachable (Cfg.fromBody irreducibleLoop).Edge 0 1 ∧
      (analyzeFragments irreducibleLoop).fragments =
        [⟨0, [0], [(2, 3)]⟩, ⟨3, [3], []⟩] ∧
      ¬ FragmentsComplete (Cfg.fromBody irreducibleLoop)
        (analyzeFragments irreducibleLoop).fragments := by
  have hreach : Flow.Reachable (Cfg.fromBody irreducibleLoop).Edge 0 1 :=
    Flow.Reachable.entry.step (show (1 : ℕ) ∈ (Cfg.fromBody irreducibleLoop).succs 0 by decide)
  have hfragments : (analyzeFragments irreducibleLoop).fragments =
      [⟨0, [0], [(2, 3)]⟩, ⟨3, [3], []⟩] := by decide
  refine ⟨⟨by decide, by decide⟩, hreach, hfragments, fun h => ?_⟩
  obtain ⟨f, hf, hmem⟩ := h.cover 1 hreach
  rw [hfragments] at hf
  simp only [List.mem_cons, List.not_mem_nil, or_false] at hf
  rcases hf with rfl | rfl <;> simp at hmem

end TrustMc.Fragments
