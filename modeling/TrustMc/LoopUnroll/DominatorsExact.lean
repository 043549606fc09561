import TrustMc.LoopUnroll.IdomTimely

/-!
# When the dominator computation is exact

The explicit stack of the numbering walk marks a block when it is pushed, so an edge `x → w` to
a block that waits on the stack leaves the numbering without the depth-first property; the
semidominators then never see it. `dominators_exact_iff` says exactly when the result is right
nonetheless: when every strict dominator that `w` has without such edges dominates `x` as well.
`validateIdom_ok` shows that the check for cycles in the table, which the loop headers run
first, never fails.
-/

namespace TrustMc.LoopUnroll

variable {cfg : Cfg}

/-- The edge `x → w` came **late**: `w` waited on the stack, discovered from a block visited
before `x`, when `x` was visited. -/
def LateEdge (cfg : Cfg) (x w : ℕ) : Prop :=
  cfg.Edge x w ∧ ∃ u i j k, (numbering cfg).parent w = some u ∧
    (numbering cfg).dfsNum u = some i ∧ (numbering cfg).dfsNum x = some j ∧
    (numbering cfg).dfsNum w = some k ∧ i < j ∧ j < k

/-- `LateEdge` without its edge, read off the arrays. -/
def waited (walk : Walk) (x w : ℕ) : Bool :=
  match walk.parent w with
  | none => false
  | some u =>
    match walk.dfsNum u, walk.dfsNum x, walk.dfsNum w with
    | some i, some j, some k => decide (i < j ∧ j < k)
    | _, _, _ => false

theorem lateEdge_iff_waited {x w : ℕ} :
    LateEdge cfg x w ↔ w ∈ cfg.succs x ∧ waited (numbering cfg) x w = true := by
  refine and_congr_right fun _ => ⟨?_, fun h => ?_⟩
  · rintro ⟨u, i, j, k, hu, hi, hj, hk, hij, hjk⟩
    simp [waited, hu, hi, hj, hk, hij, hjk]
  · rw [waited] at h
    split at h
    · simp at h
    · rename_i u hu
      split at h
      · rename_i i j k hi hj hk
        rw [decide_eq_true_iff] at h
        exact ⟨u, i, j, k, hu, hi, hj, hk, h⟩
      · simp at h

instance (x w : ℕ) : Decidable (LateEdge cfg x w) := decidable_of_iff _ lateEdge_iff_waited.symm

/-- The edges that are not late. -/
def TimelyEdge (cfg : Cfg) (x w : ℕ) : Prop := cfg.Edge x w ∧ ¬ LateEdge cfg x w

/-- Every late edge `x → w` leads to a block whose strict dominators, over the timely edges,
dominate `x`. -/
def LateEdgesHarmless (cfg : Cfg) : Prop :=
  ∀ x w, LateEdge cfg x w → ∀ u, Flow.StrictDom (TimelyEdge cfg) 0 u w →
    Flow.Dominates (TimelyEdge cfg) 0 u x

/-- Every reachable block has its immediate dominator for an entry. -/
def IdomExact (cfg : Cfg) : Prop :=
  ∀ v, Flow.Reachable cfg.Edge 0 v → ∀ d,
    computeIdomLengauerTarjan cfg v = some d ↔ Flow.IsIdom cfg.Edge 0 d v

/-- `dominates` is dominance on paths. -/
def DominatesExact (cfg : Cfg) : Prop :=
  ∀ a v, Flow.Reachable cfg.Edge 0 v →
    (dominates (computeIdomLengauerTarjan cfg) a v cfg.size = true ↔
      Flow.Dominates cfg.Edge 0 a v)

/-- The latches of a header are the sources of the edges to it that it dominates. -/
def LoopHeadersExact (cfg : Cfg) : Prop :=
  ∃ headers, findLoopHeaders cfg = .ok headers ∧
    ∀ src dst, src ∈ headers dst ↔ Flow.Reachable cfg.Edge 0 src ∧ cfg.Edge src dst ∧
      Flow.Dominates cfg.Edge 0 dst src

/-! ### Late edges -/

theorem lateEdge_iff (hcfg : cfg.WellFormed) {x w : ℕ} :
    LateEdge cfg x w ↔ cfg.Edge x w ∧ (searchTree hcfg).Late x w := by
  have hr := reads hcfg
  refine and_congr_right fun _ => ⟨?_, ?_⟩
  · rintro ⟨u, i, j, k, hu, hi, hj, hk, hij, hjk⟩
    refine ⟨u, hr.tree_iff.2 hu, ?_, ?_⟩
    · rwa [hr.num_eq hi, hr.num_eq hj]
    · rwa [hr.num_eq hj, hr.num_eq hk]
  · rintro ⟨u, hu, hlt, hlt'⟩
    obtain ⟨hw, -, i, hi, -⟩ := (numbering_inv hcfg).1.parent_num (hr.tree_iff.1 hu)
    obtain ⟨k, hk⟩ := numbered_of_discovered hcfg hw
    -- a block with a positive number has been visited
    have hx : ∃ j, (numbering cfg).dfsNum x = some j := by
      by_contra hno
      have hnone : (numbering cfg).dfsNum x = none :=
        Option.eq_none_iff_forall_ne_some.2 fun j hj => hno ⟨j, hj⟩
      have hzero : (searchTree hcfg).num x = 0 := by simp [searchTree, hnone]
      omega
    obtain ⟨j, hj⟩ := hx
    rw [hr.num_eq hi, hr.num_eq hj] at hlt
    rw [hr.num_eq hj, hr.num_eq hk] at hlt'
    exact ⟨u, i, j, k, hr.tree_iff.1 hu, hi, hj, hk, hlt, hlt'⟩

theorem timelyEdge_eq (hcfg : cfg.WellFormed) : TimelyEdge cfg = (searchTree hcfg).Timely := by
  funext x w
  refine propext (and_congr_right fun hE => not_congr ?_)
  rw [lateEdge_iff hcfg]
  exact and_iff_right hE

/-- **The table is exact exactly when the late edges are harmless.** -/
theorem idomExact_iff (hcfg : cfg.WellFormed) : IdomExact cfg ↔ LateEdgesHarmless cfg := by
  have hreach : ∀ v, Flow.Reachable cfg.Edge 0 v ↔ Flow.Reachable (TimelyEdge cfg) 0 v := by
    intro v
    rw [timelyEdge_eq hcfg]
    exact Flow.SearchTree.reachable_timely_iff
  have hvis : ∀ {v}, Flow.Reachable (TimelyEdge cfg) 0 v → (searchTree hcfg).Visited v :=
    fun hv => Flow.SearchTree.reachable_iff_visited.1 ((hreach _).2 hv)
  have hexact := Flow.idom_exact_iff (f := computeIdomLengauerTarjan cfg) hreach
    (fun v hv hne => by
      obtain ⟨d, hd, -⟩ := computeIdom_some hcfg (hvis hv) hne
      exact ⟨d, hd⟩)
    (fun v hv d => by
      rw [timelyEdge_eq hcfg]
      exact computeIdom_timely hcfg (hvis hv) d)
  refine hexact.trans ?_
  rw [Flow.dominates_congr_iff fun _ _ h => h.1]
  constructor
  · intro h x w hlate
    have hx : Flow.Reachable cfg.Edge 0 x := by
      obtain ⟨u, i, j, k, -, -, hj, -⟩ := hlate.2
      exact Flow.SearchTree.reachable_iff_visited.2 ((reads hcfg).visited_iff.2 ⟨j, hj⟩)
    exact h x w hx hlate.1 fun htime => htime.2 hlate
  · intro h x w _ hE htime
    exact h x w (by_contra fun hlate => htime ⟨hE, hlate⟩)

/-! ### The walk up the tree -/

/-- The walk up the table meets the blocks of its chain: it has as many steps as the number of
the block at least. -/
theorem dominatesLoop_iff (hcfg : cfg.WellFormed) {a v left : ℕ}
    (hle : (searchTree hcfg).num v ≤ left) :
    dominatesLoop (computeIdomLengauerTarjan cfg) a left (some v) = true ↔
      Relation.ReflTransGen (fun d v => computeIdomLengauerTarjan cfg v = some d) a v := by
  have hstep : ∀ {v o}, computeIdomLengauerTarjan cfg v = o → (a ≠ v) →
      (Relation.ReflTransGen (fun d v => computeIdomLengauerTarjan cfg v = some d) a v ↔
        ∃ d, o = some d ∧
          Relation.ReflTransGen (fun d v => computeIdomLengauerTarjan cfg v = some d) a d) := by
    rintro v o rfl hav
    constructor
    · intro h
      rcases Relation.ReflTransGen.cases_tail h with heq | ⟨d, had, hd⟩
      · exact absurd heq.symm hav
      · exact ⟨d, hd, had⟩
    · rintro ⟨d, hd, had⟩
      exact had.tail hd
  induction left generalizing v with
  | zero =>
    rw [dominatesLoop, decide_eq_true_iff]
    constructor
    · rintro rfl
      exact .refl
    · intro h
      by_contra hav
      obtain ⟨d, hd, -⟩ := (hstep rfl (Ne.symm hav)).1 h
      have := (computeIdom_num_lt hcfg hd).2
      omega
  | succ left ih =>
    rw [dominatesLoop]
    by_cases hav : v = a
    · rw [if_pos hav]
      subst hav
      exact iff_of_true rfl .refl
    · rw [if_neg hav]
      cases ho : computeIdomLengauerTarjan cfg v with
      | none =>
        rw [hstep ho (Ne.symm hav)]
        simp [dominatesLoop]
      | some d =>
        have hlt := (computeIdom_num_lt hcfg ho).2
        have hrec : (searchTree hcfg).num d ≤ left := by omega
        refine (ih hrec).trans ?_
        rw [hstep ho (Ne.symm hav)]
        simp

/-- Where the table holds the immediate dominators of a graph with the same reachable blocks,
`dominates` is dominance in that graph. -/
theorem dominates_iff_of_table (hcfg : cfg.WellFormed) {E : ℕ → ℕ → Prop}
    (hreach : ∀ {v}, Flow.Reachable E 0 v → Flow.Reachable cfg.Edge 0 v)
    (htable : ∀ v, Flow.Reachable E 0 v → ∀ d,
      computeIdomLengauerTarjan cfg v = some d ↔ Flow.IsIdom E 0 d v)
    {a v : ℕ} (hv : Flow.Reachable E 0 v) :
    dominates (computeIdomLengauerTarjan cfg) a v cfg.size = true ↔ Flow.Dominates E 0 a v := by
  have hvisited : ∀ {v}, Flow.Reachable E 0 v → (searchTree hcfg).Visited v := fun hv =>
    Flow.SearchTree.reachable_iff_visited.1 (hreach hv)
  have hnum := (reads hcfg).num_lt_count (hvisited hv)
  have hcount := (reads hcfg).count_le
  have hex : ∀ v, Flow.Reachable E 0 v → v ≠ 0 → ∃ d, Flow.IsIdom E 0 d v := by
    intro v hv hne
    obtain ⟨d, hd, -⟩ := computeIdom_some hcfg (hvisited hv) hne
    exact ⟨d, (htable v hv d).1 hd⟩
  rw [dominates, dominatesLoop_iff hcfg (by omega), Flow.dominates_iff_idom_chain hex hv]
  -- the two chains take the same steps among reachable blocks
  constructor
  · intro hc
    induction hc with
    | refl => exact .refl
    | @tail d v _ hd ih =>
      have hid := (htable v hv d).1 hd
      have hrd := hid.1.2.reachable hv
      exact (ih hrd ((reads hcfg).num_lt_count (hvisited hrd))).tail hid
  · intro hc
    induction hc with
    | refl => exact .refl
    | @tail d v _ hid ih =>
      have hrd := hid.1.2.reachable hv
      exact (ih hrd ((reads hcfg).num_lt_count (hvisited hrd))).tail ((htable v hv d).2 hid)

theorem dominatesExact_of_idomExact (hcfg : cfg.WellFormed) (h : IdomExact cfg) :
    DominatesExact cfg := fun _ _ hv => dominates_iff_of_table hcfg id h hv

/-- Whatever the late edges, `dominates` is dominance over the timely edges. -/
theorem dominates_iff_timely (hcfg : cfg.WellFormed) {a v : ℕ}
    (hv : Flow.Reachable cfg.Edge 0 v) :
    dominates (computeIdomLengauerTarjan cfg) a v cfg.size = true ↔
      Flow.Dominates (TimelyEdge cfg) 0 a v := by
  have hreach : ∀ {v}, Flow.Reachable (TimelyEdge cfg) 0 v ↔ Flow.Reachable cfg.Edge 0 v := by
    intro v
    rw [timelyEdge_eq hcfg]
    exact Flow.SearchTree.reachable_timely_iff.symm
  refine dominates_iff_of_table hcfg hreach.1 (fun v hv d => ?_) (hreach.2 hv)
  rw [timelyEdge_eq hcfg]
  exact computeIdom_timely hcfg (Flow.SearchTree.reachable_iff_visited.1 (hreach.1 hv)) d

/-! ### The check for cycles -/

/-- A chain ends without a cycle: the blocks of the chain have larger numbers than the block it
has come to. -/
theorem validateChain_ok (hcfg : cfg.WellFormed) (start : ℕ) {fuel : ℕ} {curr : Option ℕ}
    {state : ℕ → ℕ} {path : List ℕ}
    (hpath : ∀ x, state x = 1 → x ∈ path)
    (hcurr : ∀ c, curr = some c → ∀ x, state x = 1 → (searchTree hcfg).num c <
      (searchTree hcfg).num x) :
    ∃ state' path', validateChain (computeIdomLengauerTarjan cfg) cfg.reachable start fuel curr
      state path = .ok (state', path') ∧ ∀ x, state' x = 1 → x ∈ path' := by
  induction fuel generalizing curr state path with
  | zero => exact ⟨state, path, by cases curr <;> rfl, hpath⟩
  | succ fuel ih =>
    cases curr with
    | none => exact ⟨state, path, rfl, hpath⟩
    | some c =>
      rw [validateChain]
      split
      · exact ⟨state, path, rfl, hpath⟩
      · have hc : state c ≠ 1 := fun h1 => Nat.lt_irrefl _ (hcurr c rfl c h1)
        split
        · refine ih (fun x hx => ?_) fun d hd x hx => ?_
          · by_cases hxc : x = c
            · simp [hxc]
            · rw [Function.update_of_ne hxc] at hx
              exact List.mem_append_left _ (hpath x hx)
          · have hlt := (computeIdom_num_lt hcfg hd).2
            by_cases hxc : x = c
            · rw [hxc]
              exact hlt
            · rw [Function.update_of_ne hxc] at hx
              exact Nat.lt_trans hlt (hcurr c rfl x hx)
        · exact ⟨state, path, rfl, hpath⟩

/-- **The table has no cycle.** -/
theorem validateIdom_ok (hcfg : cfg.WellFormed) (n : ℕ) :
    validateIdom (computeIdomLengauerTarjan cfg) cfg.reachable n = .ok () := by
  have key : ∀ (starts : List ℕ) (state : ℕ → ℕ), (∀ x, state x ≠ 1) →
      validateFrom (computeIdomLengauerTarjan cfg) cfg.reachable n starts state = .ok () := by
    intro starts
    induction starts with
    | nil => exact fun _ _ => rfl
    | cons start starts ih =>
      intro state hstate
      rw [validateFrom]
      split
      · exact ih state hstate
      · obtain ⟨state', path', hok, hone⟩ : ∃ state' path',
            validateChain (computeIdomLengauerTarjan cfg) cfg.reachable start (n + 1) (some start)
              state [] = .ok (state', path') ∧ ∀ x, state' x = 1 → x ∈ path' :=
          validateChain_ok hcfg start (fun x hx => absurd hx (hstate x))
            (fun _ _ x hx => absurd hx (hstate x))
        rw [hok]
        refine ih _ fun x hx => ?_
        -- the blocks of the chain are done afterwards
        have hmark : ∀ (l : List ℕ) (st : ℕ → ℕ), (∀ y, st y = 1 → y ∈ l) →
            l.foldl (fun st node => Function.update st node 2) st x ≠ 1 := by
          intro l
          induction l with
          | nil => exact fun st h h1 => by simpa using h x h1
          | cons y l ihl =>
            intro st h
            refine ihl _ fun z hz => ?_
            have hz' : Function.update st y 2 z = 1 := hz
            by_cases hzy : z = y
            · subst hzy
              simp at hz'
            · rw [Function.update_of_ne hzy] at hz'
              exact (List.mem_cons.1 (h z hz')).resolve_left hzy
        exact hmark path' state' hone hx
  exact key _ _ (by simp)

/-! ### Loop headers -/

theorem mem_foldl_noteBackEdge {idom : ℕ → Option ℕ} {src : ℕ} {dsts : List ℕ}
    {headers : ℕ → List ℕ} {src' dst : ℕ} :
    src' ∈ dsts.foldl (noteBackEdge cfg idom src) headers dst ↔ src' ∈ headers dst ∨
      (src' = src ∧ dst ∈ dsts ∧ cfg.reachable dst = true ∧
        dominates idom dst src cfg.size = true) := by
  induction dsts generalizing headers with
  | nil => simp
  | cons d dsts ih =>
    rw [List.foldl_cons, ih, List.mem_cons]
    have hnote : src' ∈ noteBackEdge cfg idom src headers d dst ↔ src' ∈ headers dst ∨
        (src' = src ∧ dst = d ∧ cfg.reachable d = true ∧
          dominates idom d src cfg.size = true) := by
      rw [noteBackEdge]
      by_cases hd : (cfg.reachable d && dominates idom d src cfg.size) = true
      · rw [if_pos hd]
        rw [Bool.and_eq_true] at hd
        by_cases hdd : dst = d
        · subst hdd
          simp [hd.1, hd.2]
        · simp [hdd]
      · rw [if_neg hd]
        rw [Bool.and_eq_true] at hd
        simp [hd]
    rw [hnote]
    constructor
    · rintro ((h | ⟨h, rfl, hr, hdom⟩) | ⟨h, hmem, hr, hdom⟩)
      · exact .inl h
      · exact .inr ⟨h, .inl rfl, hr, hdom⟩
      · exact .inr ⟨h, .inr hmem, hr, hdom⟩
    · rintro (h | ⟨h, rfl | hmem, hr, hdom⟩)
      · exact .inl (.inl h)
      · exact .inl (.inr ⟨h, rfl, hr, hdom⟩)
      · exact .inr ⟨h, hmem, hr, hdom⟩

theorem mem_foldl_headers {idom : ℕ → Option ℕ} {srcs : List ℕ} {headers : ℕ → List ℕ}
    {src dst : ℕ} :
    src ∈ srcs.foldl (noteBackEdges cfg idom) headers dst ↔
      src ∈ headers dst ∨ (src ∈ srcs ∧ cfg.reachable src = true ∧ cfg.Edge src dst ∧
        cfg.reachable dst = true ∧ dominates idom dst src cfg.size = true) := by
  induction srcs generalizing headers with
  | nil => simp
  | cons s srcs ih =>
    rw [List.foldl_cons, ih, List.mem_cons, noteBackEdges]
    by_cases hs : cfg.reachable s = true
    · simp only [hs, Bool.not_true, Bool.false_eq_true, if_false, mem_foldl_noteBackEdge]
      constructor
      · rintro ((h | ⟨rfl, hE, hr, hdom⟩) | ⟨hmem, h⟩)
        · exact .inl h
        · exact .inr ⟨.inl rfl, hs, hE, hr, hdom⟩
        · exact .inr ⟨.inr hmem, h⟩
      · rintro (h | ⟨rfl | hmem, hrs, hE, hr, hdom⟩)
        · exact .inl (.inl h)
        · exact .inl (.inr ⟨rfl, hE, hr, hdom⟩)
        · exact .inr ⟨hmem, hrs, hE, hr, hdom⟩
    · simp only [hs, Bool.not_false, if_true]
      constructor
      · rintro (h | ⟨hmem, h⟩)
        · exact .inl h
        · exact .inr ⟨.inr hmem, h⟩
      · rintro (h | ⟨rfl | hmem, h⟩)
        · exact .inl h
        · exact absurd h.1 hs
        · exact .inr ⟨hmem, h⟩

/-- The loop headers are those of the table. -/
theorem findLoopHeaders_ok (hcfg : cfg.WellFormed) :
    ∃ headers, findLoopHeaders cfg = .ok headers ∧ ∀ src dst, src ∈ headers dst ↔
      Flow.Reachable cfg.Edge 0 src ∧ cfg.Edge src dst ∧
        dominates (computeIdomLengauerTarjan cfg) dst src cfg.size = true := by
  refine ⟨(List.range cfg.size).foldl (noteBackEdges cfg (computeIdomLengauerTarjan cfg))
    fun _ => [], ?_, fun src dst => ?_⟩
  · rw [findLoopHeaders]
    simp only [validateIdom_ok hcfg]
    rfl
  · rw [mem_foldl_headers, hcfg.reachable_iff, hcfg.reachable_iff]
    constructor
    · rintro (h | ⟨-, hsrc, hE, -, hdom⟩)
      · simp at h
      · exact ⟨hsrc, hE, hdom⟩
    · rintro ⟨hsrc, hE, hdom⟩
      exact .inr ⟨List.mem_range.2 hE.source_lt, hsrc, hE, hsrc.step hE, hdom⟩

theorem loopHeadersExact_of_dominatesExact (hcfg : cfg.WellFormed) (h : DominatesExact cfg) :
    LoopHeadersExact cfg := by
  obtain ⟨headers, hok, hmem⟩ := findLoopHeaders_ok hcfg
  refine ⟨headers, hok, fun src dst => (hmem src dst).trans ?_⟩
  exact and_congr_right fun hsrc => and_congr_right fun _ => h dst src hsrc

/-- **The dominator computation is exact** exactly when the late edges of its numbering walk are
harmless. -/
theorem dominators_exact_iff (hcfg : cfg.WellFormed) :
    (IdomExact cfg ∧ DominatesExact cfg ∧ LoopHeadersExact cfg) ↔ LateEdgesHarmless cfg := by
  constructor
  · rintro ⟨hidom, -⟩
    exact (idomExact_iff hcfg).1 hidom
  · intro h
    have hidom := (idomExact_iff hcfg).2 h
    have hdom := dominatesExact_of_idomExact hcfg hidom
    exact ⟨hidom, hdom, loopHeadersExact_of_dominatesExact hcfg hdom⟩

/-! ### A loop without late edges -/

/-- A loop `1 → 2 → 1` with the exit `1 → 3`. -/
def loopCfg : Cfg := Cfg.ofSuccessors [[1], [2, 3], [1], []]

/-- The targets of finitely many successor lists. -/
theorem lt_of_mem_getD {successors : List (List ℕ)} {n : ℕ}
    (h : ∀ succs ∈ successors, ∀ w ∈ succs, w < n) (v : ℕ) {w : ℕ}
    (hw : w ∈ successors.getD v []) : w < n := by
  rw [List.getD_eq_getElem?_getD] at hw
  cases hs : successors[v]? with
  | none => simp [hs] at hw
  | some succs => exact h succs (List.mem_of_getElem? hs) w (by simpa [hs] using hw)

theorem loopCfg_wellFormed : loopCfg.WellFormed :=
  Cfg.ofSuccessors_wellFormed (by decide) fun v _ hw => lt_of_mem_getD (by decide) v hw

theorem loopCfg_no_late (x w : ℕ) : ¬ LateEdge loopCfg x w := by
  intro h
  have hx : x < 4 := h.1.source_lt
  have hall : ∀ x < 4, ∀ w ∈ loopCfg.succs x, ¬ LateEdge loopCfg x w := by decide
  exact hall x hx w h.1 h

/-- The loop and its header are found. -/
theorem dominators_exact_iff_loopCfg :
    IdomExact loopCfg ∧ DominatesExact loopCfg ∧ LoopHeadersExact loopCfg :=
  (dominators_exact_iff loopCfg_wellFormed).2 fun x w h => absurd h (loopCfg_no_late x w)

/-! ### An edge that comes late -/

/-- Two paths lead to block `1`: `0 → 4 → 1` and `0 → 2 → 3 → 1`. Block `4` is visited first and
pushes the blocks `1` and `3`; block `3` is visited while `1` waits on the stack. -/
def crossingCfg : Cfg := Cfg.ofSuccessors [[2, 4], [4], [3], [1], [1, 3]]

theorem crossingCfg_wellFormed : crossingCfg.WellFormed :=
  Cfg.ofSuccessors_wellFormed (by decide) fun v _ hw => lt_of_mem_getD (by decide) v hw

/-- No path through block `2` visits block `4`. -/
theorem crossingCfg_path : Flow.Path crossingCfg.Edge 0 1 [1, 3, 2, 0] :=
  ((Flow.Path.start.step (show (2 : ℕ) ∈ crossingCfg.succs 0 by decide)).step
    (show (3 : ℕ) ∈ crossingCfg.succs 2 by decide)).step
    (show (1 : ℕ) ∈ crossingCfg.succs 3 by decide)

/-- Block `4` is computed to be the immediate dominator of block `1`, which it does not
dominate, and the edge `1 → 4` is reported as a back edge. -/
theorem crossingCfg_inexact :
    ¬ IdomExact crossingCfg ∧ ¬ DominatesExact crossingCfg ∧ ¬ LoopHeadersExact crossingCfg := by
  have hreach : Flow.Reachable crossingCfg.Edge 0 1 := ⟨_, crossingCfg_path⟩
  have hno : ¬ Flow.Dominates crossingCfg.Edge 0 4 1 := fun h => by
    have hmem := h _ crossingCfg_path
    simp at hmem
  have hidom : computeIdomLengauerTarjan crossingCfg 1 = some 4 := by decide
  have hdom : dominates (computeIdomLengauerTarjan crossingCfg) 4 1 crossingCfg.size = true := by
    decide
  refine ⟨fun h => hno ((h 1 hreach 4).1 hidom).1.2, fun h => hno ((h 4 1 hreach).1 hdom), ?_⟩
  rintro ⟨headers, hok, hexact⟩
  obtain ⟨headers', hok', hmem⟩ := findLoopHeaders_ok crossingCfg_wellFormed
  obtain rfl : headers' = headers := Except.ok.inj (hok'.symm.trans hok)
  have hback : (1 : ℕ) ∈ headers' 4 :=
    (hmem 1 4).2 ⟨hreach, show (4 : ℕ) ∈ crossingCfg.succs 1 by decide, hdom⟩
  exact hno ((hexact 1 4).1 hback).2.2

end TrustMc.LoopUnroll
