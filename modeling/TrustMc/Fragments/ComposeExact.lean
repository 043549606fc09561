import TrustMc.Fragments.Chains

/-!
# What is composed, and what gets rules

`ComposedExactly` says of the rules of one fragment that the chains handed to
`generate_composed_rules` are control-flow paths, composed through terminators it handles and
entered at their heads only, that every block gets rules once, and that every edge finds a
relation. `Fits` is the condition on the fragment and on the relations there are before.

* A chain of a split fragment is checked without its dead end, so the terminator before the dead
  end is not checked (`Fits.chains`).
* The path of a fragment that is composed as a whole is not checked for edges from elsewhere
  (`Fits.joins`).
* `composedExactly_iff_fits`: the rules of a fragment are composed exactly if and only if the
  fragment fits.
-/

namespace TrustMc.Fragments

open LoopUnroll

namespace ChcCtx

variable {M : Mir} {ctx : ChcCtx M}

/-! ### What is to hold -/

/-- The fragment is neither a chain of gotos nor composable: it is split at its calls. -/
def Splits (ctx : ChcCtx M) (f : Fragment) : Prop :=
  ctx.isComposableLinearChain f.blocks = false ∧
    ctx.isComposableFragment f.blocks f.entryBb = false

/-- The rules of a fragment are exact. -/
structure ComposedExactly (ctx : ChcCtx M) (s : Step) : Prop where
  /-- A chain that is handed on is a control-flow path. -/
  path : ∀ c ∈ s.after.handed, c.chain.IsChain fun u w => w ∈ ctx.successors u
  /-- It ends in terminators that can be composed through, but for the last. -/
  handled : ∀ c ∈ s.after.handed, ∀ b ∈ c.chain.dropLast, ctx.composesThrough b = true
  /-- A later block has a relation, or no live predecessor but the block before it. -/
  joins : ∀ c ∈ s.after.handed, c.chain.IsChain fun u x =>
    x ∈ c.relations ∨ ∀ p, ctx.Live p → x ∈ ctx.successors p → p = u
  /-- Rules are emitted for every block once. -/
  once : ∀ b ∈ s.fragment.blocks, ctx.isUnreachable b = false →
    (s.after.emissions.flatMap Emission.chain).count b = 1
  /-- They start at a block with a relation. -/
  owned : ∀ e ∈ s.after.emissions, ∃ b ∈ e.chain.head?, b ∈ e.relations
  /-- An edge leads on along the chain, to a block with a relation or to an unreachable one.
  Unwind edges to blocks without relation are left out on purpose. -/
  edges : ∀ e ∈ s.after.emissions, ∀ pre u post, e.chain = pre ++ u :: post →
    ∀ t ∈ ctx.targets u, post.head? = some t ∨ t ∈ e.relations ∨ ctx.isUnreachable t = true

/-- Where a chain of a split fragment counts as composable and ends in a dead end, the terminator
before the dead end can be composed through. -/
def ChainsFit (ctx : ChcCtx M) (f : Fragment) : Prop :=
  ctx.Splits f → ∀ chain ∈ (ctx.buildChains f.blocks).chainEntries, ∀ entry ∈ chain.head?,
    ctx.isComposableFragment chain entry = true →
      ∀ pre p l, chain = pre ++ [p, l] → l ∈ ctx.computeDeadEndBlocks chain entry →
        ctx.composesThrough p = true

/-- Where the fragment is composed as a whole, a live block with an edge to a block without
relation on its path is listed before it. -/
def JoinsFit (ctx : ChcCtx M) (f : Fragment) (relations : List ℕ) : Prop :=
  ∀ x ∈ f.blocks, x ≠ f.entryBb → x ∉ relations →
    (ctx.isComposableLinearChain f.blocks = true ∨
      ctx.isComposableFragment f.blocks f.entryBb = true ∧
        x ∉ ctx.computeDeadEndBlocks f.blocks f.entryBb) →
    ∀ p, ctx.Live p → x ∈ ctx.successors p → p ∈ f.blocks ∧ f.blocks.idxOf p < f.blocks.idxOf x

/-- An edge leads to a block of the fragment, to one with a relation, to an unreachable one or,
where the fragment is split, to the landing pad of one of the calls. -/
def EdgesFit (ctx : ChcCtx M) (f : Fragment) (relations : List ℕ) : Prop :=
  ∀ u ∈ f.blocks, ∀ t ∈ ctx.targets u, t ∈ f.blocks ∨ t ∈ relations ∨
    ctx.isUnreachable t = true ∨
      ctx.Splits f ∧ t ∈ (ctx.callBlocks f.blocks).filterMap ctx.landingPad

/-- The condition on a fragment and the relations declared before it. -/
structure Fits (ctx : ChcCtx M) (f : Fragment) (relations : List ℕ) : Prop where
  chains : ctx.ChainsFit f
  joins : ctx.JoinsFit f relations
  edges : ctx.EdgesFit f relations

/-! ### The checks -/

theorem isComposableLinearChain_iff {l : List ℕ} :
    ctx.isComposableLinearChain l = true ↔
      l.IsChain fun u w => ctx.kind u = some (.goto w) := by
  induction l with
  | nil => simp [isComposableLinearChain]
  | cons u l ih =>
    cases l with
    | nil => simp [isComposableLinearChain]
    | cons w l =>
      rw [isComposableLinearChain, List.isChain_cons_cons, Bool.and_eq_true, ih]
      refine and_congr_left fun _ => ?_
      split
      · rename_i target hkind
        simp [hkind]
      · rename_i hkind
        exact iff_of_false (by simp) fun h => hkind w h

theorem isControlFlowPath_iff {l : List ℕ} :
    ctx.isControlFlowPath l = true ↔ l.IsChain fun u w => w ∈ ctx.successors u := by
  induction l with
  | nil => simp [isControlFlowPath]
  | cons u l ih =>
    cases l with
    | nil => simp [isControlFlowPath]
    | cons w l =>
      rw [isControlFlowPath, List.isChain_cons_cons, Bool.and_eq_true, ih,
        List.contains_iff_mem]

theorem checkPath_iff {blocks : List ℕ} {entry : ℕ} {l : List ℕ} :
    ctx.checkPath blocks entry l = true ↔
      l.IsChain fun u w => ctx.inFragSuccs blocks entry u = [w] ∧ ctx.composesThrough u = true := by
  induction l with
  | nil => simp [checkPath]
  | cons u l ih =>
    cases l with
    | nil => simp [checkPath]
    | cons w l =>
      rw [checkPath, List.isChain_cons_cons, Bool.and_eq_true, Bool.and_eq_true, ih, beq_iff_eq]

theorem goto_spec {u w : ℕ} (h : ctx.kind u = some (.goto w)) :
    ctx.successors u = [w] ∧ ctx.targets u = [w] ∧ ctx.composesThrough u = true := by
  refine ⟨?_, ?_, ?_⟩
  · simp [successors, h, TerminatorKind.exits, TerminatorKind.targets, TerminatorKind.cleanups]
  · simp [targets, h, TerminatorKind.targets]
  · simp [composesThrough, h]

theorem mem_deadEnds {blocks : List ℕ} {entry b : ℕ} :
    b ∈ ctx.computeDeadEndBlocks blocks entry ↔
      b ∈ blocks ∧ ∀ s ∈ ctx.successors b, s ≠ entry ∧ (s ∈ blocks → s = b) := by
  simp only [computeDeadEndBlocks, List.mem_filter, Bool.not_eq_true', List.any_eq_false,
    Bool.or_eq_true, Bool.and_eq_true, beq_iff_eq, bne_iff_ne, List.contains_iff_mem, not_or,
    not_and, not_not, ne_eq]

theorem mem_pathBlocks {blocks : List ℕ} {entry b : ℕ} :
    b ∈ ctx.pathBlocks blocks entry ↔
      b ∈ blocks ∧ b ∉ ctx.computeDeadEndBlocks blocks entry := by
  simp [pathBlocks]

/-- The only successor inside the fragment, but for the entry and the dead ends. -/
theorem inFragSuccs_spec {blocks : List ℕ} {entry u w : ℕ}
    (h : ctx.inFragSuccs blocks entry u = [w]) :
    w ∈ ctx.successors u ∧ ∀ s ∈ ctx.successors u, s ∈ blocks → s ≠ entry →
      s ∉ ctx.computeDeadEndBlocks blocks entry → s = w := by
  have hmem : ∀ s, s ∈ ctx.inFragSuccs blocks entry u ↔ s ∈ ctx.successors u ∧
      (s ∈ blocks ∧ s ≠ entry) ∧ s ∉ ctx.computeDeadEndBlocks blocks entry := by
    intro s
    simp [inFragSuccs]
  rw [h] at hmem
  refine ⟨((hmem w).1 (List.mem_singleton_self w)).1, fun s hs hb he hd => ?_⟩
  exact List.mem_singleton.1 ((hmem s).2 ⟨hs, ⟨hb, he⟩, hd⟩)

/-- The path of a composable fragment, checked all along. -/
theorem isComposableFragment_spec {blocks : List ℕ} {entry : ℕ} (hlen : 1 < blocks.length)
    (h : ctx.isComposableFragment blocks entry = true) :
    1 < (ctx.pathBlocks blocks entry).length ∧
      (ctx.pathBlocks blocks entry).IsChain fun u w =>
        ctx.inFragSuccs blocks entry u = [w] ∧ ctx.composesThrough u = true := by
  rw [isComposableFragment, if_neg (by omega)] at h
  split_ifs at h with hpath
  exact ⟨by omega, checkPath_iff.1 h⟩

/-! ### The listing of a fragment -/

/-- What is known of a fragment when its rules are generated. -/
structure Listed (ctx : ChcCtx M) (f : Fragment) (relations : List ℕ) : Prop where
  nodup : f.blocks.Nodup
  head : f.blocks.head? = some f.entryBb
  live : ∀ b ∈ f.blocks, ctx.Live b
  forward : ∀ u ∈ f.blocks, ∀ w ∈ f.blocks, w ∈ ctx.targets u → w ≠ f.entryBb →
    f.blocks.idxOf u < f.blocks.idxOf w
  pred : ∀ w ∈ f.blocks, w ≠ f.entryBb → ∃ u ∈ f.blocks, w ∈ ctx.targets u
  entry : f.entryBb ∈ relations

theorem edge_iff_mem_targets {u w : ℕ} :
    (Cfg.fromBody ctx.body).Edge u w ↔ w ∈ ctx.targets u :=
  fromBody_edge.trans mem_targets.symm

/-- The fragments are listed so, wherever their entries have relations. -/
theorem listed_of_mem_fragments {f : Fragment} {relations : List ℕ}
    (hf : f ∈ (analyzeFragments ctx.body).fragments)
    (hrel : ∀ b < ctx.body.blocks.length, b ∈ (analyzeFragments ctx.body).cutPointSet →
      b ∈ relations) : ctx.Listed f relations := by
  have hcfg := fromBody_wellFormed ctx.valid
  obtain ⟨e, hr, hcut, rfl⟩ := (mem_fragments ctx.valid).1 hf
  set cut : ℕ → Bool := fun bb => decide (bb ∈ (analyzeFragments ctx.body).cutPointSet)
  have hcut' : cut e = true := decide_eq_true hcut
  obtain ⟨hnd, hin, hforward⟩ := buildFragment_spec hcfg hcut' hr
  obtain ⟨rest, hrest⟩ := head_buildFragment hcfg hcut' hr
  refine ⟨hnd, by rw [hrest]; rfl, fun b hb => ?_, fun u hu w hw hE hne => ?_,
    fun w hw hne => ?_, hrel e (by
      simpa [Cfg.size, Cfg.fromBody, Cfg.ofSuccessors] using hcfg.lt_of_reachable hr) hcut⟩
  · obtain ⟨p, hp⟩ := (hin b hb).reachable hr
    exact ⟨p, hp.mono fun u w hE => mem_successors_of_mem_targets (edge_iff_mem_targets.1 hE)⟩
  · exact hforward u w hw (hin u hu) (edge_iff_mem_targets.2 hE)
      ((hin w hw).eq_or_cut.resolve_left hne)
  · rcases Relation.ReflTransGen.cases_tail (hin w hw) with h | ⟨u, hu, hE⟩
    · exact absurd h hne
    · have hlt := hforward u w hw hu hE.1 hE.2
      refine ⟨u, ?_, edge_iff_mem_targets.1 hE.1⟩
      exact List.idxOf_lt_length_iff.1 (hlt.trans (List.idxOf_lt_length_of_mem hw))

/-! ### Lists -/

theorem mem_dropLast_iff {b : ℕ} {l : List ℕ} :
    b ∈ l.dropLast ↔ ∃ pre w post, l = pre ++ b :: w :: post := by
  induction l with
  | nil => simp
  | cons a l ih =>
    cases l with
    | nil =>
      refine iff_of_false (by simp) ?_
      rintro ⟨pre, w, post, h⟩
      have hlen := congrArg List.length h
      simp at hlen
      omega
    | cons c l =>
      rw [List.dropLast_cons_cons, List.mem_cons, ih]
      constructor
      · rintro (rfl | ⟨pre, w, post, h⟩)
        · exact ⟨[], c, l, rfl⟩
        · exact ⟨a :: pre, w, post, by rw [h]; rfl⟩
      · rintro ⟨pre, w, post, h⟩
        cases pre with
        | nil => exact .inl (List.cons.inj h).1.symm
        | cons a' pre => exact .inr ⟨pre, w, post, (List.cons.inj h).2⟩

theorem pairwise_idxOf {l : List ℕ} (h : l.Nodup) :
    l.Pairwise fun a b => l.idxOf a < l.idxOf b :=
  List.pairwise_iff_getElem.2 fun i j hi hj hij => by
    rw [h.idxOf_getElem, h.idxOf_getElem]
    exact hij

/-- In a list without repetitions, a block has one successor. -/
theorem split_unique {l pre pre' post post' : List ℕ} {u : ℕ} (h : l.Nodup)
    (hl : l = pre ++ u :: post) (hl' : l = pre' ++ u :: post') : pre = pre' ∧ post = post' := by
  rw [hl] at h
  obtain ⟨-, hcons, hdisj⟩ := List.nodup_append.1 h
  have hpre : u ∉ pre := fun hu => hdisj u hu u List.mem_cons_self rfl
  have hpost : u ∉ post := (List.nodup_cons.1 hcons).1
  obtain ⟨h₁, -, h₂⟩ := (List.append_cons_inj_of_notMem hpre hpost).1 (hl.symm.trans hl')
  exact ⟨h₁, h₂⟩

theorem single_split {b u : ℕ} {pre post : List ℕ} (h : [b] = pre ++ u :: post) :
    b = u ∧ post = [] := by
  cases pre with
  | nil => simpa [eq_comm] using h
  | cons a pre => simp at h

/-! ### The path of a fragment that is composed as a whole -/

/-- The path that is composed. -/
structure MainPath (ctx : ChcCtx M) (f : Fragment) (path : List ℕ) : Prop where
  head : path.head? = some f.entryBb
  sub : ∀ b ∈ path, b ∈ f.blocks
  sorted : path.Pairwise fun a b => f.blocks.idxOf a < f.blocks.idxOf b
  next : path.IsChain fun u w => w ∈ ctx.successors u ∧ ctx.composesThrough u = true ∧
    ∀ s ∈ ctx.successors u, s ∈ path → s ≠ f.entryBb → s = w
  off : ∀ p ∈ f.blocks, p ∉ path → ∀ s ∈ ctx.successors p, s ∉ path

variable {f : Fragment} {relations : List ℕ}

theorem mainPath_of_linear (hf : ctx.Listed f relations)
    (h : ctx.isComposableLinearChain f.blocks = true) : ctx.MainPath f f.blocks where
  head := hf.head
  sub _ hb := hb
  sorted := pairwise_idxOf hf.nodup
  next := (isComposableLinearChain_iff.1 h).imp fun u w hkind => by
    obtain ⟨hsucc, -, hthrough⟩ := goto_spec hkind
    simp [hsucc, hthrough]
  off _ hp hp' := absurd hp hp'

/-- The entry is no dead end: the block after it is entered from it. -/
theorem entry_notMem_deadEnds (hf : ctx.Listed f relations) (hlen : 1 < f.blocks.length) :
    f.entryBb ∉ ctx.computeDeadEndBlocks f.blocks f.entryBb := by
  intro hdead
  have hnd := hf.nodup
  have hhead := hf.head
  have hpred := hf.pred
  have hforward := hf.forward
  obtain ⟨-, hall⟩ := mem_deadEnds.1 hdead
  cases hblocks : f.blocks with
  | nil => simp [hblocks] at hlen
  | cons e rest =>
    cases rest with
    | nil => simp [hblocks] at hlen
    | cons w rest =>
      rw [hblocks] at hnd hhead hpred hforward hall
      obtain rfl : e = f.entryBb := by simpa using hhead
      have hne : w ≠ f.entryBb := by
        rintro rfl
        simp at hnd
      obtain ⟨u, hu, hE⟩ := hpred w (by simp) hne
      have hlt := hforward u hu w (by simp) hE hne
      have hidx : (f.entryBb :: w :: rest).idxOf w = 1 := by
        rw [List.idxOf_cons_ne _ hne.symm, List.idxOf_cons_self]
      rw [hidx] at hlt
      have hzero : (f.entryBb :: w :: rest).idxOf u = 0 := by omega
      obtain rfl : f.entryBb = u := by
        by_contra hue
        rw [List.idxOf_cons_ne _ hue] at hzero
        omega
      exact hne ((hall w (mem_successors_of_mem_targets hE)).2 (by simp))

theorem mainPath_of_composable (hf : ctx.Listed f relations) (hlen : 1 < f.blocks.length)
    (h : ctx.isComposableFragment f.blocks f.entryBb = true) :
    ctx.MainPath f (ctx.pathBlocks f.blocks f.entryBb) where
  head := by
    have hhead := hf.head
    have hentry := entry_notMem_deadEnds hf hlen
    unfold pathBlocks
    generalize ctx.computeDeadEndBlocks f.blocks f.entryBb = dead at hentry
    cases hblocks : f.blocks with
    | nil => simp [hblocks] at hlen
    | cons e rest =>
      rw [hblocks] at hhead
      obtain rfl : e = f.entryBb := by simpa using hhead
      simp [hentry]
  sub b hb := (mem_pathBlocks.1 hb).1
  sorted := (pairwise_idxOf hf.nodup).filter _
  next := (isComposableFragment_spec hlen h).2.imp fun u w ⟨hsucc, hthrough⟩ => by
    obtain ⟨hw, honly⟩ := inFragSuccs_spec hsucc
    refine ⟨hw, hthrough, fun s hs hpath hne => ?_⟩
    exact honly s hs (mem_pathBlocks.1 hpath).1 hne (mem_pathBlocks.1 hpath).2
  off p hp hp' s hs hpath := by
    have hdead : p ∈ ctx.computeDeadEndBlocks f.blocks f.entryBb := by
      by_contra hdead
      exact hp' (mem_pathBlocks.2 ⟨hp, hdead⟩)
    have hsp := ((mem_deadEnds.1 hdead).2 s hs).2 (mem_pathBlocks.1 hpath).1
    exact hp' (hsp ▸ hpath)

/-- An edge of the path leads on along the path, to the entry or off the path. -/
theorem MainPath.target {path : List ℕ} (h : ctx.MainPath f path) (hf : ctx.Listed f relations)
    {pre post : List ℕ} {u t : ℕ} (hpath : path = pre ++ u :: post) (ht : t ∈ ctx.targets u)
    (hmem : t ∈ path) : post.head? = some t ∨ t = f.entryBb := by
  by_cases hne : t = f.entryBb
  · exact .inr hne
  have hu : u ∈ path := by simp [hpath]
  cases post with
  | nil =>
    -- the last block of the path, and an edge that goes forward
    have hlt := hf.forward u (h.sub u hu) t (h.sub t hmem) ht hne
    have hsorted := h.sorted
    rw [hpath] at hmem hsorted
    rcases List.mem_append.1 hmem with hmem | hmem
    · have hback := (List.pairwise_append.1 hsorted).2.2 t hmem u (by simp)
      omega
    · obtain rfl : t = u := by simpa using hmem
      omega
  | cons w post =>
    obtain ⟨-, -, honly⟩ := List.isChain_iff_forall_rel_of_append_cons_cons.1 h.next hpath
    exact .inl (congrArg some
      (honly t (mem_successors_of_mem_targets ht) hmem hne).symm)

/-- The path is entered at its entry only, exactly when every live edge to a later block comes
from a block listed before it. -/
theorem MainPath.joins_iff {path now : List ℕ} (h : ctx.MainPath f path)
    (hnow : ∀ x ∈ path, x ∈ now ↔ x ∈ relations) :
    (path.IsChain fun u x => x ∈ now ∨ ∀ p, ctx.Live p → x ∈ ctx.successors p → p = u) ↔
      ∀ x ∈ path, x ≠ f.entryBb → x ∉ relations → ∀ p, ctx.Live p → x ∈ ctx.successors p →
        p ∈ f.blocks ∧ f.blocks.idxOf p < f.blocks.idxOf x := by
  rw [List.isChain_iff_forall_rel_of_append_cons_cons]
  constructor
  · intro hjoins x hx hne hrel p hlive hE
    obtain ⟨pre, post, hsplit⟩ := List.append_of_mem hx
    obtain rfl | ⟨pre, u, rfl⟩ := pre.eq_nil_or_concat'
    · have hhead := h.head
      rw [hsplit] at hhead
      exact absurd (Option.some.inj hhead) hne
    · rw [List.append_assoc, List.singleton_append] at hsplit
      have hu := ((hjoins hsplit).resolve_left fun hx' => hrel ((hnow x hx).1 hx')) p hlive hE
      subst hu
      refine ⟨h.sub p (by simp [hsplit]), ?_⟩
      have hsorted := h.sorted
      rw [hsplit] at hsorted
      exact (List.pairwise_cons.1 (List.pairwise_append.1 hsorted).2.1).1 x (by simp)
  · intro hall u x pre post hsplit
    by_cases hrel : x ∈ relations
    · exact .inl ((hnow x (by simp [hsplit])).2 hrel)
    refine .inr fun p hlive hE => ?_
    have hx : x ∈ path := by simp [hsplit]
    have hnd : path.Nodup := h.sorted.imp fun hlt heq => by simp [heq] at hlt
    have hne : x ≠ f.entryBb := by
      rintro rfl
      have hhead := h.head
      rw [hsplit] at hhead hnd
      cases pre with
      | nil =>
        obtain rfl : u = f.entryBb := by simpa using hhead
        simp at hnd
      | cons a pre =>
        obtain rfl : a = f.entryBb := by simpa using hhead
        simp at hnd
    obtain ⟨hp, hlt⟩ := hall x hx hne hrel p hlive hE
    have hpath : p ∈ path := by
      by_contra hpath
      exact h.off p hp hpath x hE hx
    -- before `x` on the path, so the block after `p` is its only successor on the path
    have hsorted := h.sorted
    rw [hsplit, List.append_cons] at hpath hsorted
    have hbefore : p ∈ pre ++ [u] := by
      rcases List.mem_append.1 hpath with hp' | hp'
      · exact hp'
      · rcases List.mem_cons.1 hp' with rfl | hp'
        · omega
        · have hafter := (List.pairwise_cons.1 (List.pairwise_append.1 hsorted).2.1).1 p hp'
          omega
    obtain ⟨a, w, b, hpw⟩ := (mem_dropLast_iff (b := p) (l := pre ++ u :: [x])).1 (by
      rw [List.append_cons, List.dropLast_concat]
      exact hbefore)
    have hwhole : path = a ++ p :: w :: (b ++ post) := by
      rw [hsplit]
      have := congrArg (· ++ post) hpw
      simpa using this
    obtain ⟨-, -, honly⟩ := List.isChain_iff_forall_rel_of_append_cons_cons.1 h.next hwhole
    obtain rfl := honly x hE hx hne
    have heq := split_unique hnd (hsplit.trans (List.append_cons pre u (x :: post)))
      (hwhole.trans (List.append_cons a p (x :: (b ++ post))))
    simpa using (List.append_inj' heq.1 rfl).2.symm

/-! ### Declarations and rules -/

theorem foldl_declare (l : List ℕ) (s : GenState) :
    ∃ now, l.foldl GenState.declareBlockRelationIfNeeded s = ⟨now, s.handed, s.emissions⟩ ∧
      ∀ x, x ∈ now ↔ x ∈ s.relations ∨ x ∈ l := by
  induction l generalizing s with
  | nil => exact ⟨s.relations, rfl, by simp⟩
  | cons b l ih =>
    rw [List.foldl_cons, GenState.declareBlockRelationIfNeeded]
    split_ifs with hb
    · obtain ⟨now, hfold, hnow⟩ := ih s
      refine ⟨now, hfold, fun x => ?_⟩
      rw [hnow, List.mem_cons]
      refine ⟨Or.imp_right .inr, ?_⟩
      rintro (h | rfl | h)
      · exact .inl h
      · exact .inl hb
      · exact .inr h
    · obtain ⟨now, hfold, hnow⟩ := ih { s with relations := b :: s.relations }
      refine ⟨now, hfold, fun x => ?_⟩
      rw [hnow, List.mem_cons, List.mem_cons]
      tauto

theorem foldl_single {l : List ℕ} {s : GenState} (h : ∀ b ∈ l, b ∈ s.relations) :
    l.foldl GenState.generateSingleBlockRules s =
      ⟨s.relations, s.handed, s.emissions ++ l.map fun b => ⟨[b], s.relations⟩⟩ := by
  induction l generalizing s with
  | nil => simp
  | cons b l ih =>
    have hs : s.generateSingleBlockRules b =
        ⟨s.relations, s.handed, s.emissions ++ [⟨[b], s.relations⟩]⟩ :=
      if_pos (h b List.mem_cons_self)
    have hrest := @ih ⟨s.relations, s.handed, s.emissions ++ [⟨[b], s.relations⟩]⟩ fun x hx =>
      h x (List.mem_cons_of_mem _ hx)
    rw [List.foldl_cons, hs, hrest]
    simp

/-- Every block of the list gets a relation and rules of its own. -/
theorem generatePerblock_spec (l : List ℕ) (s : GenState) :
    ∃ now, (∀ x, x ∈ now ↔ x ∈ s.relations ∨ x ∈ l) ∧
      s.generatePerblock l = ⟨now, s.handed, s.emissions ++ l.map fun b => ⟨[b], now⟩⟩ := by
  obtain ⟨now, hfold, hnow⟩ := foldl_declare l s
  refine ⟨now, hnow, ?_⟩
  rw [GenState.generatePerblock, hfold, foldl_single fun b hb => (hnow b).2 (.inr hb)]

/-- A control-flow path from a block with a relation is composed. -/
theorem generateComposedRules_eq {entry : ℕ} {path : List ℕ} {s : GenState} (hne : path ≠ [])
    (hentry : entry ∈ s.relations) (hpath : path.IsChain fun u w => w ∈ ctx.successors u) :
    ctx.generateComposedRules entry path s =
      ⟨s.relations, s.handed ++ [⟨path, s.relations⟩], s.emissions ++ [⟨path, s.relations⟩]⟩ := by
  rw [generateComposedRules, if_neg hne]
  dsimp only
  rw [if_neg (not_not.2 hentry), if_pos (isControlFlowPath_iff.2 hpath)]

/-- The relations that are declared while the rules of a fragment are generated. -/
def Declared (ctx : ChcCtx M) (f : Fragment) (relations : List ℕ) (x : ℕ) : Prop :=
  x ∈ relations ∨ x ∈ f.blocks ∨
    ctx.Splits f ∧ x ∈ (ctx.callBlocks f.blocks).filterMap ctx.landingPad

/-- What holds of the rules of a fragment, whether it fits or not. -/
structure Generated (ctx : ChcCtx M) (s : Step) : Prop where
  path : ∀ c ∈ s.after.handed, c.chain.IsChain fun u w => w ∈ ctx.successors u
  sub : ∀ e ∈ s.after.emissions, ∀ b ∈ e.chain, b ∈ s.fragment.blocks
  once : ∀ b ∈ s.fragment.blocks, ctx.isUnreachable b = false →
    (s.after.emissions.flatMap Emission.chain).count b = 1
  owned : ∀ e ∈ s.after.emissions, ∃ b ∈ e.chain.head?, b ∈ e.relations
  declared : ∀ e ∈ s.after.emissions, ∀ t ∈ e.relations, ctx.Declared s.fragment s.before t
  known : ∀ e ∈ s.after.emissions, ∀ t, t ∈ s.before ∨
    ctx.Splits s.fragment ∧ t ∈ (ctx.callBlocks s.fragment.blocks).filterMap ctx.landingPad →
      t ∈ e.relations
  inner : ∀ e ∈ s.after.emissions, ∀ pre u post, e.chain = pre ++ u :: post →
    ∀ t ∈ ctx.targets u, t ∈ s.fragment.blocks →
      post.head? = some t ∨ t ∈ e.relations ∨ ctx.isUnreachable t = true

theorem targets_of_isUnreachable {u : ℕ} (h : ctx.isUnreachable u = true) :
    ctx.targets u = [] := by
  unfold isUnreachable at h
  split at h
  · rename_i hkind
    simp [targets, hkind, TerminatorKind.targets]
  · cases h

/-- Every edge finds a relation exactly when none leaves for a block that gets none. -/
theorem Generated.edges_iff {s : Step} (h : ctx.Generated s) :
    (∀ e ∈ s.after.emissions, ∀ pre u post, e.chain = pre ++ u :: post →
      ∀ t ∈ ctx.targets u, post.head? = some t ∨ t ∈ e.relations ∨ ctx.isUnreachable t = true) ↔
      ctx.EdgesFit s.fragment s.before := by
  constructor
  · intro hedges u hu t ht
    have hreach : ctx.isUnreachable u = false := by
      by_contra hun
      rw [targets_of_isUnreachable (by simpa using hun)] at ht
      simp at ht
    have hmem : u ∈ s.after.emissions.flatMap Emission.chain :=
      List.count_pos_iff.1 (by rw [h.once u hu hreach]; exact Nat.one_pos)
    obtain ⟨e, he, hue⟩ := List.mem_flatMap.1 hmem
    obtain ⟨pre, post, hsplit⟩ := List.append_of_mem hue
    rcases hedges e he pre u post hsplit t ht with hnext | hrel | hun
    · have htpost : t ∈ post := List.mem_of_head? hnext
      exact .inl (h.sub e he t (by simp [hsplit, htpost]))
    · rcases h.declared e he t hrel with hbefore | hblock | hpad
      · exact .inr (.inl hbefore)
      · exact .inl hblock
      · exact .inr (.inr (.inr hpad))
    · exact .inr (.inr (.inl hun))
  · intro hedges e he pre u post hsplit t ht
    rcases hedges u (h.sub e he u (by simp [hsplit])) t ht with hblock | hbefore | hun | hpad
    · exact h.inner e he pre u post hsplit t ht hblock
    · exact .inr (.inl (h.known e he t (.inl hbefore)))
    · exact .inr (.inr hun)
    · exact .inr (.inl (h.known e he t (.inr hpad)))

/-! ### A fragment that is composed as a whole -/

/-- The dead ends get a relation and rules of their own, one after the other. -/
theorem foldl_deadEnds (dead : List ℕ) (s : GenState) :
    ∃ now rules, dead.foldl
        (fun s bb => (s.declareBlockRelationIfNeeded bb).generateSingleBlockRules bb) s =
        ⟨now, s.handed, s.emissions ++ rules⟩ ∧
      (∀ x, x ∈ now ↔ x ∈ s.relations ∨ x ∈ dead) ∧ rules.flatMap Emission.chain = dead ∧
      ∀ e ∈ rules, ∃ d ∈ dead, e.chain = [d] ∧ d ∈ e.relations ∧
        (∀ x ∈ s.relations, x ∈ e.relations) ∧ ∀ x ∈ e.relations, x ∈ s.relations ∨ x ∈ dead := by
  induction dead generalizing s with
  | nil => exact ⟨s.relations, [], by simp, by simp, rfl, by simp⟩
  | cons d dead ih =>
    obtain ⟨here, hdecl, hhere⟩ := foldl_declare [d] s
    have hd : d ∈ here := (hhere d).2 (.inr (List.mem_singleton_self d))
    have hstep : (s.declareBlockRelationIfNeeded d).generateSingleBlockRules d =
        ⟨here, s.handed, s.emissions ++ [⟨[d], here⟩]⟩ := by
      rw [show s.declareBlockRelationIfNeeded d = ⟨here, s.handed, s.emissions⟩ from hdecl]
      exact if_pos hd
    obtain ⟨now, rules, hfold, hnow, hchains, hrules⟩ :=
      ih ⟨here, s.handed, s.emissions ++ [⟨[d], here⟩]⟩
    have hbound : ∀ x, (x ∈ here ∨ x ∈ dead) → x ∈ s.relations ∨ x ∈ d :: dead := by
      intro x hx
      rw [hhere, List.mem_singleton] at hx
      simpa [or_assoc] using hx
    refine ⟨now, ⟨[d], here⟩ :: rules, ?_, fun x => ?_, ?_, fun e he => ?_⟩
    · rw [List.foldl_cons, hstep, hfold]
      simp
    · rw [hnow, hhere, List.mem_singleton, List.mem_cons, or_assoc]
    · rw [List.flatMap_cons, hchains]
      rfl
    · rcases List.mem_cons.1 he with rfl | he
      · exact ⟨d, List.mem_cons_self, rfl, hd, fun x hx => (hhere x).2 (.inl hx),
          fun x hx => hbound x (.inl hx)⟩
      · obtain ⟨d', hd', hchain, hown, hsub, hmax⟩ := hrules e he
        exact ⟨d', List.mem_cons_of_mem _ hd', hchain, hown,
          fun x hx => hsub x ((hhere x).2 (.inl hx)), fun x hx => hbound x (hmax x hx)⟩

theorem generated_whole {path dead : List ℕ} (hf : ctx.Listed f relations)
    (hmain : ctx.MainPath f path) (hsplits : ¬ ctx.Splits f) (hperm : (dead ++ path).Perm f.blocks)
    (hdead : ∀ d ∈ dead, ∀ s ∈ ctx.successors d, s ∈ f.blocks → s = d) :
    ∃ now, (∀ x, x ∈ now ↔ x ∈ relations ∨ x ∈ dead) ∧
      (ctx.generateComposedRules f.entryBb path (dead.foldl
        (fun s bb => (s.declareBlockRelationIfNeeded bb).generateSingleBlockRules bb)
        ⟨relations, [], []⟩)).handed = [⟨path, now⟩] ∧
      ctx.Generated ⟨f, relations, ctx.generateComposedRules f.entryBb path (dead.foldl
        (fun s bb => (s.declareBlockRelationIfNeeded bb).generateSingleBlockRules bb)
        ⟨relations, [], []⟩)⟩ := by
  obtain ⟨now, rules, hfold, hnow, hchains, hrules⟩ := foldl_deadEnds dead ⟨relations, [], []⟩
  have hpath : path.IsChain fun u w => w ∈ ctx.successors u := hmain.next.imp fun u w h => h.1
  have hne : path ≠ [] := List.ne_nil_of_mem (List.mem_of_head? hmain.head)
  rw [hfold, generateComposedRules_eq hne ((hnow _).2 (.inl hf.entry)) hpath]
  simp only [List.nil_append]
  refine ⟨now, hnow, rfl, fun c hc => ?_, fun e he b hb => ?_, fun b hb _ => ?_, fun e he => ?_,
    fun e he t ht => ?_, fun e he t ht => ?_, fun e he pre u post hsplit t ht hblock => ?_⟩
  · obtain rfl := List.mem_singleton.1 hc
    exact hpath
  · rcases List.mem_append.1 he with he | he
    · obtain ⟨d, hd, hchain, -⟩ := hrules e he
      rw [hchain, List.mem_singleton] at hb
      exact hperm.subset (List.mem_append_left _ (hb ▸ hd))
    · obtain rfl := List.mem_singleton.1 he
      exact hmain.sub b hb
  · dsimp only
    rw [List.flatMap_append, hchains, List.flatMap_singleton, hperm.count_eq]
    exact List.count_eq_one_of_mem hf.nodup hb
  · rcases List.mem_append.1 he with he | he
    · obtain ⟨d, -, hchain, hown, -⟩ := hrules e he
      exact ⟨d, by rw [hchain]; rfl, hown⟩
    · obtain rfl := List.mem_singleton.1 he
      exact ⟨f.entryBb, hmain.head, (hnow _).2 (.inl hf.entry)⟩
  · have hbound : t ∈ relations ∨ t ∈ dead := by
      rcases List.mem_append.1 he with he | he
      · obtain ⟨-, -, -, -, -, hbound⟩ := hrules e he
        exact hbound t ht
      · obtain rfl := List.mem_singleton.1 he
        exact (hnow t).1 ht
    refine hbound.imp_right fun hd => .inl ?_
    exact hperm.subset (List.mem_append_left _ hd)
  · have hbefore : t ∈ relations := ht.resolve_right fun h => hsplits h.1
    rcases List.mem_append.1 he with he | he
    · obtain ⟨-, -, -, -, hsub, -⟩ := hrules e he
      exact hsub t hbefore
    · obtain rfl := List.mem_singleton.1 he
      exact (hnow t).2 (.inl hbefore)
  · rcases List.mem_append.1 he with he | he
    · -- a dead end leads to no block of the fragment but itself
      obtain ⟨d, hd, hchain, hown, -⟩ := hrules e he
      rw [hchain] at hsplit
      obtain ⟨rfl, -⟩ := single_split hsplit
      rw [hdead d hd t (mem_successors_of_mem_targets ht) hblock]
      exact .inr (.inl hown)
    · obtain rfl := List.mem_singleton.1 he
      rcases List.mem_append.1 (hperm.symm.subset hblock) with hd | hmem
      · exact .inr (.inl ((hnow t).2 (.inr hd)))
      · rcases hmain.target hf hsplit ht hmem with hnext | rfl
        · exact .inl hnext
        · exact .inr (.inl ((hnow _).2 (.inl hf.entry)))

/-! ### A fragment that is not composed as a whole -/

/-- Without calls to split at, every block gets rules of its own. -/
theorem generated_perblock (hf : ctx.Listed f relations) (hcalls : ctx.callBlocks f.blocks = []) :
    (GenState.generatePerblock ⟨relations, [], []⟩ f.blocks).handed = [] ∧
      ctx.Generated ⟨f, relations, GenState.generatePerblock ⟨relations, [], []⟩ f.blocks⟩ := by
  obtain ⟨now, hnow, hgen⟩ := generatePerblock_spec f.blocks ⟨relations, [], []⟩
  rw [hgen, List.nil_append]
  have hrule : ∀ e ∈ f.blocks.map fun b => (⟨[b], now⟩ : Emission), ∃ b ∈ f.blocks,
      e = ⟨[b], now⟩ := by
    intro e he
    obtain ⟨b, hb, rfl⟩ := List.mem_map.1 he
    exact ⟨b, hb, rfl⟩
  refine ⟨rfl, by simp, fun e he b hb => ?_, fun b hb _ => ?_, fun e he => ?_,
    fun e he t ht => ?_, fun e he t ht => ?_, fun e he pre u post hsplit t ht hblock => ?_⟩
  · obtain ⟨b', hb', rfl⟩ := hrule e he
    obtain rfl := List.mem_singleton.1 hb
    exact hb'
  · dsimp only
    rw [List.flatMap_map, List.flatMap_singleton']
    exact List.count_eq_one_of_mem hf.nodup hb
  · obtain ⟨b, hb, rfl⟩ := hrule e he
    exact ⟨b, rfl, (hnow b).2 (.inr hb)⟩
  · obtain ⟨b, hb, rfl⟩ := hrule e he
    exact ((hnow t).1 ht).imp_right .inl
  · obtain ⟨b, hb, rfl⟩ := hrule e he
    refine (hnow t).2 (.inl (ht.resolve_right fun h => ?_))
    simp [hcalls] at h
  · obtain ⟨b, hb, rfl⟩ := hrule e he
    exact .inr (.inl ((hnow t).2 (.inr hblock)))

/-- The chain is handed to `generate_composed_rules`. -/
def HandsOn (ctx : ChcCtx M) (chain : List ℕ) : Bool :=
  decide (1 < chain.length) && (ctx.isComposableLinearChain chain ||
    chain.head?.any (ctx.isComposableFragment chain))

/-- The rules of a chain: composed, or those of its blocks when all have relations. -/
def ChainRule (chain : List ℕ) (e : Emission) : Prop :=
  e.chain = chain ∨ ∃ b ∈ chain, e.chain = [b] ∧ ∀ x ∈ chain, x ∈ e.relations

/-- The rules of one chain whose head has a relation. -/
theorem generateChainRules_spec {blocks chain : List ℕ} {s : GenState}
    (hwalk : ctx.IsWalk blocks chain) (hhead : ∀ b ∈ chain.head?, b ∈ s.relations) :
    ∃ now hand rules, ctx.generateChainRules s chain =
        ⟨now, s.handed ++ hand, s.emissions ++ rules⟩ ∧
      (∀ x ∈ s.relations, x ∈ now) ∧ (∀ x ∈ now, x ∈ s.relations ∨ x ∈ chain) ∧
      rules.flatMap Emission.chain = chain ∧
      (∀ e ∈ rules, (∀ x ∈ s.relations, x ∈ e.relations) ∧
        (∀ x ∈ e.relations, x ∈ s.relations ∨ x ∈ chain) ∧ ChainRule chain e) ∧
      hand.map Emission.chain = if ctx.HandsOn chain then [chain] else [] := by
  obtain ⟨entry, rest, rfl⟩ := List.exists_cons_of_ne_nil hwalk.ne_nil
  have hentry : entry ∈ s.relations := hhead entry rfl
  cases rest with
  | nil =>
    refine ⟨s.relations, [], [⟨[entry], s.relations⟩], ?_, fun x hx => hx, fun x hx => .inl hx,
      rfl, fun e he => ?_, ?_⟩
    · rw [generateChainRules, GenState.generateSingleBlockRules, if_pos hentry, List.append_nil]
    · obtain rfl := List.mem_singleton.1 he
      exact ⟨fun x hx => hx, fun x hx => .inl hx, .inl rfl⟩
    · simp [HandsOn]
  | cons next rest =>
    rw [generateChainRules]
    · have hhands : ctx.HandsOn (entry :: next :: rest) =
          (ctx.isComposableLinearChain (entry :: next :: rest) ||
            ctx.isComposableFragment (entry :: next :: rest) entry) := by
        simp [HandsOn]
      rw [hhands]
      by_cases hcompose : (ctx.isComposableLinearChain (entry :: next :: rest) ||
          ctx.isComposableFragment (entry :: next :: rest) entry) = true
      · rw [if_pos hcompose, if_pos hcompose, generateComposedRules_eq (by simp) hentry
          (hwalk.path.imp fun u w h => h.1)]
        refine ⟨_, _, _, rfl, fun x hx => hx, fun x hx => .inl hx, by simp, fun e he => ?_, rfl⟩
        obtain rfl := List.mem_singleton.1 he
        exact ⟨fun x hx => hx, fun x hx => .inl hx, .inl rfl⟩
      · rw [if_neg hcompose, if_neg hcompose]
        obtain ⟨now, hnow, hgen⟩ := generatePerblock_spec (entry :: next :: rest) s
        refine ⟨now, [], _, by rw [hgen, List.append_nil], fun x hx => (hnow x).2 (.inl hx),
          fun x hx => (hnow x).1 hx, ?_, fun e he => ?_, rfl⟩
        · rw [List.flatMap_map, List.flatMap_singleton']
        · obtain ⟨b, hb, rfl⟩ := List.mem_map.1 he
          exact ⟨fun x hx => (hnow x).2 (.inl hx), fun x hx => (hnow x).1 hx,
            .inr ⟨b, hb, rfl, fun x hx => (hnow x).2 (.inr hx)⟩⟩
    · simp

/-- The rules of all chains. -/
theorem foldl_generateChainRules {blocks : List ℕ} {chains : List (List ℕ)} {s : GenState}
    (hwalk : ∀ chain ∈ chains, ctx.IsWalk blocks chain)
    (hhead : ∀ chain ∈ chains, ∀ b ∈ chain.head?, b ∈ s.relations) :
    ∃ now hand rules, chains.foldl ctx.generateChainRules s =
        ⟨now, s.handed ++ hand, s.emissions ++ rules⟩ ∧
      (∀ x ∈ s.relations, x ∈ now) ∧ (∀ x ∈ now, x ∈ s.relations ∨ x ∈ chains.flatten) ∧
      rules.flatMap Emission.chain = chains.flatten ∧
      (∀ e ∈ rules, (∀ x ∈ s.relations, x ∈ e.relations) ∧
        (∀ x ∈ e.relations, x ∈ s.relations ∨ x ∈ chains.flatten) ∧
        ∃ chain ∈ chains, ChainRule chain e) ∧
      hand.map Emission.chain = chains.filter ctx.HandsOn := by
  induction chains generalizing s with
  | nil => exact ⟨s.relations, [], [], by simp, fun x hx => hx, fun x hx => .inl hx, by simp⟩
  | cons chain chains ih =>
    obtain ⟨now₁, hand₁, rules₁, hgen₁, hsub₁, hbound₁, hchain₁, hrule₁, hhand₁⟩ :=
      generateChainRules_spec (hwalk chain List.mem_cons_self) (hhead chain List.mem_cons_self)
    obtain ⟨now, hand, rules, hgen, hsub, hbound, hchain, hrule, hhand⟩ :=
      @ih ⟨now₁, s.handed ++ hand₁, s.emissions ++ rules₁⟩
        (fun c hc => hwalk c (List.mem_cons_of_mem _ hc))
        fun c hc b hb => hsub₁ b (hhead c (List.mem_cons_of_mem _ hc) b hb)
    have hflat : ∀ x, (x ∈ now₁ ∨ x ∈ chains.flatten) →
        x ∈ s.relations ∨ x ∈ (chain :: chains).flatten := by
      rintro x (hx | hx)
      · exact (hbound₁ x hx).imp_right fun h => by simp [h]
      · exact .inr (by rw [List.flatten_cons]; exact List.mem_append_right _ hx)
    refine ⟨now, hand₁ ++ hand, rules₁ ++ rules, ?_, fun x hx => hsub x (hsub₁ x hx),
      fun x hx => hflat x (hbound x hx), ?_, fun e he => ?_, ?_⟩
    · rw [List.foldl_cons, hgen₁, hgen, List.append_assoc, List.append_assoc]
    · rw [List.flatMap_append, hchain₁, hchain, List.flatten_cons]
    · rcases List.mem_append.1 he with he | he
      · obtain ⟨hknown, hmax, hshape⟩ := hrule₁ e he
        exact ⟨hknown, fun x hx => (hmax x hx).imp_right fun h => by simp [h],
          chain, List.mem_cons_self, hshape⟩
      · obtain ⟨hknown, hmax, c, hc, hshape⟩ := hrule e he
        exact ⟨fun x hx => hknown x (hsub₁ x hx), fun x hx => hflat x (hmax x hx),
          c, List.mem_cons_of_mem _ hc, hshape⟩
    · rw [List.map_append, hhand₁, hhand, List.filter_cons]
      split_ifs <;> rfl

/-- What is known of the rules of a split fragment. -/
structure SplitRule (ctx : ChcCtx M) (blocks now : List ℕ) (e : Emission) : Prop where
  known : ∀ x ∈ now, x ∈ e.relations
  declared : ∀ x ∈ e.relations, x ∈ now ∨ x ∈ blocks
  shape : (∃ b, e.chain = [b] ∧ (b ∈ ctx.callBlocks blocks ∨ b ∈ ctx.orphans blocks)) ∨
    ∃ chain ∈ (ctx.buildChains blocks).chainEntries, ChainRule chain e

theorem mem_of_mem_callBlocks {blocks : List ℕ} {b : ℕ} (h : b ∈ ctx.callBlocks blocks) :
    b ∈ blocks :=
  List.mem_of_mem_dropLast (List.mem_filter.1 h).1

theorem mem_of_mem_chains {blocks : List ℕ} {b : ℕ}
    (h : b ∈ (ctx.buildChains blocks).chainEntries.flatten) : ctx.Free blocks b := by
  obtain ⟨chain, hchain, hb⟩ := List.mem_flatten.1 h
  exact (buildChains_spec.walks chain hchain).free b hb

/-- The rules of a split fragment: its calls, its chains, the rest. -/
theorem generateSplit_spec (relations : List ℕ) {blocks : List ℕ}
    (hcalls : ctx.callBlocks blocks ≠ []) :
    ∃ now after hand rules,
      ctx.generateFallbackFragmentRules blocks ⟨relations, [], []⟩ = ⟨after, hand, rules⟩ ∧
      (∀ x, x ∈ now ↔ x ∈ relations ∨ x ∈ ctx.callBlocks blocks ∨
        x ∈ (ctx.callBlocks blocks).filterMap ctx.landingPad ∨
        x ∈ (ctx.buildChains blocks).chainEntries.filterMap List.head? ∨
        x ∈ ctx.orphans blocks) ∧
      rules.flatMap Emission.chain = ctx.callBlocks blocks ++
        ((ctx.buildChains blocks).chainEntries.flatten ++ ctx.orphans blocks) ∧
      (∀ e ∈ rules, ctx.SplitRule blocks now e) ∧
      hand.map Emission.chain = (ctx.buildChains blocks).chainEntries.filter ctx.HandsOn := by
  obtain ⟨now, hdecl, hnow⟩ := foldl_declare (ctx.callBlocks blocks ++
    (ctx.callBlocks blocks).filterMap ctx.landingPad ++
    (ctx.buildChains blocks).chainEntries.filterMap List.head? ++ ctx.orphans blocks)
    ⟨relations, [], []⟩
  simp only [List.mem_append, or_assoc] at hnow
  have hcallsNow : ∀ b ∈ ctx.callBlocks blocks, b ∈ now := fun b hb => (hnow b).2 (by simp [hb])
  obtain ⟨after, hand, rules, hfold, hsub, hbound, hchains, hrules, hhand⟩ :=
    @foldl_generateChainRules _ ctx blocks (ctx.buildChains blocks).chainEntries
      ⟨now, [], [] ++ (ctx.callBlocks blocks).map fun b => ⟨[b], now⟩⟩
      buildChains_spec.walks fun chain hchain b hb =>
        (hnow b).2 (.inr (.inr (.inr (.inl (List.mem_filterMap.2 ⟨chain, hchain, hb⟩)))))
  have horphans : ∀ b ∈ ctx.orphans blocks, b ∈ after := fun b hb =>
    hsub b ((hnow b).2 (by simp [hb]))
  have hflat : ∀ x, x ∈ now ∨ x ∈ (ctx.buildChains blocks).chainEntries.flatten →
      x ∈ now ∨ x ∈ blocks := fun x hx => hx.imp_right fun h => (mem_of_mem_chains h).1
  refine ⟨now, after, hand, (ctx.callBlocks blocks).map (fun b => ⟨[b], now⟩) ++ rules ++
    (ctx.orphans blocks).map fun b => ⟨[b], after⟩, ?_, hnow, ?_, fun e he => ?_, hhand⟩
  · rw [generateFallbackFragmentRules, if_neg hcalls]
    dsimp only
    rw [hdecl, @foldl_single (ctx.callBlocks blocks) ⟨now, [], []⟩ hcallsNow, hfold]
    exact foldl_single horphans
  · rw [List.flatMap_append, List.flatMap_append, hchains, List.flatMap_map, List.flatMap_map,
      List.flatMap_singleton', List.flatMap_singleton', List.append_assoc]
  · simp only [List.mem_append, List.mem_map] at he
    rcases he with (⟨b, hb, rfl⟩ | he) | ⟨b, hb, rfl⟩
    · exact ⟨fun x hx => hx, fun x hx => .inl hx, .inl ⟨b, rfl, .inl hb⟩⟩
    · obtain ⟨hknown, hmax, hshape⟩ := hrules e he
      exact ⟨hknown, fun x hx => hflat x (hmax x hx), .inr hshape⟩
    · exact ⟨hsub, fun x hx => hflat x (hbound x hx), .inl ⟨b, rfl, .inr hb⟩⟩

/-- Two chains with a common block are one. -/
theorem chain_unique {blocks c c' : List ℕ} {b : ℕ}
    (hc : c ∈ (ctx.buildChains blocks).chainEntries)
    (hc' : c' ∈ (ctx.buildChains blocks).chainEntries) (hb : b ∈ c) (hb' : b ∈ c') : c = c' := by
  have hnd : (ctx.buildChains blocks).chainEntries.flatten.Nodup := buildChains_spec.nodup
  have : Std.Symm (List.Disjoint (α := ℕ)) := ⟨fun _ _ h => h.symm⟩
  by_contra hne
  exact (List.nodup_flatten.1 hnd).2.forall hc hc' hne hb hb'

/-- The blocks of a split fragment: calls, blocks of chains and the rest, each once. -/
theorem count_split {blocks : List ℕ} (hnd : blocks.Nodup) {b : ℕ} (hb : b ∈ blocks)
    (hreach : ctx.isUnreachable b = false) :
    (ctx.callBlocks blocks ++ ((ctx.buildChains blocks).chainEntries.flatten ++
      ctx.orphans blocks)).count b = 1 := by
  refine List.count_eq_one_of_mem (List.nodup_append.2 ⟨?_, List.nodup_append.2
    ⟨buildChains_spec.nodup, hnd.filter _, fun x hx y hy hxy => ?_⟩, fun x hx y hy hxy => ?_⟩) ?_
  · exact (hnd.sublist (List.dropLast_sublist blocks)).filter _
  · exact (mem_orphans.1 hy).2 (hxy ▸ hx)
  · subst hxy
    rcases List.mem_append.1 hy with hy | hy
    · exact (mem_of_mem_chains hy).2.1 hx
    · exact (mem_orphans.1 hy).1.2.1 hx
  · by_cases hcall : b ∈ ctx.callBlocks blocks
    · exact List.mem_append_left _ hcall
    refine List.mem_append_right _ ?_
    by_cases hchain : b ∈ (ctx.buildChains blocks).chainEntries.flatten
    · exact List.mem_append_left _ hchain
    · exact List.mem_append_right _ (mem_orphans.2 ⟨⟨hb, hcall, hreach⟩, hchain⟩)

theorem generated_split (hf : ctx.Listed f relations) (hsplits : ctx.Splits f)
    (hcalls : ctx.callBlocks f.blocks ≠ []) :
    (ctx.generateFallbackFragmentRules f.blocks ⟨relations, [], []⟩).handed.map Emission.chain =
        (ctx.buildChains f.blocks).chainEntries.filter ctx.HandsOn ∧
      ctx.Generated ⟨f, relations,
        ctx.generateFallbackFragmentRules f.blocks ⟨relations, [], []⟩⟩ := by
  obtain ⟨now, after, hand, rules, hgen, hnow, hchains, hrules, hhand⟩ :=
    generateSplit_spec relations hcalls
  have hwalks : ∀ c ∈ (ctx.buildChains f.blocks).chainEntries, ctx.IsWalk f.blocks c :=
    buildChains_spec.walks
  have hhead : ∀ c ∈ (ctx.buildChains f.blocks).chainEntries, ∀ b ∈ c.head?, b ∈ now :=
    fun c hc b hb =>
      (hnow b).2 (.inr (.inr (.inr (.inl (List.mem_filterMap.2 ⟨c, hc, hb⟩)))))
  have hdecl : ∀ x ∈ now, ctx.Declared f relations x := by
    intro x hx
    rcases (hnow x).1 hx with hx | hx | hx | hx | hx
    · exact .inl hx
    · exact .inr (.inl (mem_of_mem_callBlocks hx))
    · exact .inr (.inr ⟨hsplits, hx⟩)
    · obtain ⟨c, hc, hxc⟩ := List.mem_filterMap.1 hx
      exact .inr (.inl ((hwalks c hc).free x (List.mem_of_head? hxc)).1)
    · exact .inr (.inl (mem_orphans.1 hx).1.1)
  rw [hgen]
  refine ⟨hhand, fun c hc => ?_, fun e he b hb => ?_, fun b hb hreach => ?_, fun e he => ?_,
    fun e he t ht => ?_, fun e he t ht => ?_, fun e he pre u post hsplit t ht hblock => ?_⟩
  · have hmem : c.chain ∈ hand.map Emission.chain := List.mem_map_of_mem hc
    rw [hhand] at hmem
    exact (hwalks _ (List.mem_filter.1 hmem).1).path.imp fun u w h => h.1
  · rcases (hrules e he).shape with ⟨b', hb', hcall | horphan⟩ | ⟨c, hc, rfl | ⟨b', hb', heq, -⟩⟩
    · rw [hb', List.mem_singleton] at hb
      exact hb ▸ mem_of_mem_callBlocks hcall
    · rw [hb', List.mem_singleton] at hb
      exact hb ▸ (mem_orphans.1 horphan).1.1
    · exact ((hwalks _ hc).free b hb).1
    · rw [heq, List.mem_singleton] at hb
      exact hb ▸ ((hwalks c hc).free b' hb').1
  · dsimp only
    rw [hchains]
    exact count_split hf.nodup hb hreach
  · obtain ⟨hknown, -, hshape⟩ := hrules e he
    rcases hshape with ⟨b, hb, hcall | horphan⟩ | ⟨c, hc, rfl | ⟨b, hb, heq, hall⟩⟩
    · exact ⟨b, by rw [hb]; rfl, hknown b ((hnow b).2 (by simp [hcall]))⟩
    · exact ⟨b, by rw [hb]; rfl, hknown b ((hnow b).2 (by simp [horphan]))⟩
    · obtain ⟨b, rest, hcons⟩ := List.exists_cons_of_ne_nil (hwalks _ hc).ne_nil
      have hb : e.chain.head? = some b := by rw [hcons]; rfl
      exact ⟨b, hb, hknown b (hhead _ hc b hb)⟩
    · exact ⟨b, by rw [heq]; rfl, hall b hb⟩
  · rcases (hrules e he).declared t ht with h | h
    · exact hdecl t h
    · exact .inr (.inl h)
  · refine (hrules e he).known t ((hnow t).2 ?_)
    exact ht.imp_right fun h => .inr (.inl h.2)
  · obtain ⟨hknown, -, hshape⟩ := hrules e he
    by_cases hun : ctx.isUnreachable t = true
    · exact .inr (.inr hun)
    by_cases hcall : t ∈ ctx.callBlocks f.blocks
    · exact .inr (.inl (hknown t ((hnow t).2 (by simp [hcall]))))
    have hfree : ctx.Free f.blocks t := ⟨hblock, hcall, by simpa using hun⟩
    by_cases hflat : t ∈ (ctx.buildChains f.blocks).chainEntries.flatten
    swap
    · exact .inr (.inl (hknown t ((hnow t).2 (by simp [mem_orphans.2 ⟨hfree, hflat⟩]))))
    obtain ⟨c, hc, htc⟩ := List.mem_flatten.1 hflat
    obtain ⟨pre', post', hcsplit⟩ := List.append_of_mem htc
    obtain rfl | ⟨pre', q, rfl⟩ := pre'.eq_nil_or_concat'
    · exact .inr (.inl (hknown t (hhead c hc t (by rw [hcsplit]; rfl))))
    -- inside its chain the block is entered from the block before it only
    rw [List.append_assoc, List.singleton_append] at hcsplit
    have hentered := List.isChain_iff_forall_rel_of_append_cons_cons.1 (hwalks c hc).path hcsplit
    have hu : u ∈ e.chain := by simp [hsplit]
    have hq : u = q := by
      refine hentered.2 u (hf.live u ?_) (mem_successors_of_mem_targets ht)
      rcases hshape with ⟨b, hb, hcallb | horphan⟩ | ⟨c', hc', rfl | ⟨b, hb, heq, -⟩⟩
      · rw [hb, List.mem_singleton] at hu
        exact hu ▸ mem_of_mem_callBlocks hcallb
      · rw [hb, List.mem_singleton] at hu
        exact hu ▸ (mem_orphans.1 horphan).1.1
      · exact ((hwalks _ hc').free u hu).1
      · rw [heq, List.mem_singleton] at hu
        exact hu ▸ ((hwalks c' hc').free b hb).1
    subst hq
    have huc : u ∈ c := by simp [hcsplit]
    have huflat := List.mem_flatten_of_mem hc huc
    rcases hshape with ⟨b, hb, hcallb | horphan⟩ | ⟨c', hc', rfl | ⟨b, hb, heq, hall⟩⟩
    · rw [hb, List.mem_singleton] at hu
      exact absurd (hu ▸ hcallb) (mem_of_mem_chains huflat).2.1
    · rw [hb, List.mem_singleton] at hu
      exact absurd huflat (mem_orphans.1 (hu ▸ horphan)).2
    · obtain rfl := chain_unique hc hc' huc hu
      have hnd := (List.nodup_flatten.1 buildChains_spec.nodup).1 _ hc
      rw [(split_unique hnd hsplit hcsplit).2]
      exact .inl rfl
    · rw [heq, List.mem_singleton] at hu
      obtain rfl := chain_unique hc hc' huc (hu ▸ hb)
      exact .inr (.inl (hall t htc))

/-! ### One fragment -/

theorem Generated.exactly_iff {s : Step} (h : ctx.Generated s)
    (hhandled : (∀ c ∈ s.after.handed, ∀ b ∈ c.chain.dropLast, ctx.composesThrough b = true) ↔
      ctx.ChainsFit s.fragment)
    (hjoins : (∀ c ∈ s.after.handed, c.chain.IsChain fun u x =>
        x ∈ c.relations ∨ ∀ p, ctx.Live p → x ∈ ctx.successors p → p = u) ↔
      ctx.JoinsFit s.fragment s.before) :
    ctx.ComposedExactly s ↔ ctx.Fits s.fragment s.before :=
  ⟨fun hs => ⟨hhandled.1 hs.handled, hjoins.1 hs.joins, h.edges_iff.1 hs.edges⟩, fun hs =>
    ⟨h.path, hhandled.2 hs.chains, hjoins.2 hs.joins, h.once, h.owned, h.edges_iff.2 hs.edges⟩⟩

theorem exactly_iff_single (hf : ctx.Listed f relations) {b : ℕ} (hb : f.blocks = [b]) :
    ctx.ComposedExactly ⟨f, relations, ctx.generateFragment f ⟨relations, [], []⟩⟩ ↔
      ctx.Fits f relations := by
  have hentry : b = f.entryBb := by simpa [hb] using hf.head
  have hrel : b ∈ relations := hentry ▸ hf.entry
  have hsplits : ¬ ctx.Splits f := fun h => by
    have hlinear := h.1
    rw [hb, isComposableLinearChain] at hlinear
    · cases hlinear
    · simp
  have hgen : ctx.generateFragment f ⟨relations, [], []⟩ =
      ⟨relations, [], [⟨[b], relations⟩]⟩ := by
    rw [generateFragment, hb]
    exact if_pos hrel
  rw [hgen]
  refine Generated.exactly_iff ⟨by simp, by simp [hb], by simp [hb], ?_, ?_, ?_, ?_⟩
    (iff_of_true (by simp) fun h => absurd h hsplits)
    (iff_of_true (by simp) fun x hx hne => absurd (by simpa [hb, hentry] using hx) hne)
  · intro e he
    obtain rfl := List.mem_singleton.1 he
    exact ⟨b, rfl, hrel⟩
  · intro e he t ht
    obtain rfl := List.mem_singleton.1 he
    exact .inl ht
  · intro e he t ht
    obtain rfl := List.mem_singleton.1 he
    exact ht.resolve_right fun h => hsplits h.1
  · intro e he pre u post _ t _ hblock
    obtain rfl := List.mem_singleton.1 he
    dsimp only at hblock
    rw [hb, List.mem_singleton] at hblock
    exact .inr (.inl (hblock ▸ hrel))

/-- The path is composed, and the dead ends get rules of their own. -/
theorem exactly_iff_whole (path dead : List ℕ) (hf : ctx.Listed f relations)
    (hmain : ctx.MainPath f path) (hsplits : ¬ ctx.Splits f) (hperm : (dead ++ path).Perm f.blocks)
    (hdead : ∀ d ∈ dead, ∀ s ∈ ctx.successors d, s ∈ f.blocks → s = d)
    (hpath : ∀ x ∈ f.blocks, x ∈ path ↔ ctx.isComposableLinearChain f.blocks = true ∨
      ctx.isComposableFragment f.blocks f.entryBb = true ∧
        x ∉ ctx.computeDeadEndBlocks f.blocks f.entryBb)
    (hgen : ctx.generateFragment f ⟨relations, [], []⟩ =
      ctx.generateComposedRules f.entryBb path (dead.foldl
        (fun s bb => (s.declareBlockRelationIfNeeded bb).generateSingleBlockRules bb)
        ⟨relations, [], []⟩)) :
    ctx.ComposedExactly ⟨f, relations, ctx.generateFragment f ⟨relations, [], []⟩⟩ ↔
      ctx.Fits f relations := by
  obtain ⟨now, hnow, hhanded, hgenerated⟩ := generated_whole hf hmain hsplits hperm hdead
  rw [hgen]
  refine hgenerated.exactly_iff (iff_of_true ?_ fun h => absurd h hsplits) ?_
  · intro c hc b hb
    dsimp only at hc
    rw [hhanded] at hc
    obtain rfl := List.mem_singleton.1 hc
    obtain ⟨pre, w, post, hsplit⟩ := mem_dropLast_iff.1 hb
    exact (List.isChain_iff_forall_rel_of_append_cons_cons.1 hmain.next hsplit).2.1
  · have hnodead : ∀ x ∈ path, x ∈ now ↔ x ∈ relations := by
      intro x hx
      rw [hnow]
      refine or_iff_left fun hxd => ?_
      exact (List.nodup_append.1 (hperm.nodup_iff.2 hf.nodup)).2.2 x hxd x hx rfl
    dsimp only
    rw [hhanded]
    simp only [List.mem_singleton, forall_eq]
    rw [hmain.joins_iff hnodead]
    refine ⟨fun h x hx hne hrel hor => h x ((hpath x hx).2 hor) hne hrel, fun h x hx hne hrel => ?_⟩
    exact h x (hmain.sub x hx) hne hrel ((hpath x (hmain.sub x hx)).1 hx)

/-- A dead end of a chain is its last block. -/
theorem pathBlocks_of_isWalk {blocks init : List ℕ} {entry l : ℕ}
    (hwalk : ctx.IsWalk blocks (init ++ [l])) (hnd : (init ++ [l]).Nodup) :
    ctx.pathBlocks (init ++ [l]) entry =
      if l ∈ ctx.computeDeadEndBlocks (init ++ [l]) entry then init else init ++ [l] := by
  have hinit : ∀ b ∈ init, b ∉ ctx.computeDeadEndBlocks (init ++ [l]) entry := by
    intro b hb hdead
    obtain ⟨pre, w, post, hsplit⟩ := (mem_dropLast_iff (l := init ++ [l])).1 (by simpa using hb)
    have hE := (List.isChain_iff_forall_rel_of_append_cons_cons.1 hwalk.path hsplit).1
    have hwb := ((mem_deadEnds.1 hdead).2 w hE).2 (by simp [hsplit])
    rw [hsplit, hwb] at hnd
    exact (List.nodup_cons.1 (List.nodup_append.1 hnd).2.1).1 List.mem_cons_self
  rw [pathBlocks, List.filter_append,
    List.filter_eq_self.2 fun b hb => by simpa using hinit b hb, List.filter_singleton]
  by_cases hl : l ∈ ctx.computeDeadEndBlocks (init ++ [l]) entry
  · rw [if_pos hl]
    simp [hl]
  · rw [if_neg hl]
    simp [hl]

/-- The chains of a split fragment are composed through terminators that can be, exactly when
those before their dead ends can be. -/
theorem handled_iff_chainsFit (hsplits : ctx.Splits f) {handed : List Emission}
    (hhanded : handed.map Emission.chain =
      (ctx.buildChains f.blocks).chainEntries.filter ctx.HandsOn) :
    (∀ c ∈ handed, ∀ b ∈ c.chain.dropLast, ctx.composesThrough b = true) ↔ ctx.ChainsFit f := by
  have hmem : ∀ chain, (∃ c ∈ handed, c.chain = chain) ↔
      chain ∈ (ctx.buildChains f.blocks).chainEntries ∧ ctx.HandsOn chain = true := by
    intro chain
    rw [← List.mem_filter, ← hhanded, List.mem_map]
  constructor
  · intro hall _ chain hchain entry hentry hcompose pre p l hsplit _
    obtain ⟨c, hc, rfl⟩ := (hmem chain).2 ⟨hchain, by
      have hlen : 1 < chain.length := by simp [hsplit]
      have hhead : chain.head? = some entry := hentry
      simp [HandsOn, hlen, hhead, hcompose]⟩
    exact hall c hc p (mem_dropLast_iff.2 ⟨pre, l, [], hsplit⟩)
  · intro hfit c hc b hb
    obtain ⟨hchain, hhands⟩ := (hmem c.chain).1 ⟨c, hc, rfl⟩
    generalize c.chain = chain at hb hchain hhands
    have hwalk := buildChains_spec.walks chain hchain
    have hnd := (List.nodup_flatten.1 buildChains_spec.nodup).1 chain hchain
    rw [HandsOn, Bool.and_eq_true, Bool.or_eq_true, decide_eq_true_eq] at hhands
    obtain ⟨hlen, hlinear | hcompose⟩ := hhands
    · obtain ⟨pre, w, post, hsplit⟩ := mem_dropLast_iff.1 hb
      have hlink := isComposableLinearChain_iff.1 hlinear
      exact (goto_spec (List.isChain_iff_forall_rel_of_append_cons_cons.1 hlink hsplit)).2.2
    · obtain ⟨entry, hentry, hcompose⟩ : ∃ entry ∈ chain.head?,
          ctx.isComposableFragment chain entry = true := by
        simpa [Option.any_eq_true] using hcompose
      obtain ⟨init, l, rfl⟩ := (List.eq_nil_or_concat' chain).resolve_left hwalk.ne_nil
      have hpath := (isComposableFragment_spec hlen hcompose).2
      rw [pathBlocks_of_isWalk hwalk hnd] at hpath
      split_ifs at hpath with hdead
      · -- the check leaves out the last block, and with it the terminator before it
        rw [List.dropLast_concat] at hb
        obtain ⟨init, p, rfl⟩ := (List.eq_nil_or_concat' init).resolve_left
          (List.ne_nil_of_mem hb)
        rcases List.mem_append.1 hb with hb | hb
        · obtain ⟨pre, w, post, hsplit⟩ :=
            (mem_dropLast_iff (l := init ++ [p])).1 (by simpa using hb)
          exact (List.isChain_iff_forall_rel_of_append_cons_cons.1 hpath hsplit).2
        · obtain rfl := List.mem_singleton.1 hb
          exact hfit hsplits _ hchain entry hentry hcompose init b l (by simp) hdead
      · obtain ⟨pre, w, post, hsplit⟩ := mem_dropLast_iff.1 hb
        exact (List.isChain_iff_forall_rel_of_append_cons_cons.1 hpath hsplit).2

theorem extractComposablePath_eq {blocks : List ℕ} {entry : ℕ} (hlen : 1 < blocks.length)
    (h : ctx.isComposableFragment blocks entry = true) :
    ∃ dead, dead.Perm (ctx.computeDeadEndBlocks blocks entry) ∧
      ctx.extractComposablePath blocks entry = some (ctx.pathBlocks blocks entry, dead) := by
  have hpath := (isComposableFragment_spec hlen h).1
  rw [extractComposablePath, if_neg (by simp [h])]
  by_cases hdead : ctx.computeDeadEndBlocks blocks entry = []
  · refine ⟨[], by rw [hdead], ?_⟩
    rw [if_pos hdead, pathBlocks, hdead]
    simp
  · rw [if_neg hdead, if_neg (by omega)]
    exact ⟨_, ctx.hashOrder.perm _, rfl⟩

theorem deadEnds_append_pathBlocks {blocks : List ℕ} {entry : ℕ} :
    (ctx.computeDeadEndBlocks blocks entry ++ ctx.pathBlocks blocks entry).Perm blocks := by
  have hpath : ctx.pathBlocks blocks entry = blocks.filter fun bb =>
      !(!(ctx.successors bb).any fun s => s == entry || (blocks.contains s && s != bb)) := by
    refine List.filter_congr fun b hb => ?_
    rw [Bool.not_inj_iff, Bool.eq_iff_iff, List.contains_iff_mem, computeDeadEndBlocks,
      List.mem_filter]
    exact and_iff_right hb
  rw [hpath]
  exact List.filter_append_perm _ blocks

theorem generateFragment_of_length {s : GenState} (hlen : 1 < f.blocks.length) :
    ctx.generateFragment f s =
      if ctx.isComposableLinearChain f.blocks then ctx.generateComposedRules f.entryBb f.blocks s
      else
        match ctx.extractComposablePath f.blocks f.entryBb with
        | some (path, deadEnds) =>
          ctx.generateComposedRules f.entryBb path (deadEnds.foldl
            (fun s bb => (s.declareBlockRelationIfNeeded bb).generateSingleBlockRules bb) s)
        | none => ctx.generateFallbackFragmentRules f.blocks s := by
  rw [generateFragment]
  split
  · rename_i b hb
    simp [hb] at hlen
  · rfl

/-- **One fragment**: its rules are composed exactly if and only if it fits. -/
theorem composedExactly_iff_fits (hf : ctx.Listed f relations) :
    ctx.ComposedExactly ⟨f, relations, ctx.generateFragment f ⟨relations, [], []⟩⟩ ↔
      ctx.Fits f relations := by
  obtain ⟨e, rest, hblocks⟩ :=
    List.exists_cons_of_ne_nil (List.ne_nil_of_mem (List.mem_of_head? hf.head))
  by_cases hrest : rest = []
  · exact exactly_iff_single hf (hblocks.trans (by rw [hrest]))
  have hlen : 1 < f.blocks.length := by
    have := List.length_pos_iff.2 hrest
    rw [hblocks, List.length_cons]
    omega
  by_cases hlinear : ctx.isComposableLinearChain f.blocks = true
  · refine exactly_iff_whole f.blocks [] hf (mainPath_of_linear hf hlinear)
      (fun h => by simp [h.1] at hlinear) (by simp) (by simp) (fun x hx => ?_) ?_
    · exact iff_of_true hx (.inl hlinear)
    · rw [generateFragment_of_length hlen, if_pos hlinear]
      rfl
  by_cases hcompose : ctx.isComposableFragment f.blocks f.entryBb = true
  · obtain ⟨dead, hperm, hextract⟩ := extractComposablePath_eq hlen hcompose
    refine exactly_iff_whole _ dead hf (mainPath_of_composable hf hlen hcompose)
      (fun h => by simp [h.2] at hcompose) ?_ (fun d hd s hs hblock => ?_) (fun x hx => ?_) ?_
    · exact (hperm.append_right _).trans deadEnds_append_pathBlocks
    · exact ((mem_deadEnds.1 (hperm.subset hd)).2 s hs).2 hblock
    · rw [mem_pathBlocks]
      simp [hx, hlinear, hcompose]
    · rw [generateFragment_of_length hlen, if_neg hlinear, hextract]
  have hsplits : ctx.Splits f := ⟨by simpa using hlinear, by simpa using hcompose⟩
  have hgen : ctx.generateFragment f ⟨relations, [], []⟩ =
      ctx.generateFallbackFragmentRules f.blocks ⟨relations, [], []⟩ := by
    have hextract : ctx.extractComposablePath f.blocks f.entryBb = none := by
      rw [extractComposablePath, if_pos (by simpa using hcompose)]
    rw [generateFragment_of_length hlen, if_neg hlinear, hextract]
  have hjoins : ctx.JoinsFit f relations := fun x _ _ _ hor => by
    simp [hsplits.1, hsplits.2] at hor
  rw [hgen]
  by_cases hcalls : ctx.callBlocks f.blocks = []
  · have hperblock : ctx.generateFallbackFragmentRules f.blocks ⟨relations, [], []⟩ =
        GenState.generatePerblock ⟨relations, [], []⟩ f.blocks := if_pos hcalls
    obtain ⟨hhanded, hgenerated⟩ := generated_perblock hf hcalls
    rw [hperblock]
    refine hgenerated.exactly_iff ?_ (iff_of_true (by simp [hhanded]) hjoins)
    refine handled_iff_chainsFit hsplits ?_
    simp [hhanded, buildChains, hcalls]
  · obtain ⟨hhanded, hgenerated⟩ := generated_split hf hsplits hcalls
    refine hgenerated.exactly_iff (handled_iff_chainsFit hsplits hhanded)
      (iff_of_true (fun c hc => ?_) hjoins)
    have hmem := List.mem_map_of_mem (f := Emission.chain) hc
    rw [hhanded] at hmem
    exact (buildChains_spec.walks _ (List.mem_filter.1 hmem).1).path.imp fun u x h => .inr h.2

end ChcCtx

end TrustMc.Fragments
