import TrustMc.Fragments.ComposeExact

/-!
# The rules of all fragments

`generate_fragment_rules` goes through the fragments one after the other, and the relations that
one of them declares are there for the next. `generateFragmentRules_exact` is the result on runs:
in every run, the rules of a fragment are composed exactly if and only if the fragment fits the
relations there are when its turn comes.

`droppedBox` is a body where a chain is composed past the drop of a `Box`: the chain counts as
composable because its dead end is left out of the check, but not out of the composition.
-/

namespace TrustMc.Fragments

open LoopUnroll

/-! ### Relations are only added -/

namespace GenState

/-- A step that adds relations adds relations when it is repeated. -/
theorem subset_foldl {α : Type} {step : GenState → α → GenState}
    (h : ∀ s a, s.relations ⊆ (step s a).relations) (l : List α) (s : GenState) :
    s.relations ⊆ (l.foldl step s).relations := by
  induction l generalizing s with
  | nil => exact List.Subset.refl _
  | cons a l ih => exact List.Subset.trans (h s a) (ih (step s a))

theorem subset_declareBlockRelationIfNeeded (s : GenState) (bb : ℕ) :
    s.relations ⊆ (s.declareBlockRelationIfNeeded bb).relations := by
  unfold declareBlockRelationIfNeeded
  split_ifs
  · exact List.Subset.refl _
  · exact List.subset_cons_self _ _

theorem subset_generateSingleBlockRules (s : GenState) (bb : ℕ) :
    s.relations ⊆ (s.generateSingleBlockRules bb).relations := by
  unfold generateSingleBlockRules
  split_ifs <;> exact List.Subset.refl _

theorem subset_generatePerblock (s : GenState) (blocks : List ℕ) :
    s.relations ⊆ (s.generatePerblock blocks).relations :=
  List.Subset.trans (subset_foldl subset_declareBlockRelationIfNeeded blocks s)
    (subset_foldl subset_generateSingleBlockRules blocks _)

end GenState

namespace ChcCtx

open GenState

variable {M : Mir} {ctx : ChcCtx M}

theorem subset_generateComposedRules (entry : ℕ) (blocks : List ℕ) (s : GenState) :
    s.relations ⊆ (ctx.generateComposedRules entry blocks s).relations := by
  unfold generateComposedRules
  dsimp only
  split_ifs
  · exact List.Subset.refl _
  · exact List.Subset.refl _
  · exact subset_generatePerblock { s with handed := s.handed ++ [⟨blocks, s.relations⟩] } blocks
  · exact List.Subset.refl _

theorem subset_generateChainRules (s : GenState) (chain : List ℕ) :
    s.relations ⊆ (ctx.generateChainRules s chain).relations := by
  unfold generateChainRules
  split
  · exact List.Subset.refl _
  · exact subset_generateSingleBlockRules s _
  · split_ifs
    · exact subset_generateComposedRules _ _ s
    · exact subset_generatePerblock s _

theorem subset_generateFallbackFragmentRules (blocks : List ℕ) (s : GenState) :
    s.relations ⊆ (ctx.generateFallbackFragmentRules blocks s).relations := by
  unfold generateFallbackFragmentRules
  dsimp only
  split_ifs
  · exact subset_generatePerblock s blocks
  · refine List.Subset.trans (subset_foldl subset_declareBlockRelationIfNeeded
      (ctx.callBlocks blocks ++ (ctx.callBlocks blocks).filterMap ctx.landingPad ++
        (ctx.buildChains blocks).chainEntries.filterMap List.head? ++ ctx.orphans blocks) s) ?_
    refine List.Subset.trans (subset_foldl subset_generateSingleBlockRules
      (ctx.callBlocks blocks) _) ?_
    have hchains : ∀ s chain, s.relations ⊆ (ctx.generateChainRules s chain).relations :=
      subset_generateChainRules
    refine List.Subset.trans (subset_foldl hchains (ctx.buildChains blocks).chainEntries _) ?_
    exact subset_foldl subset_generateSingleBlockRules _ _

theorem subset_generateFragment (f : Fragment) (s : GenState) :
    s.relations ⊆ (ctx.generateFragment f s).relations := by
  unfold generateFragment
  split
  · exact subset_generateSingleBlockRules s _
  · split_ifs
    · exact subset_generateComposedRules _ _ s
    · split
      · refine List.Subset.trans (subset_foldl (fun s bb => ?_) _ s)
          (subset_generateComposedRules _ _ _)
        exact List.Subset.trans (subset_declareBlockRelationIfNeeded s bb)
          (subset_generateSingleBlockRules _ bb)
      · exact subset_generateFallbackFragmentRules _ s

/-! ### Runs -/

/-- Every step is the step of a fragment of the list, with the relations of the start declared. -/
theorem mem_generateSteps {fragments : List Fragment} {relations : List ℕ} {s : Step}
    (hs : s ∈ ctx.generateSteps fragments relations) :
    s.fragment ∈ fragments ∧ relations ⊆ s.before ∧
      s.after = ctx.generateFragment s.fragment ⟨s.before, [], []⟩ := by
  induction fragments generalizing relations with
  | nil => simp [generateSteps] at hs
  | cons f fragments ih =>
    rw [generateSteps] at hs
    rcases List.mem_cons.1 hs with rfl | hs
    · exact ⟨List.mem_cons_self, List.Subset.refl _, rfl⟩
    · obtain ⟨hf, hsub, hafter⟩ := ih hs
      exact ⟨List.mem_cons_of_mem _ hf,
        List.Subset.trans (subset_generateFragment f ⟨relations, [], []⟩) hsub, hafter⟩

/-- **Runs**: the rules of a fragment are composed exactly if and only if it fits the relations
declared before it. -/
theorem generateFragmentRules_exact {s : Step} (hs : s ∈ ctx.generateFragmentRules) :
    ctx.ComposedExactly s ↔ ctx.Fits s.fragment s.before := by
  obtain ⟨hf, hsub, hafter⟩ := mem_generateSteps hs
  have hlisted : ctx.Listed s.fragment s.before := by
    refine listed_of_mem_fragments hf fun b hb hcut => hsub ?_
    simp [hb, hcut]
  obtain ⟨f, before, after⟩ := s
  obtain rfl : after = ctx.generateFragment f ⟨before, [], []⟩ := hafter
  exact composedExactly_iff_fits hlisted

end ChcCtx

/-! ### A dropped box -/

/-- The places are those of boxes; no callee is known. -/
abbrev boxMir : Mir := ⟨Unit, Unit, Unit, Unit, Unit, Unit⟩

/-- `f(); drop(b)`, with a goto before the drop and after it. -/
def droppedBoxBody : Body boxMir where
  blocks :=
    [⟨[], ⟨.call () [] () (some 1) .continue, ()⟩⟩, ⟨[], ⟨.goto 2, ()⟩⟩,
      ⟨[], ⟨.drop () 3 .continue, ()⟩⟩, ⟨[], ⟨.goto 4, ()⟩⟩, ⟨[], ⟨.return, ()⟩⟩]

theorem droppedBoxBody_valid : droppedBoxBody.Valid := ⟨by decide, by decide⟩

def droppedBox : ChcCtx boxMir where
  body := droppedBoxBody
  valid := droppedBoxBody_valid
  trackLevel := .reg
  detectKaniModel _ := none
  detectKaniHook _ := none
  detectStub _ := none
  isBox _ := true
  hashOrder := ⟨id, fun _ => .refl _⟩

/-- The chain `[1, 2, 3]` is composed through the drop in block `2`: the fragment does not fit. -/
theorem droppedBox_not_exact :
    ∃ s ∈ droppedBox.generateFragmentRules, ¬ droppedBox.ComposedExactly s := by
  have hs : (⟨⟨0, [0, 1, 2, 3], [(3, 4)]⟩, [0, 4],
      droppedBox.generateFragment ⟨0, [0, 1, 2, 3], [(3, 4)]⟩ ⟨[0, 4], [], []⟩⟩ : ChcCtx.Step) ∈
      droppedBox.generateFragmentRules := by decide +kernel
  refine ⟨_, hs, fun hexact => ?_⟩
  have hfits := (ChcCtx.generateFragmentRules_exact hs).1 hexact
  have hthrough := hfits.chains ⟨by decide +kernel, by decide +kernel⟩ [1, 2, 3] (by decide +kernel) 1 rfl
    (by decide +kernel) [1] 2 3 rfl (by decide +kernel)
  revert hthrough
  decide

end TrustMc.Fragments
