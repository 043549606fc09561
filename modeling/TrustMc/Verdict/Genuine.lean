import TrustMc.Verdict.Classify

/-!
# Genuine counterexamples

A counterexample should be called genuine only where no category counts against its harness,
and what counts against it should be what counts against a proof. The demoting categories are
attributed alike. A fail-closed category is looked up by the one key that names the harness, so
that an entry under a function's name is overlooked, and the sound approximations are attributed
only where the crate has totals for them.

* `classifyCtrex_genuine_iff`: what `classifyCtrex` notices.
* `residual_eq`: the residual is what counts against a proof.
* `classifyCtrex_untainted_iff`: the counts for which genuine means untainted.
-/

namespace TrustMc

namespace Verdict

section Attribution

variable (harness : HarnessMetadata) (counts : CrateUnsoundnessCounts)

/-- A demoting category counts against the harness. -/
def DemotingTaints (c : DemotedCategory) : Prop :=
  Taints (counts.total c) (counts.perHarness c) harness.prettyName counts.harnessNames

/-- An entry of sound approximations that satisfies a predicate is attributed to the harness. -/
def SoundAttributed (p : List (String × ℕ) → Prop) : Prop :=
  ∃ e ∈ counts.soundApproxPerHarness.entries,
    attributableToHarness e.1 harness.prettyName counts.harnessNames = true ∧ p e.2

/-- A sound approximation counts against the harness. -/
def SoundTaints : Prop :=
  if counts.soundApproxPerHarness.isEmpty then ∃ c ∈ counts.soundApproxCrateTotals, c.2 ≠ 0
  else SoundAttributed harness counts fun cats => ∃ c ∈ cats, c.2 ≠ 0

/-- Some category counts against the harness. -/
def Tainted : Prop :=
  (∃ c, DemotingTaints harness counts c) ∨ counts.assertUntranslatable ≠ 0 ∨
    counts.heapCheckUntranslatable ≠ 0 ∨ counts.heapCheckUnknownLayout ≠ 0 ∨
    Taints counts.iteratorUnsoundness counts.iteratorUnsoundnessPerHarness harness.prettyName
      counts.harnessNames ∨
    Taints counts.bigintUnsoundness counts.bigintUnsoundnessPerHarness harness.prettyName
      counts.harnessNames ∨
    SoundTaints harness counts

/-- What counts against a counterexample is what counts against a proof. -/
structure SameAttribution : Prop where
  /-- A demoting category counts against a proof by its attribution. -/
  demotes : ∀ result, result.status = .success →
    ((demoteForAllUnsoundness harness counts result).status = .failure ↔
      ∃ c, DemotingTaints harness counts c)
  /-- It counts against a counterexample by the same. -/
  gap : (∃ c, DemotingTaints harness counts c) → classifyCtrex harness counts ≠ .genuine
  /-- A sound approximation counts against a proof by its attribution. -/
  failsClosed : ∀ result, result.status = .success →
    ((applySoundFallbackFailClose harness counts result).status = .failure ↔
      SoundAttributed harness counts fun cats => ∃ c ∈ cats, c.1 ≠ havocKey ∧ c.2 ≠ 0)
  /-- It counts against a counterexample by the same. -/
  approx : (∀ c, ¬ DemotingTaints harness counts c) → failClosedTriggers harness counts = [] →
    (classifyCtrex harness counts = .genuine ↔
      (soundApproxCategoriesFailClosed counts harness.prettyName).isEmpty = true)

/-! ### What is noticed -/

/-- The categories of the key that is looked up. -/
def approxCats : List (String × ℕ) :=
  (lookupPerHarness counts.soundApproxPerHarness harness.prettyName).getD []

/-- A category is noticed. -/
def Noticed : Prop :=
  (∃ c, DemotingTaints harness counts c) ∨ counts.assertUntranslatable ≠ 0 ∨
    counts.heapCheckUntranslatable ≠ 0 ∨ counts.heapCheckUnknownLayout ≠ 0 ∨
    resolvePerHarnessCount counts.iteratorUnsoundness counts.iteratorUnsoundnessPerHarness
      harness.prettyName ≠ 0 ∨
    resolvePerHarnessCount counts.bigintUnsoundness counts.bigintUnsoundnessPerHarness
      harness.prettyName ≠ 0 ∨
    approxCats harness counts ≠ [] ∨
    counts.soundApproxCrateTotals ≠ [] ∧ SoundAttributed harness counts (· ≠ [])

/-- A fail-closed category has a nonzero entry that is attributed to the harness, and the key
that is looked up has none. -/
def Overlooked (perHarness : BTreeMap ℕ) : Prop :=
  (lookupPerHarness perHarness harness.prettyName).getD 0 = 0 ∧
    ∃ e ∈ perHarness.entries,
      attributableToHarness e.1 harness.prettyName counts.harnessNames = true ∧ e.2 ≠ 0

/-- Sound approximations are attributed to the harness that the look-up misses, for want of
totals or of entries. -/
def SoundOverlooked : Prop :=
  counts.soundApproxPerHarness.isEmpty = true ∧ (∃ c ∈ counts.soundApproxCrateTotals, c.2 ≠ 0) ∨
    counts.soundApproxCrateTotals = [] ∧ approxCats harness counts = [] ∧
      SoundAttributed harness counts (· ≠ [])

variable {harness counts}

theorem demotedTriggers_eq_nil_iff :
    demotedTriggers harness counts = [] ↔ ∀ c, ¬ DemotingTaints harness counts c := by
  rw [demotedTriggers, List.map_eq_nil_iff, List.filter_eq_nil_iff]
  simp only [resolveDemotingCategories, List.mem_map, forall_exists_index, and_imp,
    forall_apply_eq_imp_iff₂, decide_eq_true_eq, resolvePerHarnessCountFailClosed_pos_iff]
  exact ⟨fun h c => h c c.mem_all, fun h c _ => h c⟩

private theorem pushCrateTrigger_eq_nil_iff {triggers : List String} {category : String}
    {count : ℕ} :
    pushCrateTrigger triggers category count = [] ↔ triggers = [] ∧ count = 0 := by
  unfold pushCrateTrigger
  split_ifs with hpos
  · simp [Nat.pos_iff_ne_zero.1 hpos]
  · simp [Nat.eq_zero_of_not_pos hpos]

private theorem pushFailClosedTrigger_eq_nil_iff {triggers : List String} {category : String}
    {crateTotal : ℕ} {perHarness : BTreeMap ℕ} :
    pushFailClosedTrigger harness triggers category crateTotal perHarness = [] ↔
      triggers = [] ∧
        resolvePerHarnessCount crateTotal perHarness harness.prettyName = 0 :=
  pushCrateTrigger_eq_nil_iff

theorem failClosedTriggers_eq_nil_iff :
    failClosedTriggers harness counts = [] ↔
      counts.assertUntranslatable = 0 ∧ counts.heapCheckUntranslatable = 0 ∧
        counts.heapCheckUnknownLayout = 0 ∧
        resolvePerHarnessCount counts.iteratorUnsoundness counts.iteratorUnsoundnessPerHarness
          harness.prettyName = 0 ∧
        resolvePerHarnessCount counts.bigintUnsoundness counts.bigintUnsoundnessPerHarness
          harness.prettyName = 0 := by
  simp only [failClosedTriggers, pushFailClosedTrigger_eq_nil_iff, pushCrateTrigger_eq_nil_iff,
    true_and, and_assoc]

/-! ### Totals -/

theorem isEmpty_foldl_addCount (cats : List (String × ℕ)) (totals : BTreeMap ℕ) :
    (cats.foldl (fun (totals : BTreeMap ℕ) c => totals.addCount c.1 c.2) totals).isEmpty = true ↔
      totals.isEmpty = true ∧ cats = [] := by
  induction cats generalizing totals with
  | nil => simp
  | cons c cats ih => simp [ih]

theorem sumOf_foldl_addCount (p : String → Bool) (cats : List (String × ℕ))
    (totals : BTreeMap ℕ) :
    0 < (cats.foldl (fun (totals : BTreeMap ℕ) c => totals.addCount c.1 c.2) totals).sumOf p ↔
      0 < totals.sumOf p ∨ ∃ c ∈ cats, p c.1 = true ∧ c.2 ≠ 0 := by
  induction cats generalizing totals with
  | nil => simp
  | cons c cats ih =>
    rw [List.foldl_cons, ih, BTreeMap.sumOf_addCount]
    simp only [List.mem_cons, exists_eq_or_imp, ← or_assoc]
    refine or_congr_left ?_
    split_ifs with hp <;> simp [hp, Nat.pos_iff_ne_zero]

/-- A property of the totals holds of a fold over the attributed entries where it holds at the
start or an entry brings it about. -/
private theorem foldl_attributed_iff {P : BTreeMap ℕ → Prop} {Q : List (String × ℕ) → Prop}
    {q : String → Bool}
    (hstep : ∀ cats totals, P (cats.foldl
      (fun (totals : BTreeMap ℕ) c => totals.addCount c.1 c.2) totals) ↔ P totals ∨ Q cats)
    (entries : List (String × List (String × ℕ))) (totals : BTreeMap ℕ) :
    P (entries.foldl (fun totals e =>
        if q e.1 then e.2.foldl (fun (totals : BTreeMap ℕ) c => totals.addCount c.1 c.2) totals
        else totals) totals) ↔
      P totals ∨ ∃ e ∈ entries, q e.1 = true ∧ Q e.2 := by
  induction entries generalizing totals with
  | nil => simp
  | cons e entries ih =>
    rw [List.foldl_cons, ih]
    simp only [List.mem_cons, exists_eq_or_imp, ← or_assoc]
    refine or_congr_left ?_
    split_ifs with hq
    · simp [hq, hstep]
    · simp [hq]

/-- The totals of a proof are empty where no entry is attributed to its harness. -/
theorem soundApproxCategoriesFailClosed_isEmpty_iff :
    (soundApproxCategoriesFailClosed counts harness.prettyName).isEmpty = true ↔
      ¬ SoundAttributed harness counts (· ≠ []) := by
  rw [← not_iff_not, not_not]
  refine (foldl_attributed_iff (P := fun t => ¬ t.isEmpty = true) (Q := (· ≠ []))
    (q := fun key => attributableToHarness key harness.prettyName counts.harnessNames)
    (fun cats totals => ?_) _ _).trans ?_
  · rw [isEmpty_foldl_addCount, not_and_or]
  · simp [BTreeMap.empty, BTreeMap.isEmpty, SoundAttributed]

/-- The residual of a counterexample is what counts against a proof. -/
theorem residual_eq :
    residual harness counts =
      (soundApproxCategoriesFailClosed counts harness.prettyName).entries.map
        fun c => trigger c.1 c.2 := by
  have hattr : ∀ e : String × List (String × ℕ),
      (!harnessNamesMatch e.1 harness.prettyName && counts.harnessNames.any fun name =>
        name != harness.prettyName && harnessNamesMatch e.1 name) =
      !attributableToHarness e.1 harness.prettyName counts.harnessNames := fun e => by
    rw [attributableToHarness, Bool.not_or, Bool.not_not]
  simp only [residual, soundApproxCategoriesFailClosed, hattr, Bool.not_eq_true',
    ← Bool.not_eq_true, ite_not]

/-! ### Genuine counterexamples -/

theorem exists_of_approxCats (h : approxCats harness counts ≠ []) :
    SoundAttributed harness counts (· ≠ []) := by
  unfold approxCats at h
  cases hlook : lookupPerHarness counts.soundApproxPerHarness harness.prettyName with
  | none => exact absurd (by rw [hlook, Option.getD_none]) h
  | some cats =>
    obtain ⟨e, he, hmatch, rfl⟩ := lookupPerHarness_spec hlook
    rw [hlook, Option.getD_some] at h
    exact ⟨e, he, attributableToHarness_of_match hmatch, h⟩

theorem residual_eq_nil_iff :
    residual harness counts = [] ↔ ¬ SoundAttributed harness counts (· ≠ []) := by
  rw [residual_eq, List.map_eq_nil_iff, ← List.isEmpty_iff]
  exact soundApproxCategoriesFailClosed_isEmpty_iff

theorem classifySoundApprox_genuine_iff :
    classifySoundApprox harness counts = .genuine ↔
      approxCats harness counts = [] ∧
        (counts.soundApproxCrateTotals = [] ∨ ¬ SoundAttributed harness counts (· ≠ [])) := by
  rw [← residual_eq_nil_iff]
  have hdef : classifySoundApprox harness counts =
      if !(approxCats harness counts).isEmpty then
        .overApproximation ((approxCats harness counts).map fun c => trigger c.1 c.2)
      else if !counts.soundApproxCrateTotals.isEmpty && !(residual harness counts).isEmpty then
        .overApproximation (residual harness counts)
      else .genuine := rfl
  rw [hdef]
  by_cases hcats : approxCats harness counts = []
  · by_cases htotals : counts.soundApproxCrateTotals = []
    · simp [hcats, htotals]
    · by_cases hres : residual harness counts = [] <;> simp [hcats, htotals, hres]
  · simp [hcats]

/-- A counterexample is genuine where nothing triggers. -/
theorem classifyCtrex_eq_genuine :
    classifyCtrex harness counts = .genuine ↔
      demotedTriggers harness counts = [] ∧ failClosedTriggers harness counts = [] ∧
        classifySoundApprox harness counts = .genuine := by
  unfold classifyCtrex
  dsimp only
  split_ifs with hgap hfail hoffset hoffset
  · simp_all
  · simp_all
  · simp_all
  · simp_all
  · simp_all

/-- `classifyCtrex` calls a counterexample genuine exactly where it notices nothing. -/
theorem classifyCtrex_genuine_iff :
    classifyCtrex harness counts = .genuine ↔ ¬ Noticed harness counts := by
  rw [classifyCtrex_eq_genuine, demotedTriggers_eq_nil_iff, failClosedTriggers_eq_nil_iff,
    classifySoundApprox_genuine_iff, Noticed]
  tauto

/-! ### Proofs -/

theorem demoteForAllUnsoundness_failure_iff {result : VerificationResult}
    (h : result.status = .success) :
    (demoteForAllUnsoundness harness counts result).status = .failure ↔
      ∃ c, DemotingTaints harness counts c := by
  rw [← not_iff_not, not_exists, ← demotedTriggers_eq_nil_iff]
  by_cases hnil : demotedTriggers harness counts = []
  · simp [demoteForAllUnsoundness, h, hnil]
  · simp [demoteForAllUnsoundness, h, hnil]

theorem applySoundFallbackFailClose_failure_iff {result : VerificationResult}
    (h : result.status = .success) :
    (applySoundFallbackFailClose harness counts result).status = .failure ↔
      SoundAttributed harness counts fun cats => ∃ c ∈ cats, c.1 ≠ havocKey ∧ c.2 ≠ 0 := by
  have hsum : 0 < (soundApproxCategoriesFailClosed counts harness.prettyName).sumOf
        (fun key => key != havocKey) ↔
      SoundAttributed harness counts fun cats => ∃ c ∈ cats, c.1 ≠ havocKey ∧ c.2 ≠ 0 := by
    refine (foldl_attributed_iff
      (P := fun t => 0 < t.sumOf fun key => key != havocKey)
      (Q := fun cats => ∃ c ∈ cats, c.1 ≠ havocKey ∧ c.2 ≠ 0)
      (q := fun key => attributableToHarness key harness.prettyName counts.harnessNames)
      (fun cats totals => ?_) _ _).trans ?_
    · simp only [sumOf_foldl_addCount, bne_iff_ne]
    · simp only [BTreeMap.sumOf_empty, Nat.lt_irrefl, false_or, SoundAttributed]
  rw [← hsum]
  unfold applySoundFallbackFailClose
  dsimp only
  split_ifs with hpos
  · exact iff_of_true rfl hpos.2
  · rw [h]
    exact iff_of_false (by decide) fun hcount => hpos ⟨h, hcount⟩

/-! ### Attribution -/

/-- Where the look-up finds nothing, an entry is attributed only if it is overlooked. -/
theorem taints_iff_overlooked {crateTotal : ℕ} {perHarness : BTreeMap ℕ}
    (h : resolvePerHarnessCount crateTotal perHarness harness.prettyName = 0) :
    Taints crateTotal perHarness harness.prettyName counts.harnessNames ↔
      Overlooked harness counts perHarness := by
  unfold resolvePerHarnessCount at h
  unfold Taints Overlooked
  split_ifs at h ⊢ with hempty
  · have hnil : perHarness.entries = [] := List.isEmpty_iff.1 hempty
    simp [h, hnil]
  · rw [and_iff_right h]

/-- The attribution of sound approximations differs where there are no totals for them. -/
theorem sameAttribution_iff :
    SameAttribution harness counts ↔
      Noticed harness counts ∨ ¬ (counts.soundApproxCrateTotals = [] ∧
        approxCats harness counts = [] ∧ SoundAttributed harness counts (· ≠ [])) := by
  constructor
  · refine fun h => or_iff_not_imp_left.2 fun hnot => ?_
    rintro ⟨-, -, hattr⟩
    have hgenuine := classifyCtrex_genuine_iff.2 hnot
    obtain ⟨hdemoted, hfail, -⟩ := classifyCtrex_eq_genuine.1 hgenuine
    have hempty := (h.approx (demotedTriggers_eq_nil_iff.1 hdemoted) hfail).1 hgenuine
    exact soundApproxCategoriesFailClosed_isEmpty_iff.1 hempty hattr
  · intro h
    refine ⟨fun result hresult => demoteForAllUnsoundness_failure_iff hresult, ?_,
      fun result hresult => applySoundFallbackFailClose_failure_iff hresult, ?_⟩
    · rintro ⟨c, hc⟩ hgenuine
      exact classifyCtrex_genuine_iff.1 hgenuine (.inl ⟨c, hc⟩)
    · intro hdemoted hfail
      rw [soundApproxCategoriesFailClosed_isEmpty_iff]
      constructor
      · intro hgenuine hattr
        have hnot := classifyCtrex_genuine_iff.1 hgenuine
        obtain ⟨-, -, hsound⟩ := classifyCtrex_eq_genuine.1 hgenuine
        obtain ⟨hcats, htotals⟩ := classifySoundApprox_genuine_iff.1 hsound
        exact (h.resolve_left hnot)
          ⟨htotals.resolve_right (not_not_intro hattr), hcats, hattr⟩
      · intro hattr
        refine classifyCtrex_eq_genuine.2 ⟨demotedTriggers_eq_nil_iff.2 hdemoted, hfail,
          classifySoundApprox_genuine_iff.2 ⟨?_, .inr hattr⟩⟩
        by_contra hcats
        exact hattr (exists_of_approxCats hcats)

/-- A genuine counterexample is untainted, and what counts against it is what counts against a
proof, exactly for the counts in which a category is noticed or none is overlooked. -/
theorem classifyCtrex_untainted_iff (harness : HarnessMetadata)
    (counts : CrateUnsoundnessCounts) :
    ((classifyCtrex harness counts = .genuine → ¬ Tainted harness counts) ∧
        SameAttribution harness counts) ↔
      Noticed harness counts ∨
        ¬ Overlooked harness counts counts.iteratorUnsoundnessPerHarness ∧
          ¬ Overlooked harness counts counts.bigintUnsoundnessPerHarness ∧
          ¬ SoundOverlooked harness counts := by
  rw [sameAttribution_iff, classifyCtrex_genuine_iff]
  by_cases hnoticed : Noticed harness counts
  · simp only [hnoticed, not_true_eq_false, false_implies, true_or, and_self]
  · -- nothing is noticed: what taints the harness is what is overlooked
    have hquiet := hnoticed
    simp only [Noticed, not_or, not_not] at hquiet
    obtain ⟨hdemoting, hassert, hheap, hlayout, hiterator, hbigint, hcats, htotals⟩ := hquiet
    simp only [hnoticed, not_false_eq_true, true_implies, false_or, Tainted, hdemoting, hassert,
      hheap, hlayout, ne_eq, not_true_eq_false, taints_iff_overlooked hiterator,
      taints_iff_overlooked hbigint, not_or, and_assoc]
    refine and_congr_right fun _ => and_congr_right fun _ => ?_
    rw [SoundOverlooked, not_or]
    by_cases hempty : counts.soundApproxPerHarness.isEmpty
    · rw [SoundTaints, if_pos hempty, hempty]
      simp only [true_and]
    · rw [SoundTaints, if_neg hempty]
      simp only [hempty, Bool.false_eq_true, false_and, not_false_eq_true, true_and]
      rw [and_iff_right_iff_imp]
      rintro hover ⟨e, he, hattr, c, hc, hne⟩
      have hsound : SoundAttributed harness counts (· ≠ []) :=
        ⟨e, he, hattr, List.ne_nil_of_mem hc⟩
      by_cases hnil : counts.soundApproxCrateTotals = []
      · exact hover ⟨hnil, hcats, hsound⟩
      · exact htotals ⟨hnil, hsound⟩

/-- An iterator's unsoundness under the name of a function. -/
def helperCounts : CrateUnsoundnessCounts :=
  { CrateUnsoundnessCounts.default with
    iteratorUnsoundness := 2
    iteratorUnsoundnessPerHarness := .singleton "crate::helper_fn" 2
    harnessNames := ["crate::harness_a", "crate::harness_b"] }

/-- It counts against every harness, and the counterexamples of each are genuine. -/
theorem helper_overlooked :
    ¬ (classifyCtrex ⟨"crate::harness_a"⟩ helperCounts = .genuine →
      ¬ Tainted ⟨"crate::harness_a"⟩ helperCounts) := by
  intro h
  refine h (by decide) (.inr (.inr (.inr (.inr (.inl ?_)))))
  exact ⟨("crate::helper_fn", 2), List.mem_singleton_self _, by decide, by decide⟩

end Attribution

end Verdict

end TrustMc
