import TrustMc.Verdict.Attribution

/-!
# Verdicts against the unsoundness counts

A counterexample is classified, and a proof is demoted, by the unsoundness counts of its crate.
The demoting categories are resolved for both by one look-up; the fail-closed ones, which only a
counterexample is checked for, and the sound approximations have others.

* `classifyCtrex`: what a counterexample is called.
* `demoteForAllUnsoundness`, `applySoundFallbackFailClose`: what becomes of a proof.
-/

namespace TrustMc

namespace Verdict

/-- The `UnsoundnessCategory`s that demote a proof. -/
inductive DemotedCategory
  | constantZeroFallback
  | internalWorkaround
  | chcFallback
  | typeSortFallback
  | signednessFallback
  | unsupportedConstructFallback
  | unconstrainedAssignment
  | bmcStoreCoercionFallback
  | storeDroppedTransition
  | divergingCallDrop
  | offsetProvenanceUnresolved
  | kaniMemOverapprox
  | inferablePredicate
  | fpBitvectorEncoding
  | roundingAssertionBypass
  | vecFieldFallback
  | pointeeSynthesisFallback
deriving DecidableEq

namespace DemotedCategory

/-- `json_key`. -/
def jsonKey : DemotedCategory → String
  | constantZeroFallback => "constant_zero_fallback"
  | internalWorkaround => "internal_workaround"
  | chcFallback => "chc_fallback"
  | typeSortFallback => "type_sort_fallback"
  | signednessFallback => "signedness_fallback"
  | unsupportedConstructFallback => "unsupported_construct_fallback"
  | unconstrainedAssignment => "unconstrained_assignment"
  | bmcStoreCoercionFallback => "bmc_store_coercion_fallback"
  | storeDroppedTransition => "store_dropped_transition"
  | divergingCallDrop => "diverging_call_drop"
  | offsetProvenanceUnresolved => "offset_provenance_unresolved"
  | kaniMemOverapprox => "kani_mem_overapprox"
  | inferablePredicate => "inferable_predicate"
  | fpBitvectorEncoding => "fp_bitvector_encoding"
  | roundingAssertionBypass => "rounding_assertion_bypass"
  | vecFieldFallback => "vec_field_fallback"
  | pointeeSynthesisFallback => "pointee_synthesis_fallback"

/-- The categories in the order in which they are resolved. -/
def all : List DemotedCategory :=
  [constantZeroFallback, internalWorkaround, chcFallback, typeSortFallback, signednessFallback,
    unsupportedConstructFallback, unconstrainedAssignment, bmcStoreCoercionFallback,
    storeDroppedTransition, divergingCallDrop, offsetProvenanceUnresolved, kaniMemOverapprox,
    inferablePredicate, fpBitvectorEncoding, roundingAssertionBypass, vecFieldFallback,
    pointeeSynthesisFallback]

theorem mem_all (c : DemotedCategory) : c ∈ all := by
  cases c <;> decide

end DemotedCategory

/-- `CrateUnsoundnessCounts`. -/
structure CrateUnsoundnessCounts where
  /-- The crate's total for each demoting category. -/
  total : DemotedCategory → ℕ
  /-- The counts by name for each demoting category. -/
  perHarness : DemotedCategory → BTreeMap ℕ
  /-- `sound_approx_per_harness`: categories with their counts, by name. -/
  soundApproxPerHarness : BTreeMap (List (String × ℕ))
  /-- `sound_approx_crate_totals`. -/
  soundApproxCrateTotals : List (String × ℕ)
  /-- `assert_untranslatable`. -/
  assertUntranslatable : ℕ
  /-- `heap_check_untranslatable`. -/
  heapCheckUntranslatable : ℕ
  /-- `heap_check_unknown_layout`. -/
  heapCheckUnknownLayout : ℕ
  /-- `iterator_unsoundness`. -/
  iteratorUnsoundness : ℕ
  /-- `bigint_unsoundness`. -/
  bigintUnsoundness : ℕ
  /-- `iterator_unsoundness_per_harness`. -/
  iteratorUnsoundnessPerHarness : BTreeMap ℕ
  /-- `harness_names`: the proof harnesses of the crate. -/
  harnessNames : List String
  /-- `bigint_unsoundness_per_harness`. -/
  bigintUnsoundnessPerHarness : BTreeMap ℕ

/-- `CrateUnsoundnessCounts::default`. -/
def CrateUnsoundnessCounts.default : CrateUnsoundnessCounts where
  total := fun _ => 0
  perHarness := fun _ => .empty
  soundApproxPerHarness := .empty
  soundApproxCrateTotals := []
  assertUntranslatable := 0
  heapCheckUntranslatable := 0
  heapCheckUnknownLayout := 0
  iteratorUnsoundness := 0
  bigintUnsoundness := 0
  iteratorUnsoundnessPerHarness := .empty
  harnessNames := []
  bigintUnsoundnessPerHarness := .empty

/-- `HarnessMetadata`. -/
structure HarnessMetadata where
  /-- `pretty_name`. -/
  prettyName : String

/-- `CtrexCategory`. -/
inductive CtrexCategory
  | encodingGap (categories : List String)
  | overApproximation (categories : List String)
  | genuine
  | unknown
deriving DecidableEq

/-- `VerificationStatus`. -/
inductive VerificationStatus
  | success
  | failure
deriving DecidableEq

/-- `FailedProperties`. -/
inductive FailedProperties
  | none
  | panicsOnly
  | other
deriving DecidableEq

/-- `VerificationResult`. -/
structure VerificationResult where
  /-- `status`. -/
  status : VerificationStatus
  /-- `failed_properties`. -/
  failedProperties : FailedProperties
  /-- `demotion_reasons`. -/
  demotionReasons : List String
  /-- `ctrex_category`. -/
  ctrexCategory : Option CtrexCategory
  /-- `sound_fallback_count`. -/
  soundFallbackCount : ℕ

/-- `format!("\x7bcat\x7d=\x7bcount\x7d")`. -/
def trigger (cat : String) (count : ℕ) : String := cat ++ "=" ++ toString count

section Counts

variable (harness : HarnessMetadata) (counts : CrateUnsoundnessCounts)

/-! ### Demoting categories -/

/-- `resolve_demoting_categories`. -/
def resolveDemotingCategories : List (String × ℕ) :=
  DemotedCategory.all.map fun c =>
    (c.jsonKey, resolvePerHarnessCountFailClosed (counts.total c) (counts.perHarness c)
      harness.prettyName counts.harnessNames)

/-- The categories with a count, in words. -/
def demotedTriggers : List String :=
  ((resolveDemotingCategories harness counts).filter fun c => decide (0 < c.2)).map
    fun c => trigger c.1 c.2

/-- `demote_for_all_unsoundness`. -/
def demoteForAllUnsoundness (result : VerificationResult) : VerificationResult :=
  if result.status ≠ .success then result
  else if (demotedTriggers harness counts).isEmpty then result
  else
    { result with
      status := .failure
      failedProperties := .other
      demotionReasons := demotedTriggers harness counts }

/-! ### Sound approximations -/

/-- `sound_approx_categories_fail_closed`. -/
def soundApproxCategoriesFailClosed (harnessName : String) : BTreeMap ℕ :=
  counts.soundApproxPerHarness.entries.foldl
    (fun totals e =>
      if attributableToHarness e.1 harnessName counts.harnessNames then
        e.2.foldl (fun (totals : BTreeMap ℕ) c => totals.addCount c.1 c.2) totals
      else totals)
    .empty

/-- The key of `ChcSoundHavocDrop`. -/
def havocKey : String := "chc_sound_havoc_drop"

/-- `apply_sound_fallback_fail_close`. -/
def applySoundFallbackFailClose (result : VerificationResult) : VerificationResult :=
  let approx := soundApproxCategoriesFailClosed counts harness.prettyName
  let soundFallbackCount :=
    ((approx.entries.filter fun c => c.1 != havocKey).map Prod.snd).sum
  if result.status = .success ∧ 0 < soundFallbackCount then
    { result with
      soundFallbackCount := soundFallbackCount
      status := .failure
      failedProperties := .other
      ctrexCategory := some (.overApproximation
        ((approx.entries.filter fun c => c.1 != havocKey).map fun c => trigger c.1 c.2)) }
  else { result with soundFallbackCount := soundFallbackCount }

/-! ### Counterexamples -/

/-- `push_fail_closed_trigger`. -/
def pushFailClosedTrigger (triggers : List String) (category : String) (crateTotal : ℕ)
    (perHarness : BTreeMap ℕ) : List String :=
  let count := resolvePerHarnessCount crateTotal perHarness harness.prettyName
  if 0 < count then triggers ++ [trigger category count] else triggers

/-- One fail-closed category that only the crate counts. -/
def pushCrateTrigger (triggers : List String) (category : String) (count : ℕ) : List String :=
  if 0 < count then triggers ++ [trigger category count] else triggers

/-- `fail_closed_triggers`. -/
def failClosedTriggers : List String :=
  let triggers := pushCrateTrigger [] "assert_untranslatable" counts.assertUntranslatable
  let triggers :=
    pushCrateTrigger triggers "heap_check_untranslatable" counts.heapCheckUntranslatable
  let triggers :=
    pushCrateTrigger triggers "heap_check_unknown_layout" counts.heapCheckUnknownLayout
  let triggers := pushFailClosedTrigger harness triggers "iterator_unsoundness"
    counts.iteratorUnsoundness counts.iteratorUnsoundnessPerHarness
  pushFailClosedTrigger harness triggers "bigint_unsoundness"
    counts.bigintUnsoundness counts.bigintUnsoundnessPerHarness

/-- `residual`: the totals over the keys that name no other harness. -/
def residual : List String :=
  let current := harness.prettyName
  let totals := counts.soundApproxPerHarness.entries.foldl
    (fun (totals : BTreeMap ℕ) e =>
      let couldBeCurrent := harnessNamesMatch e.1 current
      let attributedToOtherHarness := !couldBeCurrent &&
        counts.harnessNames.any fun name => name != current && harnessNamesMatch e.1 name
      if attributedToOtherHarness then totals
      else e.2.foldl (fun (totals : BTreeMap ℕ) c => totals.addCount c.1 c.2) totals)
    .empty
  totals.entries.map fun c => trigger c.1 c.2

/-- The sound approximations of a counterexample without other triggers. -/
def classifySoundApprox : CtrexCategory :=
  let approxCats :=
    (lookupPerHarness counts.soundApproxPerHarness harness.prettyName).getD []
  if !approxCats.isEmpty then
    .overApproximation (approxCats.map fun c => trigger c.1 c.2)
  else if !counts.soundApproxCrateTotals.isEmpty && !(residual harness counts).isEmpty then
    .overApproximation (residual harness counts)
  else .genuine

/-- `classify_ctrex`. -/
def classifyCtrex : CtrexCategory :=
  let demoted := demotedTriggers harness counts
  let offsetOnlyDemotion := !demoted.isEmpty &&
    demoted.all fun t => "offset_provenance_unresolved=".toList.isPrefixOf t.toList
  if !demoted.isEmpty && !offsetOnlyDemotion then .encodingGap demoted
  else
    let failClosed := failClosedTriggers harness counts
    if !failClosed.isEmpty then
      -- where only offsets are demoted, their triggers are reported too
      if offsetOnlyDemotion then .encodingGap (demoted ++ failClosed)
      else .encodingGap failClosed
    else if offsetOnlyDemotion then
      .overApproximation (demoted ++
        ((lookupPerHarness counts.soundApproxPerHarness harness.prettyName).getD []).map
          fun c => trigger c.1 c.2)
    else classifySoundApprox harness counts

end Counts

end Verdict

end TrustMc
