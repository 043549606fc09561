import Mathlib.Data.List.ProdSigma
import Mathlib.Data.List.Sort
import TrustMc.Budget.Fixpoint
import TrustMc.Scalarize.ConstIdx

/-!
# The arrays that can be scalarized

`identifyScalarizableArrays` finds the declared arrays that the constraints read and write at
constant indices only, with the indices as **lanes**. An array that is copied or stored from
another needs the lanes of the other and the other way round; `propagateRequiredLanes` adds
them until nothing changes, and gives up arrays with too many lanes and what depends on them
(`propagateRequiredLanes_stable`).
-/

namespace TrustMc

namespace Scalarize

open Budget ConstProp DeadScalars

/-- `MAX_SCALARS_PER_ARRAY`. -/
def maxScalarsPerArray : ℕ := 16

/-- The name of an array after the step. -/
def outputName (inputName : String) : String := inputName ++ "__out"

/-! ### Forwarded arrays -/

section Transparent

variable (isCandidate : String → Bool)

/-- `expr_mentions_candidate_var`. -/
def exprMentionsCandidateVar (e : Expr) : Bool := e.varNames.any isCandidate

/-- `merge_transparent_child_bases`. -/
def mergeTransparentChildBases (childBases : List (Except Unit (Option String))) :
    Except Unit (Option String) :=
  childBases.foldlM (fun base childBase =>
    childBase.bind fun childBase =>
      match base, childBase with
      | _, none => .ok base
      | none, some child => .ok (some child)
      | some existing, some child => if existing ≠ child then .error () else .ok base) none

/-- The position of a field of a constructor. -/
def fieldPosition (sort : SmtSort) (constructor selector : String) : Option ℕ := do
  let ctor ← (← sort.constructors).find? (·.name == constructor)
  ctor.fields.findIdx? (·.name == selector)

mutual

/-- `collect_transparent_forwarded_array_base`. -/
def collectTransparentForwardedArrayBase : Expr → Except Unit (Option String)
  | .var name _ => .ok (if isCandidate name then some name else none)
  | .app (.datatypeSelector _ selector _) [.app (.datatypeConstructor _ constructor sort) args] =>
    let bases := collectTransparentBases args
    ((fieldPosition sort constructor selector).bind (bases[·]?)).getD (.error ())
  | .app (.datatypeConstructor _ _ _) args =>
    mergeTransparentChildBases (collectTransparentBases args)
  | .ite cond thenExpr elseExpr =>
    -- both branches have to forward one array, on which the condition does not depend
    if exprMentionsCandidateVar isCandidate cond then .error ()
    else
      match collectTransparentForwardedArrayBase thenExpr,
        collectTransparentForwardedArrayBase elseExpr with
      | .ok thenBase, .ok elseBase => if thenBase = elseBase then .ok thenBase else .error ()
      | _, _ => .error ()
  | .app .store _ | .app .select _ | .app (.constArray _) _ => .error ()
  | .app op args =>
    if exprMentionsCandidateVar isCandidate (.app op args) then .error () else .ok none
  | .quant q vars body =>
    if exprMentionsCandidateVar isCandidate (.quant q vars body) then .error () else .ok none

/-- `collect_transparent_forwarded_array_base` on a list of terms. -/
def collectTransparentBases : List Expr → List (Except Unit (Option String))
  | [] => []
  | e :: es => collectTransparentForwardedArrayBase e :: collectTransparentBases es

end

/-- `transparent_forwarded_array_base`. -/
def transparentForwardedArrayBase (e : Expr) : Option String :=
  if !e.sort.isArray then none
  else
    match collectTransparentForwardedArrayBase isCandidate e with
    | .ok base => base
    | .error _ => none

end Transparent

/-! ### What a constraint does with an array -/

/-- `ArrayUse`. -/
inductive ArrayUse
  | storeChain (base : String) (stores : List (ConstIdx × Expr))
  | constArrayInit
  | explicitIdentity (base : String)
  | notRelated
  | unrecognized

mutual

/-- `output_var_usage_supported`: every mention is the base of a store chain or of a read. -/
def outputVarUsageSupported (target : String) : Expr → Bool
  | .var name _ => name != target
  | .app .store args =>
    (decomposeStoreChain (.app .store args)).any (·.1 == target) ||
      outputVarsUsageSupported target args
  | .app .select [array, index] =>
    (isVar target array || outputVarUsageSupported target array) &&
      outputVarUsageSupported target index
  | .app _ args => outputVarsUsageSupported target args
  | .quant _ _ body => outputVarUsageSupported target body

/-- `output_var_usage_supported` on a list of terms. -/
def outputVarsUsageSupported (target : String) : List Expr → Bool
  | [] => true
  | e :: es => outputVarUsageSupported target e && outputVarsUsageSupported target es

end

/-- `transparently_forwards_target_output`. -/
def transparentlyForwardsTargetOutput (lhs rhs : Expr) (targetOutput : String) : Bool :=
  (transparentForwardedArrayBase (· == targetOutput) lhs).or
    (transparentForwardedArrayBase (· == targetOutput) rhs) == some targetOutput

section Inputs

variable (inputs : List String)

/-- `canonical_input_name`: the array of which the name is the input or the output. -/
def canonicalInputName (name : String) : Option String :=
  if name ∈ inputs then some name else (stripOutSuffix name).filter (· ∈ inputs)

/-- `is_supported_array_base`. -/
def isSupportedArrayBase (base : String) : Bool :=
  base == constArrayBase || (canonicalInputName inputs base).isSome

/-- The value that an output is equated with. -/
def classifyValue (value : Expr) : ArrayUse :=
  match value with
  | .var name _ => .explicitIdentity name
  | .app (.constArray _) _ => .constArrayInit
  | .app .store _ =>
    match decomposeStoreChain value with
    | some (base, stores) => .storeChain base stores
    | none => .unrecognized
  | _ =>
    match transparentForwardedArrayBase (fun name => (canonicalInputName inputs name).isSome)
        value with
    | some base => .explicitIdentity base
    | none => .unrecognized

/-- `classify_constraint_for_array`. -/
def classifyConstraintForArray (constraint : Expr) (targetOutput : String) : ArrayUse :=
  match constraint with
  | .app .eq [lhs, rhs] =>
    if isVar targetOutput lhs then classifyValue inputs rhs
    else if isVar targetOutput rhs then classifyValue inputs lhs
    else if exprMentionsVar constraint targetOutput then
      if outputVarUsageSupported targetOutput constraint ||
          transparentlyForwardsTargetOutput lhs rhs targetOutput then .notRelated
      else .unrecognized
    else .notRelated
  | _ => if exprMentionsVar constraint targetOutput then .unrecognized else .notRelated

mutual

/-- `collect_selects_on_var`: the indices of the reads of a variable, if they are constant. -/
def collectSelectsOnVar (target : String) : Expr → Option (List ConstIdx)
  | .var _ _ => some []
  | .app .select [array, index] =>
    if isVar target array then do
      let idx ← tryExtractConstIdx index
      let rest ← collectSelectsOnVar target index
      pure (idx :: rest)
    else if exprMentionsVar array target then none
    else collectSelectsOnVar target index
  | .app _ args => collectSelectsOnVars target args
  | .quant _ _ body => collectSelectsOnVar target body

/-- `collect_selects_on_var` on a list of terms. -/
def collectSelectsOnVars (target : String) : List Expr → Option (List ConstIdx)
  | [] => some []
  | e :: es => do
    let idxs ← collectSelectsOnVar target e
    let rest ← collectSelectsOnVars target es
    pure (idxs ++ rest)

end

/-! ### The scan -/

/-- `LaneDependency`. -/
inductive LaneDependency
  | copy (dst base : String)
  | storeBase (dst base : String) (overwritten : List ConstIdx)

/-- The array that depends on another. -/
def LaneDependency.dst : LaneDependency → String
  | .copy dst _ => dst
  | .storeBase dst _ _ => dst

/-- The array that another depends on. -/
def LaneDependency.base : LaneDependency → String
  | .copy _ base => base
  | .storeBase _ base _ => base

/-- The constraints with a flag for those of entry rules, whose conjunctions are taken apart. -/
def collectScanConstraints (vc : ChcVc) : List (Expr × Bool) :=
  vc.rules.flatMap fun rule =>
    if rule.body.relation.isNone then
      (flattenConjunctions rule.body.constraints).map fun c => (c, true)
    else rule.body.constraints.map fun c => (c, false)

/-- `is_pointwise_seed_pair`. -/
def isPointwiseSeedPair (selectSide valueSide : Expr) (target : String) : Bool :=
  match selectSide with
  | .app .select [array, index] =>
    isVar target array && (tryExtractConstIdx index).isSome && !exprMentionsVar valueSide target
  | _ => false

/-- `is_entry_pointwise_seed_for_array`. -/
def isEntryPointwiseSeedForArray (constraint : Expr) (target : String) : Bool :=
  match constraint with
  | .app .eq [lhs, rhs] => isPointwiseSeedPair lhs rhs target || isPointwiseSeedPair rhs lhs target
  | _ => false

/-- The lanes and the dependency that a use of an output adds; `none` rejects the array. -/
def useLanes (inputName : String) : ArrayUse → Option (List ConstIdx × List LaneDependency)
  | .storeChain base stores =>
    if !isSupportedArrayBase inputs base then none
    else some (stores.map Prod.fst,
      if base ≠ inputName ∧ base ≠ constArrayBase then
        [.storeBase inputName base (stores.map Prod.fst)] else [])
  | .explicitIdentity base =>
    if base = inputName then some ([], [])
    else if !isSupportedArrayBase inputs base then none
    else some ([], [.copy inputName base])
  | .constArrayInit | .notRelated => some ([], [])
  | .unrecognized => none

/-- One constraint: the lanes and dependencies it adds to the array; `none` rejects the array. -/
def scanConstraint (inputName : String) (scanned : Expr × Bool) :
    Option (List ConstIdx × List LaneDependency) :=
  let constraint := scanned.1
  let mentionsInput := exprMentionsVar constraint inputName
  let mentionsOutput := exprMentionsVar constraint (outputName inputName)
  if !mentionsInput && !mentionsOutput then some ([], [])
  else if scanned.2 && isEntryPointwiseSeedForArray constraint inputName then some ([], [])
  else do
    let read ← if mentionsInput then collectSelectsOnVar inputName constraint else some []
    let readOutput ←
      if mentionsOutput then collectSelectsOnVar (outputName inputName) constraint else some []
    if !mentionsOutput then pure (read, [])
    else
      let (stored, dependencies) ←
        useLanes inputs inputName
          (classifyConstraintForArray inputs constraint (outputName inputName))
      pure (read ++ readOutput ++ stored, dependencies)

/-- The constraints one after the other, up to the first that rejects the array. -/
def scanArray (inputName : String) :
    List (Expr × Bool) → Option (List ConstIdx) × List LaneDependency
  | [] => (some [], [])
  | scanned :: rest =>
    match scanConstraint inputs inputName scanned with
    | none => (none, [])
    | some (indices, dependencies) =>
      let (restIndices, restDependencies) := scanArray inputName rest
      (restIndices.map (indices ++ ·), dependencies ++ restDependencies)

/-! ### Required lanes

`facts` holds the lanes of the arrays and, as `none`, that an array is rejected; the lanes of a
rejected array do not count. -/

namespace LaneDependencies

section Facts

variable (facts : List (String × Option ConstIdx))

/-- A fact is added once. -/
def addFact (fact : String × Option ConstIdx) : List (String × Option ConstIdx) :=
  if fact ∈ facts then facts else facts ++ [fact]

/-- `mark_non_scalarizable`. -/
def markNonScalarizable (name : String) : List (String × Option ConstIdx) :=
  addFact facts (name, none)

/-- The lanes of an array. -/
def factLanes (name : String) : List ConstIdx :=
  facts.filterMap fun fact => if fact.1 = name then fact.2 else none

/-- Lanes are added to an array. -/
def insertLanes (name : String) (indices : List ConstIdx) : List (String × Option ConstIdx) :=
  indices.foldl (fun facts idx => addFact facts (name, some idx)) facts

/-- An array with too many lanes is rejected. -/
def capLanes (name : String) : List (String × Option ConstIdx) :=
  if maxScalarsPerArray < (factLanes facts name).length then markNonScalarizable facts name
  else facts

/-- `required_indices_for_dependency`. -/
def requiredIndices (dependency : LaneDependency) : List ConstIdx :=
  if (dependency.dst, none) ∈ facts then []
  else
    match dependency with
    | .copy dst _ => factLanes facts dst
    | .storeBase dst _ overwritten => (factLanes facts dst).filter (· ∉ overwritten)

/-- `propagate_copy_base_indices_to_dst`. -/
def propagateCopyBaseIndicesToDst (dst base : String) : List (String × Option ConstIdx) :=
  if (dst, none) ∈ facts then facts
  else
    match canonicalInputName inputs base with
    | none => markNonScalarizable facts dst
    | some baseInput =>
      if (baseInput, none) ∈ facts then markNonScalarizable facts dst
      else if (factLanes facts baseInput).isEmpty then facts
      else capLanes (insertLanes facts dst (factLanes facts baseInput)) dst

/-- A copy has the lanes of the array it is a copy of. -/
def propagateCopy (dependency : LaneDependency) : List (String × Option ConstIdx) :=
  match dependency with
  | .copy dst base => propagateCopyBaseIndicesToDst inputs facts dst base
  | .storeBase _ _ _ => facts

/-- One dependency of a round of `propagate_required_lanes`. -/
def propagateDependency (dependency : LaneDependency) : List (String × Option ConstIdx) :=
  let required := requiredIndices facts dependency
  if dependency.base = constArrayBase ∨ required = [] then propagateCopy inputs facts dependency
  else
    match canonicalInputName inputs dependency.base with
    | none => markNonScalarizable facts dependency.dst
    | some baseInput =>
      if (baseInput, none) ∈ facts then markNonScalarizable facts dependency.dst
      else propagateCopy inputs (capLanes (insertLanes facts baseInput required) baseInput)
        dependency

end Facts

/-- One round of `propagate_required_lanes`. -/
def laneRound (dependencies : List LaneDependency) (facts : List (String × Option ConstIdx)) :
    List (String × Option ConstIdx) :=
  dependencies.foldl (propagateDependency inputs) facts

/-- `propagate_required_lanes`: every round that changes something adds a fact about an array, and
the lanes are those of the start. -/
def propagateRequiredLanes (dependencies : List LaneDependency)
    (facts : List (String × Option ConstIdx)) : List (String × Option ConstIdx) :=
  untilStable (laneRound inputs dependencies) (inputs.length * (facts.length + 1)) facts

/-! The rounds reach a fixed point. -/

section Rounds

variable {inputs} {options : List (Option ConstIdx)} {facts : List (String × Option ConstIdx)}

theorem canonicalInputName_mem {name input : String}
    (h : canonicalInputName inputs name = some input) : input ∈ inputs := by
  unfold canonicalInputName at h
  split_ifs at h with hname
  · exact Option.some.inj h ▸ hname
  · exact decide_eq_true_iff.1 (Option.filter_eq_some_iff.1 h).2

theorem mem_factLanes {name : String} {idx : ConstIdx} :
    idx ∈ factLanes facts name ↔ (name, some idx) ∈ facts := by
  simp only [factLanes, List.mem_filterMap, Option.ite_none_right_eq_some]
  constructor
  · rintro ⟨⟨_, _⟩, hmem, rfl, rfl⟩
    exact hmem
  · exact fun hmem => ⟨_, hmem, rfl, rfl⟩

theorem grows_addFact {name : String} {option : Option ConstIdx} (hname : name ∈ inputs)
    (hoption : option ∈ options) :
    Grows (inputs ×ˢ options) facts (addFact facts (name, option)) := by
  rw [addFact]
  split_ifs with hin
  · exact .refl _ _
  · exact .insert (List.pair_mem_product.2 ⟨hname, hoption⟩) hin

theorem grows_insertLanes {name : String} {indices : List ConstIdx} (hname : name ∈ inputs)
    (hindices : ∀ idx ∈ indices, some idx ∈ options) :
    Grows (inputs ×ˢ options) facts (insertLanes facts name indices) :=
  Grows.foldl (fun idx hidx _ => grows_addFact hname (hindices idx hidx)) facts

theorem grows_capLanes {name : String} (hname : name ∈ inputs) (hnone : none ∈ options) :
    Grows (inputs ×ˢ options) facts (capLanes facts name) := by
  rw [capLanes]
  split_ifs
  · exact grows_addFact hname hnone
  · exact .refl _ _

/-- What the lanes of the arrays are stays among the options. -/
theorem forall_of_grows {facts' : List (String × Option ConstIdx)}
    (hfacts : ∀ fact ∈ facts, fact.2 ∈ options)
    (h : Grows (inputs ×ˢ options) facts facts') : ∀ fact ∈ facts', fact.2 ∈ options := by
  obtain ⟨new, rfl, hnew⟩ := h
  intro fact hfact
  rcases List.mem_append.1 hfact with hfact | hfact
  · exact hfacts fact hfact
  · exact (List.mem_product.1 (hnew fact hfact).1).2

theorem grows_propagateCopy {dependency : LaneDependency} (hdst : dependency.dst ∈ inputs)
    (hnone : none ∈ options) (hfacts : ∀ fact ∈ facts, fact.2 ∈ options) :
    Grows (inputs ×ˢ options) facts (propagateCopy inputs facts dependency) := by
  cases dependency with
  | storeBase dst base overwritten => exact .refl _ _
  | copy dst base =>
    rw [propagateCopy, propagateCopyBaseIndicesToDst]
    split_ifs
    · exact .refl _ _
    · cases canonicalInputName inputs base with
      | none => exact grows_addFact hdst hnone
      | some baseInput =>
        dsimp only
        split_ifs
        · exact grows_addFact hdst hnone
        · exact .refl _ _
        · have hlanes : ∀ idx ∈ factLanes facts baseInput, some idx ∈ options :=
            fun idx hidx => hfacts _ (mem_factLanes.1 hidx)
          exact (grows_insertLanes hdst hlanes).trans (grows_capLanes hdst hnone)

theorem grows_propagateDependency {dependency : LaneDependency}
    (hdst : dependency.dst ∈ inputs) (hnone : none ∈ options)
    (hfacts : ∀ fact ∈ facts, fact.2 ∈ options) :
    Grows (inputs ×ˢ options) facts (propagateDependency inputs facts dependency) := by
  have hrequired : ∀ idx ∈ requiredIndices facts dependency, some idx ∈ options := by
    intro idx hidx
    refine hfacts (dependency.dst, some idx) (mem_factLanes.1 ?_)
    cases dependency with
    | copy dst base =>
      rw [requiredIndices] at hidx
      split_ifs at hidx
      · cases hidx
      · exact hidx
    | storeBase dst base overwritten =>
      rw [requiredIndices] at hidx
      split_ifs at hidx
      · cases hidx
      · exact (List.mem_filter.1 hidx).1
  rw [propagateDependency]
  split_ifs
  · exact grows_propagateCopy hdst hnone hfacts
  · cases hbase : canonicalInputName inputs dependency.base with
    | none => exact grows_addFact hdst hnone
    | some baseInput =>
      have hinput := canonicalInputName_mem hbase
      dsimp only
      split_ifs
      · exact grows_addFact hdst hnone
      · have hinsert : Grows (inputs ×ˢ options) facts
            (insertLanes facts baseInput (requiredIndices facts dependency)) :=
          grows_insertLanes hinput hrequired
        have hlanes := hinsert.trans (grows_capLanes hinput hnone)
        exact hlanes.trans (grows_propagateCopy hdst hnone (forall_of_grows hfacts hlanes))

/-- **The rounds reach a fixed point.** -/
theorem propagateRequiredLanes_stable {dependencies : List LaneDependency}
    (hdst : ∀ dependency ∈ dependencies, dependency.dst ∈ inputs) :
    laneRound inputs dependencies (propagateRequiredLanes inputs dependencies facts) =
      propagateRequiredLanes inputs dependencies facts := by
  set options := none :: facts.map Prod.snd with hoptions
  have hgrows : ∀ a, (∀ fact ∈ a, fact.2 ∈ options) →
      Grows (inputs ×ˢ options) a (laneRound inputs dependencies a) := by
    intro a ha
    rw [laneRound]
    induction dependencies generalizing a with
    | nil => exact .refl _ _
    | cons dependency rest ih =>
      have hstep := grows_propagateDependency (hdst dependency List.mem_cons_self)
        List.mem_cons_self ha
      exact hstep.trans (ih (fun d hd => hdst d (List.mem_cons_of_mem _ hd)) _
        (forall_of_grows ha hstep))
  refine untilStable_stable (P := fun a => ∀ fact ∈ a, fact.2 ∈ options)
    (fun a ha => forall_of_grows ha (hgrows a ha))
    (missing (inputs ×ˢ options)) (fun a ha hne => (hgrows a ha).missing_lt hne)
    (fun fact hfact => List.mem_cons_of_mem _ (List.mem_map_of_mem hfact))
    ((List.length_filter_le _ _).trans ?_)
  rw [List.length_product, hoptions, List.length_cons, List.length_map]

end Rounds

end LaneDependencies

end Inputs

/-! ### The plan -/

/-- `ScalarInfo`. -/
structure ScalarInfo where
  /-- The name of the array. -/
  inputName : String
  /-- Its name after the step. -/
  outputName : String
  /-- The sort of the elements. -/
  elemSort : SmtSort
  /-- The lanes in order, with the names of their variables. -/
  indexToScalar : List (ConstIdx × String)
  deriving DecidableEq

/-- The declared arrays that are not banned. -/
def inputVars (vc : ChcVc) (banned : List String) : List (String × SmtSort) :=
  vc.vars.filter fun v =>
    v.2.isArray && !"__out".toList.isSuffixOf v.1.toList && decide (v.1 ∉ banned)

/-- `scan_array_usage`. -/
def scanArrayUsage (vc : ChcVc) (inputs : List String) : List (String × Option ConstIdx) :=
  let scans := inputs.map fun name => (name, scanArray inputs name (collectScanConstraints vc))
  LaneDependencies.propagateRequiredLanes inputs (scans.flatMap fun scan => scan.2.2)
    (scans.flatMap fun scan =>
      match scan.2.1 with
      | none => [(scan.1, none)]
      | some indices => indices.dedup.map fun idx => (scan.1, some idx))

/-- The lanes of an array with the names of their variables. -/
def scalarLanes (inputName : String) (indices : List ConstIdx) : List (ConstIdx × String) :=
  (indices.insertionSort ConstIdx.Before).map fun idx =>
    (idx, inputName ++ "_at_" ++ idx.hexLabel)

/-- `build_scalar_infos`. -/
def buildScalarInfos (arrays : List (String × SmtSort)) (inputs : List String)
    (facts : List (String × Option ConstIdx)) : List ScalarInfo :=
  inputs.filterMap fun name =>
    let indices := LaneDependencies.factLanes facts name
    if maxScalarsPerArray < indices.length ∨ (name, none) ∈ facts then none
    else do
      let (_, sort) ← arrays.reverse.find? (·.1 == name)
      let (_, elemSort) ← sort.arraySort
      pure ⟨name, outputName name, elemSort, scalarLanes name indices⟩

/-- `identify_scalarizable_arrays`. -/
def identifyScalarizableArrays (vc : ChcVc) (banned : List String) : List ScalarInfo :=
  let arrays := inputVars vc banned
  let inputs := (arrays.map Prod.fst).dedup
  buildScalarInfos arrays inputs (scanArrayUsage vc inputs)

end Scalarize

end TrustMc
