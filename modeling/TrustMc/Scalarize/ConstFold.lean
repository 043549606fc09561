import TrustMc.Scalarize.Identify

/-!
# Read-only arrays

`identifyConstFoldableArrays` finds the arrays whose reads can be replaced by constants: no
transition rule stores to them, and the entry rules say what they hold, at the indices that are
read or everywhere. Arrays that are written and never read qualify as well.
-/

namespace TrustMc

namespace Scalarize

open ConstProp DeadScalars

/-- A map from indices to terms. -/
abbrev ConstMap : Type := List (ConstIdx × Expr)

/-- `get`. -/
def ConstMap.get (m : ConstMap) (idx : ConstIdx) : Option Expr :=
  (m.find? (·.1 == idx)).map Prod.snd

/-- `insert`. -/
def ConstMap.insert (m : ConstMap) (entry : ConstIdx × Expr) : ConstMap :=
  m.filter (·.1 != entry.1) ++ [entry]

/-- `ConstFoldInfo`. -/
structure ConstFoldInfo where
  /-- The name of the array. -/
  inputName : String
  /-- Its name after the step. -/
  outputName : String
  /-- What the array holds at an index. -/
  constMap : ConstMap
  /-- What the array holds at every index. -/
  uniformDefault : Option Expr

/-! ### Initial values -/

/-- `extract_const_array_default`. -/
def extractConstArrayDefault (e : Expr) : Option Expr := constArrayDefaultForStoreChain e

/-- `try_const_array_init_pair`: the default and the stores on top of it. -/
def tryConstArrayInitPair (varSide valSide : Expr) (target : String) :
    Option (Expr × List (ConstIdx × Expr)) :=
  if asVarName varSide ≠ some target then none
  else
    match valSide with
    | .app (.constArray _) [value] => some (value, [])
    | .app .store _ => do
      let (base, stores) ← decomposeStoreChain valSide
      if base ≠ constArrayBase then none
      else (extractConstArrayDefault valSide).map (·, stores)
    | _ => none

/-- `extract_const_array_init`. -/
def extractConstArrayInit (e : Expr) (target : String) :
    Option (Expr × List (ConstIdx × Expr)) :=
  match e with
  | .app .eq [lhs, rhs] =>
    (tryConstArrayInitPair lhs rhs target).or (tryConstArrayInitPair rhs lhs target)
  | _ => none

/-- The conjuncts of constraints in the order in which a stack visits them: the last conjunct of
a constraint first. -/
def stackConjuncts (constraints : List Expr) : List Expr :=
  constraints.flatMap fun c => (flattenAnd c).reverse

/-- The conjuncts of the entry rules. -/
def entryConjuncts (vc : ChcVc) : List Expr :=
  (vc.rules.filter fun rule => rule.body.relation.isNone).flatMap fun rule =>
    stackConjuncts rule.body.constraints

/-- `extract_entry_defaults`. -/
def entryDefault (vc : ChcVc) (inputName : String) : Option Expr :=
  (entryConjuncts vc).findSome? fun node => (extractConstArrayInit node inputName).map Prod.fst

/-- `try_any_const_array_init_pair`. -/
def tryAnyConstArrayInitPair (inputs : List String) (varSide valSide : Expr) :
    Option (String × Expr) := do
  let target ← canonicalInputName inputs (← asVarName varSide)
  (extractConstArrayDefault valSide).map (target, ·)

/-- `extract_any_const_array_init`. -/
def extractAnyConstArrayInit (inputs : List String) (e : Expr) : Option (String × Expr) :=
  match e with
  | .app .eq [lhs, rhs] =>
    (tryAnyConstArrayInitPair inputs lhs rhs).or (tryAnyConstArrayInitPair inputs rhs lhs)
  | _ => none

/-- `extract_uniform_defaults`: the default of an array, if it is only ever set to one. -/
def uniformDefaultOf (vc : ChcVc) (inputs : List String) (inputName : String) : Option Expr :=
  let inits := (vc.rules.flatMap fun rule => stackConjuncts rule.body.constraints).filterMap
    (extractAnyConstArrayInit inputs)
  match (inits.filter (·.1 == inputName)).map Prod.snd with
  | [] => none
  | default :: defaults => if defaults.all (· == default) then some default else none

/-- `matches_const_array_init_with_default`. -/
def matchesConstArrayInitWithDefault (varSide valSide : Expr) (target : String)
    (expected : Expr) : Bool :=
  isVar target varSide && extractConstArrayDefault valSide == some expected

/-- `matches_uniform_default`. -/
def matchesUniformDefault (constraint : Expr) (outputName : String) (uniform : Option Expr) :
    Bool :=
  uniform.any fun expected =>
    match constraint with
    | .app .eq [lhs, rhs] =>
      matchesConstArrayInitWithDefault lhs rhs outputName expected ||
        matchesConstArrayInitWithDefault rhs lhs outputName expected
    | _ => false

/-- `try_select_const_pair`. -/
def trySelectConstPair (selectSide valueSide : Expr) (target : String) :
    Option (ConstIdx × Expr) :=
  match selectSide with
  | .app .select [array, index] =>
    if isVar target array then (tryExtractConstIdx index).map (·, valueSide) else none
  | _ => none

/-- `extract_select_eq_const`. -/
def extractSelectEqConst (e : Expr) (target : String) : Option (ConstIdx × Expr) :=
  match e with
  | .app .eq [lhs, rhs] =>
    (trySelectConstPair lhs rhs target).or (trySelectConstPair rhs lhs target)
  | _ => none

/-- `extract_entry_const_map`: what equations with reads say, or else the last equation with a
constant array and stores on it. -/
def extractEntryConstMap (vc : ChcVc) (inputName : String) (selectIndices : List ConstIdx) :
    ConstMap :=
  let conjuncts := entryConjuncts vc
  let pointwise := (conjuncts.filterMap (extractSelectEqConst · inputName)).foldl
    ConstMap.insert []
  if pointwise ≠ [] then pointwise
  else
    match (conjuncts.filterMap (extractConstArrayInit · inputName)).getLast? with
    | none => []
    | some (default, overrides) =>
      selectIndices.map fun idx => (idx, (storedValue overrides idx).getD default)

/-! ### Reads -/

mutual

/-- The reads of variables in a term (`collect_select_usage`): the constant index, or none for a
read at another index or of a term that mentions the variable. -/
def selectUses : Expr → List (String × Option ConstIdx)
  | .var _ _ => []
  | .app .select [array, index] =>
    (match array with
      | .var name _ => [(name, tryExtractConstIdx index)]
      | _ => array.varNames.map (·, none)) ++ selectUses index
  | .app _ args => selectUsesList args
  | .quant _ _ body => selectUses body

/-- The reads of variables in a list of terms. -/
def selectUsesList : List Expr → List (String × Option ConstIdx)
  | [] => []
  | e :: es => selectUses e ++ selectUsesList es

end

/-- The reads of one array. -/
def usesOf (vc : ChcVc) (name : String) : List (Option ConstIdx) :=
  ((vc.rules.flatMap fun rule => selectUsesList rule.body.constraints).filter
    (·.1 == name)).map Prod.snd

/-! ### Writes -/

/-- `live_output_array_args`. -/
def liveOutputArrayArgs (vc : ChcVc) : List String :=
  vc.rules.flatMap fun rule =>
    rule.head.args.filterMap fun arg =>
      (asVarName arg).filter fun name =>
        arg.sort.isArray && "__out".toList.isSuffixOf name.toList

/-- `is_live_cross_array_copy`. -/
def isLiveCrossArrayCopy (maybeOutput maybeInput : Expr) (input output : String)
    (liveOutputs : List String) : Bool :=
  isVar input maybeInput &&
    (asVarName maybeOutput).any fun copied => copied != output && decide (copied ∈ liveOutputs)

/-- `whole_input_escapes_to_live_output_copy`. -/
def wholeInputEscapesToLiveOutputCopy (vc : ChcVc) (input output : String) : Bool :=
  let liveOutputs := liveOutputArrayArgs vc
  (vc.rules.filter fun rule => rule.body.relation.isSome).any fun rule =>
    (flattenConjunctions rule.body.constraints).any fun conjunct =>
      match conjunct with
      | .app .eq [lhs, rhs] =>
        isLiveCrossArrayCopy lhs rhs input output liveOutputs ||
          isLiveCrossArrayCopy rhs lhs input output liveOutputs
      | _ => false

/-- A constraint of a transition rule changes the array. -/
def isNonIdentityStore (vc : ChcVc) (inputs : List String) (inputName : String)
    (constraint : Expr) : Bool :=
  let uniform := uniformDefaultOf vc inputs inputName
  exprMentionsVar constraint (outputName inputName) &&
    match classifyConstraintForArray inputs constraint (outputName inputName) with
    | .storeChain _ stores =>
      match (entryDefault vc inputName).or uniform with
      | some default => !stores.all (·.2 == default)
      | none => true
    | .constArrayInit => !matchesUniformDefault constraint (outputName inputName) uniform
    | .explicitIdentity base => base != inputName
    | .notRelated => false
    | .unrecognized => true

/-- Some transition rule changes the array. -/
def hasNonIdentityStore (vc : ChcVc) (inputs : List String) (inputName : String) : Bool :=
  (vc.rules.filter fun rule => rule.body.relation.isSome).any fun rule =>
    rule.body.constraints.any (isNonIdentityStore vc inputs inputName)

/-! ### The arrays -/

/-- One array of `identify_const_foldable_arrays`. -/
def constFoldInfo (vc : ChcVc) (inputs : List String) (inputName : String) :
    Option ConstFoldInfo :=
  let uses := usesOf vc inputName
  let uniform := uniformDefaultOf vc inputs inputName
  if wholeInputEscapesToLiveOutputCopy vc inputName (outputName inputName) then none
  else if none ∈ uses ∧ uniform = none then none
  else if hasNonIdentityStore vc inputs inputName then
    if uses = [] then some ⟨inputName, outputName inputName, [], none⟩ else none
  else
    let selectIndices := (uses.filterMap id).dedup.insertionSort ConstIdx.Before
    let constMap := extractEntryConstMap vc inputName selectIndices
    if constMap = [] ∧ uniform = none ∧ selectIndices ≠ [] then none
    else some ⟨inputName, outputName inputName, constMap, uniform⟩

/-- `identify_const_foldable_arrays`. -/
def identifyConstFoldableArrays (vc : ChcVc) : List ConstFoldInfo :=
  let inputs := ((inputVars vc []).map Prod.fst).dedup
  inputs.filterMap (constFoldInfo vc inputs)

end Scalarize

end TrustMc
