import Mathlib.Data.List.AList
import TrustMc.Core.Vc

/-!
# State variables added while rules are being emitted

The relations of a verification condition are declared before the blocks of the program
are encoded: each block's relation takes the block's live state variables, in the order of
its live list. Encoding a block can still discover state (a memory array, a collection's
auxiliary variable, a local that a summary updates behind a reference), and then four
structures have to grow together: the live lists, the relation declarations, and the
relation applications in the heads and in the bodies of the rules emitted so far.

* `ChcCtx`: the part of the encoder's context these operations read and write.
* `pushLateStateVarPair`, `pushLateCollectionAuxVar`, `ensureLocalLiveAtBlock`: the late
  additions.
* `LateAddition.apply`: one late addition, `none` where an assertion of the source fails.
* `refreshBlockRelationApp`, `projectFullOutputToBlock`: the applications of a rule that is
  emitted after late additions.
-/

namespace TrustMc.LateState

/-- `StateVarManager`: the state variables and their places. -/
structure StateVarManager where
  /-- The input variables. -/
  stateVars : List (String × SmtSort)
  /-- The output variables. -/
  outputStateVars : List (String × SmtSort)
  /-- The first state index of each local. -/
  localToStateIdx : AList fun _ : ℕ => ℕ
  /-- The state index of each input name. -/
  stateVarNameIndex : AList fun _ : String => ℕ
  /-- The live state indices at the entry of each block. -/
  liveStateIndices : List (List ℕ)

/-- The part of `ChcCtx` that late additions read and write. -/
structure ChcCtx where
  /-- The state variables. -/
  stateVarMgr : StateVarManager
  /-- The locals that take several consecutive state variables. -/
  flattenedTupleLocals : List ℕ
  /-- The number of state variables of such a local. -/
  flattenedLocalFieldCount : AList fun _ : ℕ => ℕ
  /-- The relation of each block that has one. -/
  blockRelations : AList fun _ : ℕ => String
  /-- The block of each relation name. -/
  relNameToBb : AList fun _ : String => ℕ
  /-- The state indices modified in the block that is being encoded. -/
  modifiedStateIndices : List ℕ
  /-- Width and signedness of the variables lifted to integers. -/
  intLiftedVars : AList fun _ : ℕ => ℕ × Bool
  /-- The block, other than the last of its fragment, that is being composed. -/
  fragmentMidOutputBb : Option ℕ
  /-- Variables still to be declared. -/
  pendingVarDecls : List (String × SmtSort)
  /-- The verification condition under construction. -/
  vc : ChcVc

/-! ### State variable pairs -/

/-- `push_state_var_pair_arc`: a name is registered once; `none` where the assertion on the
sort of a name that is known fails. -/
def StateVarManager.pushStateVarPairArc (m : StateVarManager) (inName outName : String)
    (sort : SmtSort) : Option StateVarManager :=
  match m.stateVarNameIndex.lookup inName with
  | some existing =>
    if m.stateVars[existing]?.map Prod.snd = some sort then some m else none
  | none => some
    { m with
      stateVars := m.stateVars ++ [(inName, sort)]
      stateVarNameIndex := m.stateVarNameIndex.insert inName m.stateVars.length
      outputStateVars := m.outputStateVars ++ [(outName, sort)] }

/-- `try_state_idx_for_local`. -/
def ChcCtx.tryStateIdxForLocal (s : ChcCtx) (localIdx : ℕ) : Option ℕ :=
  s.stateVarMgr.localToStateIdx.lookup localIdx

/-- `flattened_field_count`. -/
def ChcCtx.flattenedFieldCount (s : ChcCtx) (localIdx : ℕ) : ℕ :=
  (s.flattenedLocalFieldCount.lookup localIdx).getD 2

/-- `push_pending_var_decl`. -/
def ChcCtx.pushPendingVarDecl (s : ChcCtx) (name : String) (sort : SmtSort) : ChcCtx :=
  { s with pendingVarDecls := s.pendingVarDecls ++ [(name, sort)] }

/-! ### One more column in every block relation -/

/-- The names of the block relations. -/
def ChcCtx.blockRelNames (s : ChcCtx) : List String := s.blockRelations.entries.map Sigma.snd

/-- An application of one of the relations gets one more argument. -/
def appendArg (names : List String) (arg : Expr) (app : RelationApp) : RelationApp :=
  if app.name ∈ names then { app with args := app.args ++ [arg] } else app

/-- A declaration of one of the relations gets one more sort. -/
def appendSort (names : List String) (sort : SmtSort) (d : RelationDecl) : RelationDecl :=
  if d.name ∈ names then { d with argSorts := d.argSorts ++ [sort] } else d

/-- A rule hands the argument on in its head and takes it in its body. -/
def passThrough (names : List String) (arg : Expr) (r : Rule) : Rule where
  body := { r.body with relation := r.body.relation.map (appendArg names arg) }
  head := appendArg names arg r.head

/-- The loops over the declarations and the emitted rules, the same in
`extend_block_relations_for_late_state_var` and in `ensure_local_live_at_block`. -/
def ChcCtx.appendColumn (s : ChcCtx) (inName : String) (sort : SmtSort) : ChcCtx :=
  { s with
    vc := { s.vc with
      relations := s.vc.relations.map (appendSort s.blockRelNames sort)
      rules := s.vc.rules.map (passThrough s.blockRelNames (.var inName sort)) } }

/-- The live lists of every block, changed alike. -/
def ChcCtx.mapLive (s : ChcCtx) (f : List ℕ → List ℕ) : ChcCtx :=
  { s with
    stateVarMgr := { s.stateVarMgr with
      liveStateIndices := s.stateVarMgr.liveStateIndices.map f } }

/-- `extend_block_relations_for_late_state_var`. -/
def ChcCtx.extendBlockRelationsForLateStateVar (s : ChcCtx) (inName : String) : Option ChcCtx :=
  let newIdx := s.stateVarMgr.stateVars.length - 1
  s.stateVarMgr.stateVars[newIdx]?.map fun v =>
    (s.mapLive fun live => live ++ [newIdx]).appendColumn inName v.2

/-! ### Late additions -/

/-- The output name of a late pair: inside a fragment, the name of the block's own copy. -/
def ChcCtx.lateOutName (s : ChcCtx) (inName outName : String) : String :=
  match s.fragmentMidOutputBb with
  | some bb => inName ++ "__mid_bb" ++ toString bb
  | none => outName

/-- `push_late_state_var_pair`. -/
def ChcCtx.pushLateStateVarPair (s : ChcCtx) (inName outName : String) (sort : SmtSort) :
    Option ChcCtx := do
  let late := s.lateOutName inName outName
  let s := (s.pushPendingVarDecl inName sort).pushPendingVarDecl late sort
  let m ← s.stateVarMgr.pushStateVarPairArc inName late sort
  let pushed : ChcCtx := { s with stateVarMgr := m }
  if s.stateVarMgr.stateVars.length < m.stateVars.length then
    let v ← m.stateVars[m.stateVars.length - 1]?
    pushed.extendBlockRelationsForLateStateVar v.1
  else
    return pushed

/-- `push_late_collection_aux_var`. -/
def ChcCtx.pushLateCollectionAuxVar (s : ChcCtx) (inName outName : String) (sort : SmtSort) :
    Option ChcCtx :=
  if (s.stateVarMgr.stateVarNameIndex.lookup inName).isSome then
    some s
  else do
    let s := (s.pushPendingVarDecl inName sort).pushPendingVarDecl outName sort
    let m ← s.stateVarMgr.pushStateVarPairArc inName outName sort
    let v ← m.stateVars.getLast?
    ChcCtx.extendBlockRelationsForLateStateVar { s with stateVarMgr := m } v.1

/-- One turn of the loop of `ensure_local_live_at_block`. The live lists are guarded one by
one, the declarations and the rules are not. -/
def ChcCtx.ensureSlotLive (s : ChcCtx) (idx : ℕ) : ChcCtx :=
  if ∀ live ∈ s.stateVarMgr.liveStateIndices, idx ∈ live then
    s
  else
    match s.stateVarMgr.stateVars[idx]? with
    | some (inName, sort) =>
      (s.mapLive fun live => if idx ∈ live then live else live ++ [idx]).appendColumn inName sort
    | none => s

/-- The loop of `ensure_local_live_at_block` over `n` consecutive state indices. -/
def ChcCtx.ensureSlotsLive (s : ChcCtx) (idx : ℕ) : ℕ → ChcCtx
  | 0 => s
  | n + 1 =>
    if s.stateVarMgr.stateVars.length ≤ idx then
      s
    else
      (s.ensureSlotLive idx).ensureSlotsLive (idx + 1) n

/-- The number of state variables of a local. -/
def ChcCtx.slotCount (s : ChcCtx) (localIdx : ℕ) : ℕ :=
  if localIdx ∈ s.flattenedTupleLocals then s.flattenedFieldCount localIdx else 1

/-- `ensure_local_live_at_block`. The block is not read. -/
def ChcCtx.ensureLocalLiveAtBlock (s : ChcCtx) (localIdx _bb : ℕ) : ChcCtx :=
  match s.tryStateIdxForLocal localIdx with
  | none => s
  | some base => s.ensureSlotsLive base (s.slotCount localIdx)

/-- The calls that add state late. -/
inductive LateAddition
  | stateVarPair (inName outName : String) (sort : SmtSort)
  | collectionAux (inName outName : String) (sort : SmtSort)
  | ensureLocalLive (localIdx bb : ℕ)

/-- One late addition. -/
def LateAddition.apply (s : ChcCtx) : LateAddition → Option ChcCtx
  | stateVarPair inName outName sort => s.pushLateStateVarPair inName outName sort
  | collectionAux inName outName sort => s.pushLateCollectionAuxVar inName outName sort
  | ensureLocalLive localIdx bb => some (s.ensureLocalLiveAtBlock localIdx bb)

/-! ### Applications emitted after late additions -/

/-- The input variable of a state index. -/
def ChcCtx.inputVar (s : ChcCtx) (idx : ℕ) : Option Expr :=
  s.stateVarMgr.stateVars[idx]?.map fun v => .var v.1 v.2

/-- The output variable of a state index. -/
def ChcCtx.outputVar (s : ChcCtx) (idx : ℕ) : Option Expr :=
  s.stateVarMgr.outputStateVars[idx]?.map fun v => .var v.1 v.2

/-- `project_state_args`. -/
def ChcCtx.projectStateArgs (s : ChcCtx) (bb : ℕ) : Option (List Expr) := do
  (← s.stateVarMgr.liveStateIndices[bb]?).mapM s.inputVar

/-- `refresh_block_relation_app`. -/
def ChcCtx.refreshBlockRelationApp (s : ChcCtx) (app : RelationApp) : Option RelationApp :=
  match s.relNameToBb.lookup app.name with
  | none => some app
  | some bb => do
    let live ← s.stateVarMgr.liveStateIndices[bb]?
    if live.length ≤ app.args.length then
      return app
    else
      return { app with args := app.args ++ (← (live.drop app.args.length).mapM s.inputVar) }

/-- The argument that `refresh_full_output_args` adds for a state index. -/
def ChcCtx.refreshedArg (s : ChcCtx) (idx : ℕ) : Option Expr :=
  if idx ∈ s.modifiedStateIndices then (s.outputVar idx).or (s.inputVar idx) else s.inputVar idx

/-- `refresh_full_output_args`; `none` where its assertion fails. -/
def ChcCtx.refreshFullOutputArgs (s : ChcCtx) (outputArgs : List Expr) : Option (List Expr) :=
  let len := s.stateVarMgr.stateVars.length
  if outputArgs.length = len then
    some outputArgs
  else if outputArgs.length < len then do
    let added ← ((List.range len).drop outputArgs.length).mapM s.refreshedArg
    return outputArgs ++ added
  else
    none

/-- The coercion of `project_full_output_to_block`: a bit-vector in an integer column. -/
def ChcCtx.coerceColumn (s : ChcCtx) (idx : ℕ) (target : SmtSort) (arg : Expr) : Expr :=
  if target.isInt ∧ arg.sort.isBitvec then
    if ((s.intLiftedVars.lookup idx).map Prod.snd).getD false then
      .app (.foreign "bv2int_signed" .int) [arg]
    else
      .app .bv2Int [arg]
  else
    arg

/-- `project_full_output_to_block`. -/
def ChcCtx.projectFullOutputToBlock (s : ChcCtx) (toBb : ℕ) (outputArgs : List Expr) :
    Option (List Expr) := do
  let refreshed ← s.refreshFullOutputArgs outputArgs
  (← s.stateVarMgr.liveStateIndices[toBb]?).mapM fun idx => do
    let arg ← refreshed[idx]?
    let v ← s.stateVarMgr.stateVars[idx]?
    return s.coerceColumn idx v.2 arg

end TrustMc.LateState
