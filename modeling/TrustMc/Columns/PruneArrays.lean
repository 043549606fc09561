import TrustMc.Columns.Embedded
import TrustMc.Flow.Liveness
import TrustMc.Fragments.Compose
import TrustMc.Mir.OnlyFail

/-!
# Dead state variables

The model of `prune_arrays.rs`, which drops columns of block relations once the rules are there.
Dropped from every relation are the arrays that no block reads, or that only blocks read which
cannot reach `Return`, the metadata and flat-memory arrays that no transition uses, the columns of
locals that occur only in such blocks, and the vtable columns that no dispatch is reached from.
Of the arrays that are left, a block keeps those that a path from it leads to a use of: these are
found by propagating the uses backwards with a worklist. Metadata and vtables stay everywhere.

A map is the list of its entries. What the pass asks about operands and statements is
`LocalFacts`.

* `strip_maskedColumns`: what a mask keeps is what is left without the columns that it drops.
* `pruneRule_eq`: heads, bodies and the applications inside constraints lose the same columns.
-/

namespace TrustMc

namespace PruneArrays

open Fragments (ChcTrackLevel)
open LoopUnroll (Mir TerminatorKind predecessorsOf)
open Mir Relations

/-! ### Names -/

/-- `is_heap_metadata_var`. -/
def isHeapMetadataVar (name : String) : Bool :=
  name == "obj_valid" || name == "obj_size" || "obj_valid__".toList.isPrefixOf name.toList ||
    "obj_size__".toList.isPrefixOf name.toList

/-- `expr_mentions_heap_metadata`. -/
def exprMentionsHeapMetadata (e : Expr) : Bool := e.varNames.any isHeapMetadataVar

/-- `is_flat_mem_var`. -/
def isFlatMemVar (name : String) : Bool := name == "mem" || name == "mem__out"

/-- `expr_mentions_flat_mem`. -/
def exprMentionsFlatMem (e : Expr) : Bool := e.varNames.any isFlatMemVar

/-- The flat memory, the metadata, and what stands between the blocks of a fragment. -/
def inFamily (name : String) : Bool :=
  isFlatMemVar name || isHeapMetadataVar name || decide ("__mid_bb".toList <:+: name.toList)

/-- `is_pure_array_identity_copy`. -/
def isPureArrayIdentityCopy : Expr → Bool
  | .app .eq [.var a s, .var b s'] => s.isArray && s'.isArray && inFamily a && inFamily b
  | _ => false

/-! ### The context -/

/-- What the collection of locals asks about MIR data. -/
structure LocalFacts (M : Mir) where
  operandLocal : M.Operand → Option ℕ
  placeLocal : M.Place → ℕ
  /-- The locals on both sides of an assignment; other statements have none. -/
  assignedLocals : M.Statement → List ℕ

/-- What the pass reads. -/
structure ChcCtx (M : Mir) where
  body : Blocks M
  /-- The statements of each block. -/
  statements : List (List M.Statement)
  /-- The number of arguments. -/
  argCount : ℕ
  facts : LocalFacts M
  trackLevel : ChcTrackLevel
  /-- The names of the state variables, which are added once each. -/
  stateVars : List String
  stateVars_nodup : stateVars.Nodup
  /-- The state variables that a block's relation has as columns. -/
  liveStateIndices : List (List ℕ)
  length_live : liveStateIndices.length = body.size
  /-- The relation of a block. -/
  blockRelations : List (ℕ × String)
  blocks_nodup : (blockRelations.map Prod.fst).Nodup
  names_nodup : (blockRelations.map Prod.snd).Nodup
  /-- The state variables of `type_arrays`. -/
  typeArrays : List String
  /-- The state variables of `region_arrays`. -/
  regionArrays : List String
  /-- The blocks in which an array is read. -/
  readUsed : List (String × List ℕ)
  readUsed_nodup : (readUsed.map Prod.fst).Nodup
  /-- The blocks in which an array is written. -/
  writeUsed : List (String × List ℕ)
  metadataAccessedBlocks : List ℕ
  localToStateIdx : List (ℕ × ℕ)
  flattenedTupleLocals : List ℕ
  flattenedFieldCount : ℕ → ℕ
  refArgPointeeIdx : List (ℕ × ℕ)
  staticRefToStateIdx : List (ℕ × ℕ)
  lenVarNames : List (ℕ × String)
  capVarNames : List (ℕ × String)
  /-- The input variable of a local's vtable. -/
  vtableStateVars : List (ℕ × String)
  /-- From a local to the one its vtable is copied from. -/
  vtablePropagationEdges : List (ℕ × ℕ)
  vc : ChcVc
  /-- Block relations are declared. -/
  declared : ∀ p ∈ blockRelations, p.2 ∈ vc.relations.map (·.name)

namespace ChcCtx

variable {M : Mir} (ctx : ChcCtx M)

/-- `state_var_index_by_name`. -/
def stateVarIndexByName (name : String) : Option ℕ := ctx.stateVars.findIdx? (· == name)

/-- `type_array_names`. -/
def typeArrayNames : List String := ctx.typeArrays ++ ctx.regionArrays

def returnReachable : ℕ → Bool := computeReturnReachableBlocks ctx.body

/-! ### Columns that go everywhere -/

/-- Arrays that are never read. -/
def neverRead : List ℕ :=
  (List.range ctx.stateVars.length).filter fun idx =>
    (ctx.stateVars[idx]?).any fun name =>
      decide (name ∈ ctx.typeArrayNames) && (ctx.readUsed.lookup name).isNone

/-- Arrays that only blocks read which cannot reach `Return`. -/
def errorPathOnly : List ℕ :=
  ctx.readUsed.filterMap fun (name, blocks) =>
    if blocks.all fun bb => !ctx.returnReachable bb then ctx.stateVarIndexByName name else none

/-- `metadata_rule_blocks`. -/
def metadataRuleBlocks : List ℕ :=
  ctx.vc.rules.filterMap fun rule =>
    rule.body.relation.bind fun bodyRel =>
      if rule.body.constraints.any exprMentionsHeapMetadata then
        (ctx.blockRelations.find? (·.2 == bodyRel.name)).map Prod.fst
      else none

/-- A transition has a constraint that mentions such a variable and is more than a copy. -/
def usedInTransitions (mentions : Expr → Bool) : Bool :=
  ctx.vc.rules.any fun rule =>
    rule.body.relation.isSome &&
      rule.body.constraints.any fun c => !isPureArrayIdentityCopy c && mentions c

/-- `flat_mem_used_in_transitions`. -/
def flatMemUsedInTransitions : Bool := ctx.usedInTransitions exprMentionsFlatMem

/-- `metadata_used_in_any_rule`. -/
def metadataUsedInAnyRule : Bool := ctx.usedInTransitions exprMentionsHeapMetadata

/-- The indices of the metadata arrays. -/
def metadataColumns : List ℕ := ["obj_valid", "obj_size"].filterMap ctx.stateVarIndexByName

/-- The metadata arrays that go. -/
def deadMetadata : List ℕ :=
  if ctx.metadataAccessedBlocks.isEmpty && ctx.metadataRuleBlocks.isEmpty &&
      !ctx.metadataUsedInAnyRule &&
      (ctx.trackLevel != .mem || !ctx.flatMemUsedInTransitions) then ctx.metadataColumns
  else []

/-- The flat memory that goes. -/
def deadFlatMem : List ℕ :=
  if !ctx.flatMemUsedInTransitions && ctx.trackLevel == .mem then
    (ctx.stateVarIndexByName "mem").toList
  else []

/-- `state_idx_to_local`, in the order in which its entries are inserted. -/
def stateIdxToLocalEntries : List (ℕ × ℕ) :=
  let named := fun (p : ℕ × String) => (ctx.stateVarIndexByName p.2).map (·, p.1)
  (ctx.localToStateIdx.flatMap fun (l, idx) =>
      (idx, l) :: if l ∈ ctx.flattenedTupleLocals then
        (List.range' 1 (ctx.flattenedFieldCount l - 1)).map fun i => (idx + i, l) else []) ++
    (ctx.refArgPointeeIdx ++ ctx.staticRefToStateIdx).map Prod.swap ++
    (ctx.lenVarNames ++ ctx.capVarNames).filterMap named

/-- A later entry replaces an earlier one. -/
def stateIdxToLocal (idx : ℕ) : Option ℕ := ctx.stateIdxToLocalEntries.reverse.lookup idx

/-- The locals of a terminator. -/
def terminatorLocals : TerminatorKind M → List ℕ
  | .call func args destination _ _ =>
    ctx.facts.placeLocal destination ::
      ((ctx.facts.operandLocal func).toList ++ args.filterMap ctx.facts.operandLocal)
  | .switchInt discr _ _ => (ctx.facts.operandLocal discr).toList
  | .drop place _ _ => [ctx.facts.placeLocal place]
  | .assert cond _ _ _ _ => (ctx.facts.operandLocal cond).toList
  | .return => [0]
  | _ => []

/-- `compute_locals_in_normal_blocks`. -/
def liveLocals : List ℕ :=
  List.range (ctx.argCount + 1) ++
    ((ctx.body.blocks.zipIdx).filter fun p => ctx.returnReachable p.2).flatMap fun (kind, bb) =>
      (ctx.statements.getD bb []).flatMap ctx.facts.assignedLocals ++ ctx.terminatorLocals kind

/-- The columns of locals that occur in other blocks only. -/
def deadScalars : List ℕ :=
  (List.range ctx.stateVars.length).filter fun idx =>
    (ctx.stateIdxToLocal idx).any fun l => decide (l ∉ ctx.liveLocals)

/-- `prunable`, before the vtables. -/
def prunableArraysAndScalars : List ℕ :=
  ctx.neverRead ++ ctx.errorPathOnly ++ ctx.deadMetadata ++ ctx.deadFlatMem ++ ctx.deadScalars

/-- The locals whose vtables are copied nowhere. -/
def leafVtableLocals : List ℕ :=
  (ctx.vtableStateVars.map Prod.fst).filter fun l =>
    decide (l ∉ ctx.vtablePropagationEdges.map Prod.snd)

/-- `reachable_vtable_locals`: what the leaves are copied from. -/
def reachableVtableLocals : ℕ → Bool :=
  let locals := ctx.vtableStateVars.map Prod.fst ++ ctx.vtablePropagationEdges.map Prod.snd
  markFrom (fun l => (ctx.vtablePropagationEdges.lookup l).toList) (locals.foldr max 0 + 1)
    ctx.leafVtableLocals

/-- `vtable_sv_indices`. -/
def vtableSvIndices : List ℕ :=
  ((ctx.vtableStateVars.filter fun p => ctx.reachableVtableLocals p.1).filterMap fun p =>
    ctx.stateVarIndexByName p.2).filter fun idx => decide (idx ∉ ctx.prunableArraysAndScalars)

/-- The vtable columns that go. -/
def deadVtables : List ℕ :=
  (ctx.vtableStateVars.filter fun p => !ctx.reachableVtableLocals p.1).filterMap fun p =>
    ctx.stateVarIndexByName p.2

/-- `prunable`. -/
def prunable : List ℕ := ctx.prunableArraysAndScalars ++ ctx.deadVtables

/-! ### Columns that go from some blocks -/

/-- `metadata_indices`. -/
def metadataIndices : List ℕ :=
  ctx.metadataColumns.filter fun idx => decide (idx ∉ ctx.prunableArraysAndScalars)

/-- The keys of `state_idx_to_type_arr`. -/
def stateIdxToTypeArr : List ℕ :=
  (((ctx.typeArrayNames.filterMap ctx.stateVarIndexByName).filter fun idx =>
    decide (idx ∉ ctx.prunableArraysAndScalars)) ++ ctx.metadataIndices).dedup

/-- The array is recorded for the block. -/
def recorded (uses : List (String × List ℕ)) (idx bb : ℕ) : Bool :=
  ((ctx.stateVars[idx]?).bind fun name => uses.lookup name).any fun blocks => decide (bb ∈ blocks)

/-- `block_count`. -/
def blockCount : ℕ := ctx.liveStateIndices.length

/-- What `ta_live` starts with. -/
def seeds (bb : ℕ) : List ℕ :=
  (ctx.stateIdxToTypeArr.filter fun idx =>
      ctx.recorded ctx.readUsed idx bb || ctx.recorded ctx.writeUsed idx bb) ++
    ctx.metadataIndices ++ ctx.vtableSvIndices

def successors : List (List ℕ) := ctx.body.blocks.map blockSuccessors

/-- The successors that the loop does not skip. -/
def succs (bb : ℕ) : List ℕ :=
  (ctx.successors.getD bb []).filter fun succ => decide (succ < ctx.blockCount)

def preds (bb : ℕ) : List ℕ := predecessorsOf ctx.successors bb

/-- `max_preds`. -/
def maxPreds : ℕ :=
  ((List.range ctx.blockCount).map fun bb => (ctx.preds bb).length).foldr max 0

/-- `max_iters`. -/
def maxIters : ℕ :=
  ctx.blockCount * ctx.stateIdxToTypeArr.length * (ctx.maxPreds + 1) + ctx.blockCount

/-- `ta_live`. Past the bound, all arrays are added everywhere to what has been found by then. -/
def taLive (bb : ℕ) : List ℕ :=
  match Flow.propagate ctx.succs ctx.preds ctx.maxIters ctx.seeds (List.range ctx.blockCount) with
  | some live => live bb
  | none => ctx.seeds bb ++ ctx.stateIdxToTypeArr

/-- `per_block_prunable`. -/
def perBlockPrunable (bb : ℕ) : List ℕ :=
  if ctx.stateIdxToTypeArr.isEmpty || decide (ctx.blockCount = 0) then []
  else ctx.stateIdxToTypeArr.filter fun idx => decide (idx ∉ ctx.taLive bb)

/-! ### Masks -/

/-- The mask of a block. -/
def keepMask (bb : ℕ) : List Bool :=
  (ctx.liveStateIndices.getD bb []).map fun idx =>
    decide (idx ∉ ctx.prunable) && decide (idx ∉ ctx.perBlockPrunable bb)

/-- `relation_keep`. -/
def relationKeep (name : String) : Option (List Bool) :=
  (ctx.blockRelations.find? fun p => p.2 == name && decide (p.1 < ctx.blockCount)).map fun p =>
    ctx.keepMask p.1

end ChcCtx

/-- What a mask keeps; what is past its end stays. -/
def keepArgs {α : Type} (keep : List Bool) (xs : List α) : List α :=
  (xs.zipIdx.filter fun p => keep.getD p.2 true).map Prod.fst

section Rewrite

variable (keepMap : String → Option (List Bool))

/-- `prune_relation_app`. -/
def pruneRelationApp (app : RelationApp) : RelationApp :=
  match keepMap app.name with
  | none => app
  | some keep => ⟨app.name, keepArgs keep app.args⟩

/-- One relation declaration. -/
def pruneRelationDecl (rel : RelationDecl) : RelationDecl :=
  match keepMap rel.name with
  | none => rel
  | some keep => ⟨rel.name, keepArgs keep rel.argSorts⟩

/-- `expr_mentions_prunable_relation_app`. -/
def exprMentionsPrunableRelationApp (e : Expr) : Bool :=
  (funcApps e).any fun app => (keepMap app.1).isSome

mutual

/-- `prune_relation_apps_in_expr`: arguments first, with the flag `any_pruned`. -/
def pruneRelationAppsInExpr : Expr → Expr × Bool
  | .var n s => (.var n s, false)
  | .app op args =>
    let (args, pruned) := pruneRelationAppsInExprs args
    match op with
    | .funcApp name s =>
      match keepMap name with
      | none => (.app (.funcApp name s) args, pruned)
      | some keep =>
        let newArgs := keepArgs keep args
        (.app (.funcApp name s) newArgs, pruned || decide (newArgs.length ≠ args.length))
    | op => (.app op args, pruned)
  | .quant q vs b =>
    let (b, pruned) := pruneRelationAppsInExpr b
    (.quant q vs b, pruned)

/-- A list of terms. -/
def pruneRelationAppsInExprs : List Expr → List Expr × Bool
  | [] => ([], false)
  | e :: es =>
    let (e, pruned) := pruneRelationAppsInExpr e
    let (es, pruned') := pruneRelationAppsInExprs es
    (e :: es, pruned || pruned')

end

/-- The constraints of a rule: they are kept where nothing in them is pruned. -/
def pruneConstraints (constraints : List Expr) : List Expr :=
  if constraints.any (exprMentionsPrunableRelationApp keepMap) then
    let (rewritten, pruned) := pruneRelationAppsInExprs keepMap constraints
    if pruned then rewritten else constraints
  else constraints

/-- One rule. -/
def pruneRule (rule : Rule) : Rule where
  body := ⟨rule.body.relation.map (pruneRelationApp keepMap),
    pruneConstraints keepMap rule.body.constraints⟩
  head := pruneRelationApp keepMap rule.head

end Rewrite

/-- `prune_vc_unused_type_arrays`. -/
def ChcCtx.pruneVcUnusedTypeArrays {M : Mir} (ctx : ChcCtx M) : ChcVc :=
  if ctx.prunable.isEmpty &&
      (List.range ctx.blockCount).all fun bb => (ctx.perBlockPrunable bb).isEmpty then ctx.vc
  else
    { ctx.vc with
      relations := ctx.vc.relations.map (pruneRelationDecl ctx.relationKeep)
      rules := ctx.vc.rules.map (pruneRule ctx.relationKeep) }

/-! ### The columns that go -/

theorem keepArgs_eq_self {α : Type} {keep : List Bool} (h : ∀ b ∈ keep, b = true) (xs : List α) :
    keepArgs keep xs = xs := by
  have hall : ∀ p ∈ xs.zipIdx, keep.getD p.2 true = true := fun p _ => by
    rw [List.getD_eq_getElem?_getD]
    cases hp : keep[p.2]? with
    | none => rfl
    | some b => exact h b (List.mem_of_getElem? hp)
  rw [keepArgs, List.filter_eq_self.2 hall, List.zipIdx_map_fst]

/-- The columns that the masks drop. -/
def maskedColumns (keepMap : String → Option (List Bool)) : Columns := fun name arity =>
  (keepMap name).map fun keep => (List.range arity).map fun i => !keep.getD i true

section Masked

variable {keepMap : String → Option (List Bool)}

/-- What a mask keeps is what is left without the columns. -/
theorem dropFlagged_range {α : Type} (keep : List Bool) (xs : List α) (start : ℕ) :
    dropFlagged ((List.range' start xs.length).map fun i => !keep.getD i true) xs =
      ((xs.zipIdx start).filter fun p => keep.getD p.2 true).map Prod.fst := by
  induction xs generalizing start with
  | nil => rfl
  | cons x xs ih =>
    rw [List.length_cons, List.range'_succ, List.map_cons, dropFlagged_cons, List.zipIdx_cons,
      List.filter_cons, ih]
    cases keep.getD start true <;> rfl

theorem strip_maskedColumns {α : Type} (name : String) (xs : List α) :
    (maskedColumns keepMap).strip name xs =
      match keepMap name with
      | none => xs
      | some keep => keepArgs keep xs := by
  rw [Columns.strip, maskedColumns]
  cases keepMap name with
  | none => rfl
  | some keep =>
    rw [Option.map_some, List.range_eq_range']
    exact dropFlagged_range keep xs 0

theorem pruneRelationApp_eq (app : RelationApp) :
    pruneRelationApp keepMap app = (maskedColumns keepMap).stripApp app := by
  rw [pruneRelationApp, Columns.stripApp, strip_maskedColumns]
  cases keepMap app.name <;> rfl

theorem pruneRelationDecl_eq (rel : RelationDecl) :
    pruneRelationDecl keepMap rel = (maskedColumns keepMap).stripDecl rel := by
  rw [pruneRelationDecl, Columns.stripDecl, strip_maskedColumns]
  cases keepMap rel.name <;> rfl

theorem length_keepArgs_eq {α : Type} {keep : List Bool} {xs : List α}
    (h : (keepArgs keep xs).length = xs.length) : keepArgs keep xs = xs := by
  have hle : (xs.zipIdx.filter fun p => keep.getD p.2 true).length = xs.zipIdx.length := by
    rw [keepArgs, List.length_map] at h
    rw [h, List.length_zipIdx]
  rw [keepArgs, List.filter_eq_self.2 (List.length_filter_eq_length_iff.1 hle),
    List.zipIdx_map_fst]

theorem pruneRelationAppsInExpr_none {name : String} {s : SmtSort} {args : List Expr}
    (h : keepMap name = none) :
    pruneRelationAppsInExpr keepMap (.app (.funcApp name s) args) =
      (.app (.funcApp name s) (pruneRelationAppsInExprs keepMap args).1,
        (pruneRelationAppsInExprs keepMap args).2) := by
  rw [pruneRelationAppsInExpr.eq_def]
  dsimp only
  rw [h]

theorem pruneRelationAppsInExpr_some {name : String} {s : SmtSort} {args : List Expr}
    {keep : List Bool} (h : keepMap name = some keep) :
    pruneRelationAppsInExpr keepMap (.app (.funcApp name s) args) =
      (.app (.funcApp name s) (keepArgs keep (pruneRelationAppsInExprs keepMap args).1),
        (pruneRelationAppsInExprs keepMap args).2 ||
          decide ((keepArgs keep (pruneRelationAppsInExprs keepMap args).1).length ≠
            (pruneRelationAppsInExprs keepMap args).1.length)) := by
  rw [pruneRelationAppsInExpr.eq_def]
  dsimp only
  rw [h]

mutual

/-- The rewritten term has lost the columns, and is the same if nothing was pruned. -/
theorem pruneRelationAppsInExpr_spec : ∀ e : Expr,
    (pruneRelationAppsInExpr keepMap e).1 = (maskedColumns keepMap).stripTerm e ∧
      ((pruneRelationAppsInExpr keepMap e).2 = false → (maskedColumns keepMap).stripTerm e = e)
  | .var n s => by simp [pruneRelationAppsInExpr]
  | .app op args => by
    obtain ⟨hargs, hsame⟩ := pruneRelationAppsInExprs_spec args
    by_cases hop : ∃ name s, op = .funcApp name s
    · obtain ⟨name, s, rfl⟩ := hop
      rw [Columns.stripTerm_funcApp, strip_maskedColumns, ← hargs]
      cases hkeep : keepMap name with
      | none =>
        rw [pruneRelationAppsInExpr_none hkeep]
        exact ⟨rfl, fun hp => by rw [hargs, hsame hp]⟩
      | some keep =>
        rw [pruneRelationAppsInExpr_some hkeep]
        refine ⟨rfl, fun hp => ?_⟩
        obtain ⟨hp, hlen⟩ := Bool.or_eq_false_iff.1 hp
        dsimp only
        rw [length_keepArgs_eq (by simpa using hlen), hargs, hsame hp]
    · have hne : ∀ name s, op ≠ .funcApp name s := fun name s h => hop ⟨name, s, h⟩
      rw [Columns.stripTerm_app hne, ← hargs, pruneRelationAppsInExpr.eq_def]
      cases op
      case funcApp name s => exact absurd rfl (hne name s)
      all_goals exact ⟨rfl, fun hp => by rw [hargs, hsame hp]⟩
  | .quant q vs b => by
    obtain ⟨hb, hsame⟩ := pruneRelationAppsInExpr_spec b
    rw [pruneRelationAppsInExpr, Columns.stripTerm_quant, ← hb]
    exact ⟨rfl, fun hp => by rw [hb, hsame hp]⟩

/-- The same of a list of terms. -/
theorem pruneRelationAppsInExprs_spec : ∀ es : List Expr,
    (pruneRelationAppsInExprs keepMap es).1 = es.map (maskedColumns keepMap).stripTerm ∧
      ((pruneRelationAppsInExprs keepMap es).2 = false →
        es.map (maskedColumns keepMap).stripTerm = es)
  | [] => ⟨rfl, fun _ => rfl⟩
  | e :: es => by
    obtain ⟨he, hsame⟩ := pruneRelationAppsInExpr_spec e
    obtain ⟨hes, hsame'⟩ := pruneRelationAppsInExprs_spec es
    rw [pruneRelationAppsInExprs, List.map_cons, ← he, ← hes]
    refine ⟨rfl, fun hp => ?_⟩
    obtain ⟨hp, hp'⟩ := Bool.or_eq_false_iff.1 hp
    rw [he, hes, hsame hp, hsame' hp']

end

theorem pruneConstraints_eq (constraints : List Expr) :
    pruneConstraints keepMap constraints =
      constraints.map (maskedColumns keepMap).stripTerm := by
  obtain ⟨hes, hsame⟩ := @pruneRelationAppsInExprs_spec keepMap constraints
  rw [pruneConstraints]
  split_ifs with hmention
  · dsimp only
    split_ifs with hpruned
    · exact hes
    · exact (hsame (Bool.eq_false_iff.2 hpruned)).symm
  · -- no relation with a mask is applied
    conv_lhs => rw [← List.map_id constraints]
    refine List.map_congr_left fun c hc => (Columns.stripTerm_eq_self fun app happ => ?_).symm
    have hnone : keepMap app.1 = none := by
      rw [← Option.not_isSome_iff_eq_none]
      intro hsome
      exact hmention (List.any_eq_true.2 ⟨c, hc, List.any_eq_true.2 ⟨app, happ, hsome⟩⟩)
    rw [strip_maskedColumns, hnone]

/-- **One mask for all applications** of a rule. -/
theorem pruneRule_eq (rule : Rule) :
    pruneRule keepMap rule = (maskedColumns keepMap).stripRule rule := by
  rw [pruneRule, Columns.stripRule, pruneRelationApp_eq, pruneConstraints_eq]
  exact congrArg (fun rel => Rule.mk ⟨rel, _⟩ _)
    (Option.map_congr fun app _ => pruneRelationApp_eq app)

theorem strip_maskedColumns_eq_self (h : ∀ name keep, keepMap name = some keep →
      ∀ b ∈ keep, b = true) {α : Type} (name : String) (xs : List α) :
    (maskedColumns keepMap).strip name xs = xs := by
  rw [strip_maskedColumns]
  cases hkeep : keepMap name with
  | none => rfl
  | some keep => exact keepArgs_eq_self (h name keep hkeep) xs

end Masked

end PruneArrays

end TrustMc
