import TrustMc.Flow.Forever
import TrustMc.Mir.DeadLocals

/-!
# Blocks without a relation

The model of `codegen_decl_panic_filter.rs` and `codegen_decl_cleanup_seed.rs`: which blocks of a
body get a relation where every block is one step. These are the blocks that lead to a `Return`,
those that lead to a retained cleanup chain, and the entry. An edge to another block is emitted as
an edge to error, an unwind edge to it is dropped.

An execution is seen as far as the filter sees it: a block leads to one of its successors, or the
execution ends there. `only_fail_iff` says for which bodies every execution that enters a block
without a relation can only fail.
-/

namespace TrustMc.Mir

open Relation
open LoopUnroll (Mir TerminatorKind UnwindAction BasicBlock predecessorsOf mem_predecessorsOf)

/-! ### Successors -/

/-- The unwind action of a call, a drop or an assertion. -/
def unwindOf {M : Mir} : TerminatorKind M → Option UnwindAction
  | .drop _ _ unwind | .call _ _ _ _ unwind | .assert _ _ _ _ unwind => some unwind
  | _ => none

/-- `all_successors`: the targets, then the cleanup block; inline assembly has no unwind edge
here. -/
def allSuccessors {M : Mir} (kind : TerminatorKind M) : List ℕ :=
  kind.targets ++ ((unwindOf kind).map cleanup).getD []

/-- The unwind edge of inline assembly. -/
def asmCleanup {M : Mir} : TerminatorKind M → List ℕ
  | .inlineAsm _ _ unwind => cleanup unwind
  | _ => []

/-- The blocks of a body. Edges lead to blocks, and none leads back to the entry. -/
structure Blocks (M : Mir) where
  blocks : List (TerminatorKind M)
  target_lt : ∀ kind ∈ blocks, ∀ t ∈ allSuccessors kind ++ asmCleanup kind, t < blocks.length
  entry_notMem : ∀ kind ∈ blocks, 0 ∉ allSuccessors kind ++ asmCleanup kind

/-- What the filter asks about callees and places. -/
structure CalleeFacts (M : Mir) where
  /-- `ty_trivially_no_drop` of the type of the place, if that is known. -/
  triviallyNoDrop : M.Place → Option Bool
  /-- The callee is a `Drop::drop`. -/
  isDropImpl : M.Operand → Bool
  /-- `definitely_suppresses_call_cleanup`. -/
  definitelySuppressesCallCleanup : M.Operand → List M.Operand → Bool
  /-- `call_emits_direct_error`. -/
  callEmitsDirectError : M.Operand → Bool

section Filter

variable {M : Mir} (body : Blocks M)

namespace Blocks

/-- The number of blocks. -/
abbrev size : ℕ := body.blocks.length

def successors : List (List ℕ) := body.blocks.map allSuccessors

def succs (bb : ℕ) : List ℕ := body.successors.getD bb []

/-- `predecessor_map`. -/
def preds (bb : ℕ) : List ℕ := predecessorsOf body.successors bb

end Blocks

/-- `Vec::push`, where `pop` takes what was pushed last. -/
def pushLast (work : List ℕ) (bb : ℕ) : List ℕ := bb :: work

/-- Marks the seeds and everything that `next` leads to from them. -/
def markFrom (next : ℕ → List ℕ) (size : ℕ) (seeds : List ℕ) : ℕ → Bool :=
  let (mark, work) := Flow.push pushLast (fun _ => false) [] seeds
  Flow.search pushLast next size mark work

/-- `reverse_reachable_from_seeds`. -/
def reverseReachableFromSeeds (seeds : List ℕ) : ℕ → Bool := markFrom body.preds body.size seeds

/-- The blocks whose terminator satisfies the predicate. -/
def blocksWhere (p : TerminatorKind M → Bool) : List ℕ :=
  (List.range body.size).filter fun bb => body.blocks[bb]?.any p

def isReturn : TerminatorKind M → Bool
  | .return => true
  | _ => false

/-- `compute_return_reachable_blocks`. -/
def computeReturnReachableBlocks : ℕ → Bool :=
  reverseReachableFromSeeds body (blocksWhere body isReturn)

/-! ### Cleanup chains -/

variable (facts : CalleeFacts M)

/-- The blocks that `cleanup_chain_has_semantic_effects` goes on with; `none` is an effect. -/
def inertSuccessors : TerminatorKind M → Option (List ℕ)
  | .goto target => some [target]
  | .drop place target unwind =>
    if facts.triviallyNoDrop place = some true then some (target :: cleanup unwind) else none
  | .call func _ _ target unwind =>
    if facts.isDropImpl func then target.map fun target => target :: cleanup unwind else none
  | .resume | .abort | .return | .unreachable => some []
  | .assert .. | .switchInt .. | .inlineAsm .. => none

/-- `cleanup_chain_has_semantic_effects`. The search goes on after an effect, which changes nothing
about its answer. -/
def cleanupChainHasSemanticEffects (entryBb : ℕ) : Bool :=
  let seen := markFrom
    (fun bb => ((body.blocks[bb]?.bind (inertSuccessors facts)).getD [])) body.size [entryBb]
  (List.range body.size).any fun bb =>
    seen bb && (body.blocks[bb]?.map (inertSuccessors facts)) == some none

/-- `should_retain_cleanup_seed`. -/
def shouldRetainCleanupSeed : TerminatorKind M → Bool
  | .assert _ _ _ _ (.cleanup bb) => cleanupChainHasSemanticEffects body facts bb
  | .drop _ _ (.cleanup _) => false
  | .call func args _ target (.cleanup bb) =>
    if !cleanupChainHasSemanticEffects body facts bb && target.isNone &&
        facts.callEmitsDirectError func then false
    else if target.isNone then true
    else !facts.definitelySuppressesCallCleanup func args
  | _ => false

/-- The cleanup blocks that are retained as seeds. -/
def cleanupSeeds : List ℕ :=
  body.blocks.flatMap fun kind =>
    if shouldRetainCleanupSeed body facts kind then ((unwindOf kind).map cleanup).getD [] else []

/-- `compute_cleanup_chain_blocks_filtered`. -/
def computeCleanupChainBlocks : ℕ → Bool := markFrom body.succs body.size (cleanupSeeds body facts)

/-- `compute_cleanup_relevant_blocks_with_filter`. -/
def computeCleanupRelevantBlocks : ℕ → Bool :=
  reverseReachableFromSeeds body
    ((List.range body.size).filter (computeCleanupChainBlocks body facts))

/-! ### Relations and edges -/

/-- `retained_blocks`. -/
def retainedBlocks (bb : ℕ) : Bool :=
  computeReturnReachableBlocks body bb || computeCleanupRelevantBlocks body facts bb

/-- `block_relations`: the retained blocks and the entry. -/
def hasRelation (bb : ℕ) : Bool :=
  decide (bb < body.size) && (retainedBlocks body facts bb || bb == 0)

/-- The head of an emitted rule. -/
inductive RuleHead
  | block (bb : ℕ)
  | error
  deriving DecidableEq

/-- `emit_goto_rule` and its variants, with `try_emit_unreachable_error` where the target has no
relation. -/
def emitGotoRule (target : ℕ) : RuleHead :=
  if hasRelation body facts target then .block target else .error

/-- `emit_unwind_edge`, `emit_assert_unwind_edge`: dropped where the cleanup block has no
relation. -/
def emitUnwindEdge (cleanupBb : ℕ) : Option RuleHead :=
  if hasRelation body facts cleanupBb then some (.block cleanupBb) else none

end Filter

end TrustMc.Mir
