import TrustMc.Fragments.Complete
import TrustMc.LoopUnroll.Unroll
import Mathlib.Data.List.MinMax

/-!
# The rules of a fragment

The model of `rules/fragment_gen.rs`, `rules/fragment_fallback.rs` and of the part of
`rules/fragment_compose` that decides what is composed. A fragment gets one composed rule where
its blocks form a path that can be composed through; else it is split at its calls into chains,
which are composed or not on their own, and a block that is in no chain gets its own rules.

* `GenState.relations` are the keys of `block_relations`. A rule that is emitted is recorded as
  the chain it is composed of, a single block for the rules of a block of its own, with the
  relations there are at that time; the chains handed to `generate_composed_rules` are recorded
  as well. What the rules say is not modelled here.
* `ChcCtx` holds what is asked about operands and places. A `HashSet` is the list of its
  insertions; where one is iterated over (`compute_dead_end_blocks`), `HashOrder` gives the order.
-/

namespace TrustMc.Fragments

open LoopUnroll

inductive ChcTrackLevel
  | reg
  | ptr
  | mem
  deriving DecidableEq

/-- The models of the library; all but `Any` are treated alike here. -/
inductive KaniModel
  | any
  | other
  deriving DecidableEq

/-- The hooks; those without a case of their own in `classify_inlineable_call` are `other`. -/
inductive KaniHook
  | anyRaw
  | assert
  | assume
  | check
  | cover
  | initContracts
  | untrackedDeref
  | valueView
  | other
  deriving DecidableEq

/-- The stubs; all but `RangeSpecNext` are treated alike here. -/
inductive StubKind
  | rangeSpecNext
  | other
  deriving DecidableEq

inductive InlineableCallKind
  | any
  | assume
  | assertOrCheck
  | cover
  | noop
  | rangeNext
  deriving DecidableEq

/-- An order in which a set is iterated over. -/
structure HashOrder where
  iter : List ℕ → List ℕ
  perm : ∀ l, (iter l).Perm l

structure ChcCtx (M : Mir) where
  body : Body M
  valid : body.Valid
  trackLevel : ChcTrackLevel
  detectKaniModel : M.Operand → Option KaniModel
  detectKaniHook : M.Operand → Option KaniHook
  detectStub : M.Operand → Option StubKind
  /-- The type of the place is a `Box`. -/
  isBox : M.Place → Bool
  hashOrder : HashOrder

/-- Rules are emitted for the blocks of a chain, when these relations are declared. -/
structure Emission where
  chain : List ℕ
  relations : List ℕ
  deriving DecidableEq

structure GenState where
  /-- The blocks with a relation. -/
  relations : List ℕ
  /-- The chains handed to `generate_composed_rules`. -/
  handed : List Emission
  /-- The chains that rules are emitted for. -/
  emissions : List Emission
  deriving DecidableEq

namespace ChcCtx

variable {M : Mir} (ctx : ChcCtx M)

/-! ### Terminators -/

def classifyInlineableCall (func : M.Operand) : Option InlineableCallKind :=
  if ctx.detectKaniModel func = some .any ∧ ctx.trackLevel ≠ .mem then some .any
  else
    match ctx.detectKaniHook func with
    | some .assume => some .assume
    | some .anyRaw => if ctx.trackLevel = .mem then none else some .any
    | some .assert | some .check => some .assertOrCheck
    | some .cover => some .cover
    | some .initContracts | some .valueView | some .untrackedDeref => some .noop
    | some .other | none =>
      if ctx.detectStub func = some .rangeSpecNext then some .rangeNext else none

/-- The terminator of a block. -/
def kind (bb : ℕ) : Option (TerminatorKind M) :=
  (ctx.body.blocks[bb]?).map fun block => block.terminator.kind

/-- `successors()` of the terminator, unwind targets included. -/
def successors (bb : ℕ) : List ℕ := ((ctx.kind bb).map (·.exits true)).getD []

/-- The targets of the terminator that get rules; unwind targets get none. -/
def targets (bb : ℕ) : List ℕ := ((ctx.kind bb).map (·.targets)).getD []

def isUnreachable (bb : ℕ) : Bool :=
  match ctx.kind bb with
  | some .unreachable => true
  | _ => false

/-- The block where a call returns to. -/
def landingPad (bb : ℕ) : Option ℕ :=
  match ctx.kind bb with
  | some (.call _ _ _ target _) => target
  | _ => none

/-- The terminator can be composed through. -/
def composesThrough (bb : ℕ) : Bool :=
  match ctx.kind bb with
  | some (.goto _) | some (.switchInt ..) | some (.assert ..) => true
  | some (.drop place _ _) => !ctx.isBox place
  | some (.call func _ _ target _) =>
    target.isSome && (ctx.classifyInlineableCall func).isSome
  | _ => false

/-! ### Paths -/

def isComposableLinearChain : List ℕ → Bool
  | bb :: next :: rest =>
    (match ctx.kind bb with
      | some (.goto target) => target == next
      | _ => false) && isComposableLinearChain (next :: rest)
  | _ => true

def computeDeadEndBlocks (blocks : List ℕ) (entry : ℕ) : List ℕ :=
  blocks.filter fun bb =>
    !(ctx.successors bb).any fun s => s == entry || (blocks.contains s && s != bb)

/-- The blocks but the dead ends. -/
def pathBlocks (blocks : List ℕ) (entry : ℕ) : List ℕ :=
  blocks.filter fun bb => !(ctx.computeDeadEndBlocks blocks entry).contains bb

/-- `in_frag_succs`: a set. -/
def inFragSuccs (blocks : List ℕ) (entry bb : ℕ) : List ℕ :=
  ((ctx.successors bb).filter fun s =>
    blocks.contains s && s != entry && !(ctx.computeDeadEndBlocks blocks entry).contains s).dedup

/-- The loop of `is_composable_fragment` over the path. -/
def checkPath (blocks : List ℕ) (entry : ℕ) : List ℕ → Bool
  | bb :: next :: rest =>
    ctx.inFragSuccs blocks entry bb == [next] && ctx.composesThrough bb &&
      checkPath blocks entry (next :: rest)
  | _ => true

def isComposableFragment (blocks : List ℕ) (entry : ℕ) : Bool :=
  if blocks.length ≤ 1 then true
  else if (ctx.pathBlocks blocks entry).length ≤ 1 then false
  else ctx.checkPath blocks entry (ctx.pathBlocks blocks entry)

/-- The path and the dead ends. -/
def extractComposablePath (blocks : List ℕ) (entry : ℕ) : Option (List ℕ × List ℕ) :=
  if !ctx.isComposableFragment blocks entry then none
  else if ctx.computeDeadEndBlocks blocks entry = [] then some (blocks, [])
  else if (ctx.pathBlocks blocks entry).length ≤ 1 then none
  else some (ctx.pathBlocks blocks entry,
    ctx.hashOrder.iter (ctx.computeDeadEndBlocks blocks entry))

/-! ### Predecessors -/

structure PredSearch where
  preds : ℕ → List ℕ
  seen : ℕ → Bool
  worklist : List ℕ

def PredSearch.visit (n bb : ℕ) (s : PredSearch) (succ : ℕ) : PredSearch :=
  if n ≤ succ then s
  else
    let s := { s with preds := Function.update s.preds succ (bb :: s.preds succ) }
    if s.seen succ then s
    else { s with seen := Function.update s.seen succ true, worklist := succ :: s.worklist }

/-- Every block is in the worklist once at most. -/
def predLoop : ℕ → PredSearch → PredSearch
  | 0, s => s
  | fuel + 1, s =>
    match s.worklist with
    | [] => s
    | bb :: worklist =>
      predLoop fuel ((ctx.successors bb).foldl (PredSearch.visit ctx.body.blocks.length bb)
        { s with worklist })

def reachablePredecessors : ℕ → List ℕ :=
  (ctx.predLoop ctx.body.blocks.length
    { preds := fun _ => [], seen := (· == 0), worklist := [0] }).preds

/-! ### Chains -/

section Fallback

variable (blocks : List ℕ)

def isSplitCall (bb : ℕ) : Bool :=
  match ctx.kind bb with
  | some (.call func ..) => (ctx.classifyInlineableCall func).isNone
  | _ => false

/-- The calls where the fragment is split: the last block is none of them. -/
def callBlocks : List ℕ := blocks.dropLast.filter ctx.isSplitCall

def unreachableBlocks : List ℕ := blocks.filter ctx.isUnreachable

/-- A block of the fragment that is no call block, not unreachable and not assigned yet. -/
def chainable (assigned : List ℕ) (bb : ℕ) : Bool :=
  blocks.contains bb && !(ctx.callBlocks blocks).contains bb &&
    !(ctx.unreachableBlocks blocks).contains bb && !assigned.contains bb

/-- The successors that the chain may go on with. -/
def eligibleSuccs (preds : ℕ → List ℕ) (assigned : List ℕ) (pad : ℕ) (chain : List ℕ)
    (current : ℕ) : List ℕ :=
  (ctx.successors current).filter fun s =>
    ctx.chainable blocks assigned s && !chain.contains s && (s == pad || blocks.head? != some s) &&
      (preds s).all (· == current)

/-- At a fork, the successor closest to the next topological position. -/
def pickSucc (current : ℕ) : List ℕ → Option ℕ
  | [] => none
  | [s] => some s
  | succs => succs.argmin fun s =>
      if blocks.idxOf current < blocks.idxOf s then blocks.idxOf s else usizeMax

/-- The walk from a landing pad. Its blocks are different blocks of the fragment. -/
def walkChain (preds : ℕ → List ℕ) (assigned : List ℕ) (pad : ℕ) :
    ℕ → List ℕ → ℕ → List ℕ
  | 0, chain, _ => chain
  | fuel + 1, chain, current =>
    if chain.contains current || !ctx.chainable blocks assigned current ||
        (current != pad && blocks.head? == some current) then chain
    else
      match pickSucc blocks current
          (ctx.eligibleSuccs blocks preds assigned pad (chain ++ [current]) current) with
      | none => chain ++ [current]
      | some next => walkChain preds assigned pad fuel (chain ++ [current]) next

structure Chains where
  assigned : List ℕ
  chainEntries : List (List ℕ)

/-- The chain of one call block. -/
def addChain (s : Chains) (callBb : ℕ) : Chains :=
  match ctx.landingPad callBb with
  | none => s
  | some pad =>
    if !ctx.chainable blocks s.assigned pad then s
    else
      let chain := ctx.walkChain blocks ctx.reachablePredecessors s.assigned pad
        (blocks.length + 1) [] pad
      { assigned := s.assigned ++ chain
        chainEntries := if chain = [] then s.chainEntries else s.chainEntries ++ [chain] }

def buildChains : Chains := (ctx.callBlocks blocks).foldl (ctx.addChain blocks) ⟨[], []⟩

/-- The blocks in no chain. -/
def orphans : List ℕ := blocks.filter (ctx.chainable blocks (ctx.buildChains blocks).assigned)

end Fallback

end ChcCtx

/-! ### Rule generation -/

namespace GenState

def declareBlockRelationIfNeeded (s : GenState) (bb : ℕ) : GenState :=
  if bb ∈ s.relations then s else { s with relations := bb :: s.relations }

def generateSingleBlockRules (s : GenState) (bb : ℕ) : GenState :=
  if bb ∈ s.relations then { s with emissions := s.emissions ++ [⟨[bb], s.relations⟩] } else s

/-- `generate_perblock_fallback`. -/
def generatePerblock (s : GenState) (blocks : List ℕ) : GenState :=
  blocks.foldl generateSingleBlockRules (blocks.foldl declareBlockRelationIfNeeded s)

end GenState

namespace ChcCtx

variable {M : Mir} (ctx : ChcCtx M)

/-- Every block leads to the one after it. -/
def isControlFlowPath : List ℕ → Bool
  | bb :: next :: rest =>
    (ctx.successors bb).contains next && isControlFlowPath (next :: rest)
  | _ => true

def generateComposedRules (entry : ℕ) (blocks : List ℕ) (s : GenState) : GenState :=
  if blocks = [] then s
  else
    let s := { s with handed := s.handed ++ [⟨blocks, s.relations⟩] }
    if entry ∉ s.relations then s
    else if ctx.isControlFlowPath blocks then
      { s with emissions := s.emissions ++ [⟨blocks, s.relations⟩] }
    else s.generatePerblock blocks

/-- The rules of one chain. -/
def generateChainRules (s : GenState) : List ℕ → GenState
  | [] => s
  | [bb] => s.generateSingleBlockRules bb
  | entry :: chain =>
    if ctx.isComposableLinearChain (entry :: chain) ||
        ctx.isComposableFragment (entry :: chain) entry then
      ctx.generateComposedRules entry (entry :: chain) s
    else s.generatePerblock (entry :: chain)

def generateFallbackFragmentRules (blocks : List ℕ) (s : GenState) : GenState :=
  if ctx.callBlocks blocks = [] then s.generatePerblock blocks
  else
    let chains := (ctx.buildChains blocks).chainEntries
    let s := (ctx.callBlocks blocks ++ (ctx.callBlocks blocks).filterMap ctx.landingPad ++
      chains.filterMap List.head? ++ ctx.orphans blocks).foldl
        GenState.declareBlockRelationIfNeeded s
    let s := (ctx.callBlocks blocks).foldl GenState.generateSingleBlockRules s
    let s := chains.foldl ctx.generateChainRules s
    (ctx.orphans blocks).foldl GenState.generateSingleBlockRules s

/-- The rules of one fragment. -/
def generateFragment (f : Fragment) (s : GenState) : GenState :=
  match f.blocks with
  | [bb] => s.generateSingleBlockRules bb
  | blocks =>
    if ctx.isComposableLinearChain blocks then ctx.generateComposedRules f.entryBb blocks s
    else
      match ctx.extractComposablePath blocks f.entryBb with
      | some (path, deadEnds) =>
        ctx.generateComposedRules f.entryBb path (deadEnds.foldl
          (fun s bb => (s.declareBlockRelationIfNeeded bb).generateSingleBlockRules bb) s)
      | none => ctx.generateFallbackFragmentRules blocks s

/-- The rules of a fragment, with the relations declared before. -/
structure Step where
  fragment : Fragment
  before : List ℕ
  after : GenState
  deriving DecidableEq

/-- The fragments one after the other; the emissions of each are recorded on their own. -/
def generateSteps : List Fragment → List ℕ → List Step
  | [], _ => []
  | f :: fragments, relations =>
    let after := ctx.generateFragment f ⟨relations, [], []⟩
    ⟨f, relations, after⟩ :: generateSteps fragments after.relations

/-- `generate_fragment_rules`: the cut points have relations at the start. -/
def generateFragmentRules : List Step :=
  ctx.generateSteps (analyzeFragments ctx.body).fragments
    ((List.range ctx.body.blocks.length).filter fun bb =>
      decide (bb ∈ (analyzeFragments ctx.body).cutPointSet))

end ChcCtx

end TrustMc.Fragments
