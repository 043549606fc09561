import Mathlib
import TrustMc.LoopUnroll.Dominators

/-!
# Bounded loop unrolling

The model of `loop_unroll/unroll.rs` and of `unroll_cfg_loops` in `loop_unroll/mod.rs`: natural
loops, the copies of a loop body with their rewritten terminators, the two blocks for runs
beyond the bound, and the loop that unrolls one natural loop after the other until the graph is
acyclic. `HashMap`s are functions; log messages are left out.
-/

namespace TrustMc.LoopUnroll

variable {M : Mir}

/-! ### Natural loops -/

structure NaturalLoop where
  header : ℕ
  latches : List ℕ
  inLoop : ℕ → Bool
  blocks : List ℕ

/-- The blocks that reach a latch without passing the header, searched backwards. -/
def naturalLoop (cfg : Cfg) (header : ℕ) (latches : List ℕ) : NaturalLoop :=
  let marked := latches.foldl (fun inLoop latch => Function.update inLoop latch true)
    (fun bb => bb == header)
  let inLoop := Flow.search (fun stack pred => if pred ≠ header then pred :: stack else stack)
    (fun node => (cfg.preds node).filter cfg.reachable) (cfg.size + latches.length) marked
    latches.reverse
  { header, latches, inLoop, blocks := (List.range cfg.size).filter inLoop }

/-- The first edge that enters the loop at another block than the header. -/
def checkSingleEntry (cfg : Cfg) (lp : NaturalLoop) : Except LoopUnrollError Unit :=
  match lp.blocks.findSome? fun bb =>
      if bb = lp.header then none
      else (cfg.preds bb).findSome? fun pred =>
        if !cfg.reachable pred then none
        else if !lp.inLoop pred then some (LoopUnrollError.multipleEntries lp.header bb pred)
        else none with
  | some e => .error e
  | none => .ok ()

/-! ### Terminators -/

/-- The remapped blocks of one copy; a block that is not remapped stands for itself. -/
structure BlockMap where
  remaps : ℕ → Option ℕ

def BlockMap.identity : BlockMap := ⟨fun _ => none⟩

def BlockMap.get (map : BlockMap) (block : ℕ) : ℕ := (map.remaps block).getD block

structure UnrollContext where
  lp : NaturalLoop
  maps : ℕ → BlockMap
  unwindDepth : ℕ
  failBb : ℕ
  silentFailBb : ℕ
  unwindingAssertions : Bool

/-- Where a run beyond the bound ends. -/
def UnrollContext.cut (ucx : UnrollContext) : ℕ :=
  if ucx.unwindingAssertions then ucx.failBb else ucx.silentFailBb

def remapUnwindAction (map : BlockMap) : UnwindAction → UnwindAction
  | .continue => .continue
  | .unreachable => .unreachable
  | .terminate => .terminate
  | .cleanup bb => .cleanup (map.get bb)

def remapTarget (target iter src : ℕ) (ucx : UnrollContext) : ℕ :=
  if !ucx.lp.inLoop target then target
  -- the last copy of the header starts no new iteration
  else if iter = ucx.unwindDepth ∧ src = ucx.lp.header then ucx.cut
  else if target = ucx.lp.header then
    if iter < ucx.unwindDepth then (ucx.maps (iter + 1)).get ucx.lp.header else ucx.cut
  else (ucx.maps iter).get target

/-- The terminator of copy `iter` of the block `src`; inline assembly is cloned as it is. -/
def rewriteTerminator (term : Terminator M) (iter src : ℕ) (ucx : UnrollContext) :
    Terminator M :=
  let kind :=
    match term.kind with
    | .goto target => .goto (remapTarget target iter src ucx)
    | .switchInt discr branches otherwise =>
      .switchInt discr (branches.map fun (val, target) => (val, remapTarget target iter src ucx))
        (remapTarget otherwise iter src ucx)
    | .drop place target unwind =>
      .drop place (remapTarget target iter src ucx) (remapUnwindAction (ucx.maps iter) unwind)
    | .call func args destination target unwind =>
      .call func args destination (target.map fun t => remapTarget t iter src ucx)
        (remapUnwindAction (ucx.maps iter) unwind)
    | .assert cond expected msg target unwind =>
      .assert cond expected msg (remapTarget target iter src ucx)
        (remapUnwindAction (ucx.maps iter) unwind)
    | .return => .return
    | .unreachable => .unreachable
    | .resume => .resume
    | .abort => .abort
    | .inlineAsm asm destination unwind => .inlineAsm asm destination unwind
  { kind, span := term.span }

/-! ### One natural loop -/

/-- One copy of the loop: its blocks are pushed and remapped. -/
def pushCopy (blocks : List (BasicBlock M)) (templates : List (ℕ × BasicBlock M)) :
    List (BasicBlock M) × BlockMap :=
  templates.foldl
    (fun (blocks, map) (bb, template) =>
      (blocks ++ [template], ⟨Function.update map.remaps bb (some blocks.length)⟩))
    (blocks, BlockMap.identity)

/-- The copies `iter + 1, …, iter + count`. -/
def pushCopies (templates : List (ℕ × BasicBlock M)) :
    ℕ → ℕ → List (BasicBlock M) → (ℕ → BlockMap) → List (BasicBlock M) × (ℕ → BlockMap)
  | 0, _, blocks, maps => (blocks, maps)
  | count + 1, iter, blocks, maps =>
    let (blocks, map) := pushCopy blocks templates
    pushCopies templates count (iter + 1) blocks (Function.update maps (iter + 1) map)

def setTerminator (blocks : List (BasicBlock M)) (bb : ℕ) (term : Terminator M) :
    List (BasicBlock M) :=
  blocks.modify bb fun block => { block with terminator := term }

/-- The terminators of one copy. -/
def rewriteCopy (templates : List (ℕ × BasicBlock M)) (ucx : UnrollContext)
    (blocks : List (BasicBlock M)) (iter : ℕ) : List (BasicBlock M) :=
  templates.foldl
    (fun blocks (bb, template) => setTerminator blocks ((ucx.maps iter).get bb)
      (rewriteTerminator template.terminator iter bb ucx))
    blocks

def unrollNaturalLoop (body : Body M) (lp : NaturalLoop) (unwindDepth : ℕ)
    (unwindingAssertions : Bool) : Body M :=
  let templates := lp.blocks.filterMap fun bb => (body.blocks[bb]?).map fun block => (bb, block)
  let (blocks, maps) := pushCopies templates unwindDepth 0 body.blocks fun _ => BlockMap.identity
  match body.blocks[lp.header]? with
  | none => body
  | some header =>
    let span := header.terminator.span
    let failBb := blocks.length
    let blocks := blocks ++ [{ statements := [], terminator := { kind := .unreachable, span } }]
    let silentFailBb := blocks.length
    let blocks := blocks ++ [{ statements := [], terminator := { kind := .return, span } }]
    let ucx : UnrollContext :=
      { lp, maps, unwindDepth, failBb, silentFailBb, unwindingAssertions }
    { body with blocks := (List.range (unwindDepth + 1)).foldl (rewriteCopy templates ucx) blocks }

/-! ### The whole pass -/

def usizeMax : ℕ := 2 ^ 64 - 1

def MAX_EXPANDED_BLOCKS : ℕ := 10000

def computeEffectiveUnwindDepth (requestedDepth loopBlocks : ℕ) : ℕ × Bool :=
  let projectedExpansion := min (requestedDepth * loopBlocks) usizeMax
  if projectedExpansion > MAX_EXPANDED_BLOCKS then
    let reduced := MAX_EXPANDED_BLOCKS / max loopBlocks 1
    (max reduced 1, true)
  else (requestedDepth, false)

def MAX_ITERATIONS : ℕ := 256

def MAX_TOTAL_BLOCKS : ℕ := 100000

/-- The headers with their latches, in the order of the headers. -/
def candidates (cfg : Cfg) (headers : ℕ → List ℕ) : List (ℕ × List ℕ) :=
  (List.range cfg.size).filterMap fun h => if headers h = [] then none else some (h, headers h)

/-- The first smallest loop with a single entry, or the first entry error. -/
def pickLoop (cfg : Cfg) :
    List (ℕ × List ℕ) → Option NaturalLoop → Option LoopUnrollError →
      Option NaturalLoop × Option LoopUnrollError
  | [], best, err => (best, err)
  | (header, latches) :: rest, best, err =>
    let lp := naturalLoop cfg header (sortDedup latches)
    match checkSingleEntry cfg lp with
    | .error e => pickLoop cfg rest best (err.or (some e))
    | .ok () =>
      match best with
      | none => pickLoop cfg rest (some lp) err
      | some b =>
        if lp.blocks.length < b.blocks.length then pickLoop cfg rest (some lp) err
        else pickLoop cfg rest best err

/-- One round: the body with one loop unrolled. -/
def unrollRound (cfg : Cfg) (body : Body M) (unwindDepth : ℕ) (unwindingAssertions : Bool) :
    Except LoopUnrollError (Body M) := do
  let headers ← findLoopHeaders cfg
  if candidates cfg headers = [] then .error .irreducibleCycle
  else
    match pickLoop cfg (candidates cfg headers) none none with
    | (none, err) => .error (err.getD .irreducibleCycle)
    | (some lp, _) =>
      checkSingleEntry cfg lp
      let (effectiveDepth, _) := computeEffectiveUnwindDepth unwindDepth lp.blocks.length
      .ok (unrollNaturalLoop body lp effectiveDepth unwindingAssertions)

/-- The rounds of the pass, of which `left` are left. -/
def unrollRounds (unwindDepth : ℕ) (unwindingAssertions : Bool) :
    ℕ → Body M → Except LoopUnrollError (Body M)
  | 0, _ => .error (.tooManyIterations MAX_ITERATIONS)
  | left + 1, body => do
    if body.blocks.length > MAX_TOTAL_BLOCKS then
      .error (.maxBlocksExceeded body.blocks.length MAX_TOTAL_BLOCKS)
    else
      let cfg := Cfg.fromBody body
      if cfg.isAcyclic then .ok body
      else
        let body ← unrollRound cfg body unwindDepth unwindingAssertions
        if left = 0 then .error (.tooManyIterations MAX_ITERATIONS)
        else unrollRounds unwindDepth unwindingAssertions left body

def unrollCfgLoops (body : Body M) (unwindDepth : ℕ) (unwindingAssertions : Bool) :
    Except LoopUnrollError (Body M) :=
  unrollRounds unwindDepth unwindingAssertions MAX_ITERATIONS body

end TrustMc.LoopUnroll
