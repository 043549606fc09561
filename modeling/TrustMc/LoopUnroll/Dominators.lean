import TrustMc.LoopUnroll.Cfg

/-!
# The dominator computation

The model of `loop_unroll/dominators.rs`: the numbering walk with its explicit stack, the
link-eval forest with path compression, the semidominators with their buckets, the deferred
immediate dominators, and the loop headers read off the result. `usize::MAX`, which stands for
no entry and compares as the largest number, is `none`.
-/

namespace TrustMc.LoopUnroll

/-! ### The numbering walk -/

/-- The arrays of the walk. -/
structure Walk where
  dfsNum : ℕ → Option ℕ
  vertex : ℕ → Option ℕ
  parent : ℕ → Option ℕ
  dfsCount : ℕ
  discovered : ℕ → Bool
  stack : List ℕ

def Walk.start : Walk where
  dfsNum _ := none
  vertex _ := none
  parent _ := none
  dfsCount := 0
  discovered v := v == 0
  stack := [0]

/-- A successor that has not been discovered is discovered here, whatever comes first to it
later on. -/
def Walk.discover (n v : ℕ) (s : Walk) (w : ℕ) : Walk :=
  if w < n && !s.discovered w then
    { s with
      discovered := Function.update s.discovered w true
      parent := Function.update s.parent w (some v)
      stack := w :: s.stack }
  else s

/-- The walk takes `v` off its stack. -/
def Walk.visit (cfg : Cfg) (s : Walk) (v : ℕ) : Walk :=
  if (s.dfsNum v).isSome then s
  else
    (cfg.succs v).foldl (Walk.discover cfg.size v)
      { s with
        dfsNum := Function.update s.dfsNum v (some s.dfsCount)
        vertex := Function.update s.vertex s.dfsCount (some v)
        dfsCount := s.dfsCount + 1 }

def walkLoop (cfg : Cfg) : ℕ → Walk → Walk
  | 0, s => s
  | fuel + 1, s =>
    match s.stack with
    | [] => s
    | v :: stack => walkLoop cfg fuel (Walk.visit cfg { s with stack := stack } v)

/-- The numbering; every block is pushed once at most. -/
def numbering (cfg : Cfg) : Walk := walkLoop cfg cfg.size Walk.start

/-- `dfs_num[a] < dfs_num[b]` -/
def numLt (dfsNum : ℕ → Option ℕ) (a b : ℕ) : Bool :=
  match dfsNum a, dfsNum b with
  | some i, some j => decide (i < j)
  | some _, none => true
  | none, _ => false

/-! ### The link-eval forest -/

structure Forest where
  ancestor : ℕ → Option ℕ
  label : ℕ → ℕ

/-- The path from `curr` up to below the child of the root. -/
def compressPath (ancestor : ℕ → Option ℕ) : ℕ → ℕ → List ℕ
  | 0, _ => []
  | fuel + 1, curr =>
    match ancestor curr with
    | none => []
    | some a => if (ancestor a).isSome then curr :: compressPath ancestor fuel a else []

def compressNode (w : Walk) (semi : ℕ → ℕ) (f : Forest) (node : ℕ) : Forest :=
  match f.ancestor node with
  | none => f
  | some a =>
    { ancestor := Function.update f.ancestor node (f.ancestor a)
      label :=
        if numLt w.dfsNum (semi (f.label a)) (semi (f.label node)) then
          Function.update f.label node (f.label a)
        else f.label }

/-- The path is compressed from the top to the bottom. -/
def compress (n : ℕ) (w : Walk) (semi : ℕ → ℕ) (f : Forest) (v : ℕ) : Forest :=
  (compressPath f.ancestor n v).reverse.foldl (compressNode w semi) f

/-- `eval` returns a vertex and leaves the forest compressed. -/
def eval (n : ℕ) (w : Walk) (semi : ℕ → ℕ) (f : Forest) (v : ℕ) : ℕ × Forest :=
  match f.ancestor v with
  | none => (v, f)
  | some _ =>
    let f := compress n w semi f v
    (f.label v, f)

def link (f : Forest) (v w : ℕ) : Forest :=
  { f with ancestor := Function.update f.ancestor w (some v) }

/-! ### Semidominators and buckets -/

structure LinkState where
  semi : ℕ → ℕ
  forest : Forest
  bucket : ℕ → List ℕ
  idom : ℕ → Option ℕ

def LinkState.start : LinkState where
  semi v := v
  forest := { ancestor := fun _ => none, label := fun v => v }
  bucket _ := []
  idom _ := none

/-- One predecessor `v` of `w` lowers the semidominator of `w`. -/
def lowerSemi (n : ℕ) (walk : Walk) (w : ℕ) (s : LinkState) (v : ℕ) : LinkState :=
  if n ≤ v ∨ walk.dfsNum v = none then s
  else
    let (u, forest) := eval n walk s.semi s.forest v
    { s with
      forest
      semi :=
        if numLt walk.dfsNum (s.semi u) (s.semi w) then Function.update s.semi w (s.semi u)
        else s.semi }

/-- The vertex `v` of the bucket of `p`: its immediate dominator, or the vertex that shares it. -/
def settle (n : ℕ) (walk : Walk) (p : ℕ) (s : LinkState) (v : ℕ) : LinkState :=
  let (u, forest) := eval n walk s.semi s.forest v
  { s with
    forest
    idom := Function.update s.idom v (some (if s.semi u = s.semi v then p else u)) }

/-- One vertex of the main loop. -/
def processVertex (cfg : Cfg) (walk : Walk) (s : LinkState) (w : ℕ) : LinkState :=
  let s := (cfg.preds w).foldl (lowerSemi cfg.size walk w) s
  let s := { s with bucket := Function.update s.bucket (s.semi w) (s.bucket (s.semi w) ++ [w]) }
  match walk.parent w with
  | none => s
  | some p =>
    (s.bucket p).foldl (settle cfg.size walk p)
      { s with forest := link s.forest p w, bucket := Function.update s.bucket p [] }

/-- The main loop, over the numbers `i, i - 1, …, 1`. -/
def processDown (cfg : Cfg) (walk : Walk) : ℕ → LinkState → LinkState
  | 0, s => s
  | i + 1, s =>
    processDown cfg walk i
      (match walk.vertex (i + 1) with
        | none => s
        | some w => processVertex cfg walk s w)

/-- A deferred entry takes the immediate dominator of the vertex it names. -/
def finalizeVertex (semi : ℕ → ℕ) (idom : ℕ → Option ℕ) (w : ℕ) : ℕ → Option ℕ :=
  match idom w with
  | none => idom
  | some u => if u ≠ semi w then Function.update idom w (idom u) else idom

/-- The last loop, over the numbers `1, 2, …, i`. -/
def finalizeUp (walk : Walk) (semi : ℕ → ℕ) : ℕ → (ℕ → Option ℕ) → ℕ → Option ℕ
  | 0, idom => idom
  | i + 1, idom =>
    let idom := finalizeUp walk semi i idom
    match walk.vertex (i + 1) with
    | none => idom
    | some w => finalizeVertex semi idom w

/-- Immediate dominators: `idom[node]`, or `none` for the entry and for unreachable nodes. -/
def computeIdomLengauerTarjan (cfg : Cfg) : ℕ → Option ℕ :=
  if cfg.size = 0 then fun _ => none
  else
    let walk := numbering cfg
    if walk.dfsCount = 0 then fun _ => none
    else
      let s := processDown cfg walk (walk.dfsCount - 1) LinkState.start
      finalizeUp walk s.semi (walk.dfsCount - 1) s.idom

/-! ### Reading the dominator tree -/

/-- The walk up the tree, where `left` is `n - steps`. -/
def dominatesLoop (idom : ℕ → Option ℕ) (ancestor : ℕ) : ℕ → Option ℕ → Bool
  | _, none => false
  | 0, some curr => decide (curr = ancestor)
  | left + 1, some curr =>
    if curr = ancestor then true else dominatesLoop idom ancestor left (idom curr)

/-- Does the walk up the tree from `descendant` meet `ancestor`? -/
def dominates (idom : ℕ → Option ℕ) (ancestor descendant n : ℕ) : Bool :=
  dominatesLoop idom ancestor n (some descendant)

inductive LoopUnrollError
  | irreducibleCycle
  | multipleEntries (header entry pred : ℕ)
  | tooManyIterations (iterations : ℕ)
  | idomCycle (node revisited steps : ℕ)
  | maxBlocksExceeded (blockCount limit : ℕ)
  deriving DecidableEq

/-- The chain from `curr` up to a vertex that is done (`2`); a vertex of this very chain (`1`)
is a cycle. -/
def validateChain (idom : ℕ → Option ℕ) (reachable : ℕ → Bool) (start : ℕ) :
    ℕ → Option ℕ → (ℕ → ℕ) → List ℕ → Except LoopUnrollError ((ℕ → ℕ) × List ℕ)
  | 0, _, state, path => .ok (state, path)
  | _ + 1, none, state, path => .ok (state, path)
  | fuel + 1, some curr, state, path =>
    if !reachable curr then .ok (state, path)
    else if state curr = 0 then
      validateChain idom reachable start fuel (idom curr) (Function.update state curr 1)
        (path ++ [curr])
    else if state curr = 1 then .error (.idomCycle start curr path.length)
    else .ok (state, path)

def validateFrom (idom : ℕ → Option ℕ) (reachable : ℕ → Bool) (n : ℕ) :
    List ℕ → (ℕ → ℕ) → Except LoopUnrollError Unit
  | [], _ => .ok ()
  | start :: starts, state =>
    if !reachable start || state start = 2 then validateFrom idom reachable n starts state
    else
      match validateChain idom reachable start (n + 1) (some start) state [] with
      | .error e => .error e
      | .ok (state, path) =>
        validateFrom idom reachable n starts
          (path.foldl (fun state node => Function.update state node 2) state)

def validateIdom (idom : ℕ → Option ℕ) (reachable : ℕ → Bool) (n : ℕ) :
    Except LoopUnrollError Unit :=
  validateFrom idom reachable n (List.range n) fun _ => 0

/-- One edge `src → dst` of the scan. -/
def noteBackEdge (cfg : Cfg) (idom : ℕ → Option ℕ) (src : ℕ) (headers : ℕ → List ℕ) (dst : ℕ) :
    ℕ → List ℕ :=
  if cfg.reachable dst && dominates idom dst src cfg.size then
    Function.update headers dst (headers dst ++ [src])
  else headers

/-- The edges out of `src`. -/
def noteBackEdges (cfg : Cfg) (idom : ℕ → Option ℕ) (headers : ℕ → List ℕ) (src : ℕ) :
    ℕ → List ℕ :=
  if !cfg.reachable src then headers
  else (cfg.succs src).foldl (noteBackEdge cfg idom src) headers

/-- The latches of each header; a block without latches is no header. -/
def findLoopHeaders (cfg : Cfg) : Except LoopUnrollError (ℕ → List ℕ) := do
  let idom := computeIdomLengauerTarjan cfg
  validateIdom idom cfg.reachable cfg.size
  return (List.range cfg.size).foldl (noteBackEdges cfg idom) fun _ => []

end TrustMc.LoopUnroll
