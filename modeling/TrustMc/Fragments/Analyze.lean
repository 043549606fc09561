import TrustMc.LoopUnroll.UnrollExact
import Mathlib.Data.List.Destutter

/-!
# Fragments of the control-flow graph

The model of `chc/fragment.rs`. The large-step encoding cuts the graph of a body at its entry,
its loop headers and its returns, and emits one rule for each fragment: the blocks that are
reached from a cut point without passing another one, in topological order, and the edges that
leave to a cut point.

* A `HashSet` of blocks is the list of its insertions where it is only asked for members, and a
  function where single blocks are inserted. The order in which `build_fragments` goes through
  the cut points does not matter: the fragments are sorted by entry.
* A failure of `find_loop_headers` is logged and read as no headers at all.
-/

namespace TrustMc.Fragments

open LoopUnroll

inductive CutPointKind
  | entry
  | loopHeader
  | exit
  deriving DecidableEq

structure CutPoint where
  bbIdx : ℕ
  kind : CutPointKind
  deriving DecidableEq

structure Fragment where
  entryBb : ℕ
  /-- The blocks, topologically sorted. -/
  blocks : List ℕ
  /-- The edges `(last block, cut point)` out of the fragment. -/
  exits : List (ℕ × ℕ)
  deriving DecidableEq

structure FragmentAnalysis where
  cutPoints : List CutPoint
  cutPointSet : List ℕ
  fragments : List Fragment
  deriving DecidableEq

/-! ### One fragment -/

section Build

variable (cfg : Cfg) (cut : ℕ → Bool) (entry : ℕ)

/-- The search for the blocks of one fragment: `fragment_blocks`, `exits` and `queue`. -/
structure Region where
  blocks : ℕ → Bool
  exits : List (ℕ × ℕ)
  queue : List ℕ

/-- The successor `succ` of the block `bb` of the fragment. -/
def Region.visit (bb : ℕ) (s : Region) (succ : ℕ) : Region :=
  if !cfg.reachable succ then s
  else if cut succ && succ != entry then { s with exits := s.exits ++ [(bb, succ)] }
  else if succ = entry then { s with exits := s.exits ++ [(bb, succ)] }
  else if s.blocks succ then s
  else { s with blocks := Function.update s.blocks succ true, queue := s.queue ++ [succ] }

def exploreLoop : ℕ → Region → Region
  | 0, s => s
  | fuel + 1, s =>
    match s.queue with
    | [] => s
    | bb :: queue =>
      exploreLoop fuel ((cfg.succs bb).foldl (Region.visit cfg cut entry bb) { s with queue })

/-- The blocks and exits of the fragment; every block is queued once at most. -/
def explore : Region :=
  exploreLoop cfg cut entry cfg.size { blocks := (· == entry), exits := [], queue := [entry] }

/-- The edges inside the fragment, without those back to its entry. -/
def fragmentSuccs (blocks : ℕ → Bool) : List (List ℕ) :=
  (List.range cfg.size).map fun bb =>
    if blocks bb then (cfg.succs bb).filter fun succ => blocks succ && succ != entry else []

/-- `sort_unstable` and `dedup` on pairs. -/
def sortDedupPairs (pairs : List (ℕ × ℕ)) : List (ℕ × ℕ) :=
  (pairs.insertionSort fun a b => a.1 < b.1 ∨ a.1 = b.1 ∧ a.2 ≤ b.2).destutter (· ≠ ·)

def buildFragment : Fragment :=
  let region := explore cfg cut entry
  { entryBb := entry
    blocks := topoSort (fragmentSuccs cfg entry region.blocks) region.blocks
    exits := sortDedupPairs region.exits }

end Build

/-! ### All fragments -/

/-- One fragment for each reachable cut point. -/
def buildFragments (cfg : Cfg) (cutPointSet : List ℕ) : List Fragment :=
  ((List.range cfg.size).filter fun bb => decide (bb ∈ cutPointSet) && cfg.reachable bb).map
    (buildFragment cfg fun bb => decide (bb ∈ cutPointSet))

def isReturn {M : Mir} : TerminatorKind M → Bool
  | .return => true
  | _ => false

/-- The blocks with a `Return` terminator. -/
def returnBlocks {M : Mir} (body : Body M) : List ℕ :=
  (body.blocks.zipIdx.filter fun (block, _) => isReturn block.terminator.kind).map Prod.snd

def analyzeFragments {M : Mir} (body : Body M) : FragmentAnalysis :=
  let cfg := Cfg.fromBody body
  let headers :=
    match findLoopHeaders cfg with
    | .ok headers => headers
    | .error _ => fun _ => []
  let headerBlocks := (List.range cfg.size).filter fun bb => headers bb ≠ []
  let cutPoints :=
    [⟨0, .entry⟩] ++ headerBlocks.map (⟨·, .loopHeader⟩) ++ (returnBlocks body).map (⟨·, .exit⟩)
  let cutPointSet := cutPoints.map CutPoint.bbIdx
  { cutPoints, cutPointSet, fragments := buildFragments cfg cutPointSet }

end TrustMc.Fragments
