import TrustMc.Flow.Dominance
import TrustMc.Flow.Search
import Mathlib.Data.List.Sort
import Mathlib.Logic.Function.Basic

/-!
# The control-flow graph of a MIR body

The model of `loop_unroll/cfg.rs`: successor and predecessor lists of a body, the blocks
reachable from `bb0`, and the topological order. A `Vec` indexed by blocks is a function of the
block where the code writes single entries of it, and a list where it is built once.

`Cfg.WellFormed` says what `Cfg.fromBody` establishes (`fromBody_wellFormed`).
-/

namespace TrustMc.LoopUnroll

/-- The types of the MIR data that the pass carries along and never reads. -/
structure Mir where
  Operand : Type
  Place : Type
  AssertMessage : Type
  InlineAsm : Type
  Statement : Type
  Span : Type

inductive UnwindAction
  | continue
  | unreachable
  | terminate
  | cleanup (bb : ℕ)
  deriving DecidableEq

inductive TerminatorKind (M : Mir)
  | goto (target : ℕ)
  | switchInt (discr : M.Operand) (branches : List (ℕ × ℕ)) (otherwise : ℕ)
  | resume
  | abort
  | return
  | unreachable
  | drop (place : M.Place) (target : ℕ) (unwind : UnwindAction)
  | call (func : M.Operand) (args : List M.Operand) (destination : M.Place)
      (target : Option ℕ) (unwind : UnwindAction)
  | assert (cond : M.Operand) (expected : Bool) (msg : M.AssertMessage) (target : ℕ)
      (unwind : UnwindAction)
  | inlineAsm (asm : M.InlineAsm) (destination : Option ℕ) (unwind : UnwindAction)

structure Terminator (M : Mir) where
  kind : TerminatorKind M
  span : M.Span

structure BasicBlock (M : Mir) where
  statements : List M.Statement
  terminator : Terminator M

structure Body (M : Mir) where
  blocks : List (BasicBlock M)

structure Cfg where
  successors : List (List ℕ)
  predecessors : List (List ℕ)
  reachable : ℕ → Bool
  topoOrder : List ℕ

namespace Cfg

/-- The number of blocks. -/
def size (cfg : Cfg) : ℕ := cfg.successors.length

def succs (cfg : Cfg) (v : ℕ) : List ℕ := cfg.successors.getD v []

def preds (cfg : Cfg) (v : ℕ) : List ℕ := cfg.predecessors.getD v []

/-- The edges of the graph. -/
def Edge (cfg : Cfg) (v w : ℕ) : Prop := w ∈ cfg.succs v

end Cfg

/-! ### Construction -/

/-- The targets of a terminator, in the order the code lists them; unwind targets are no
successors. -/
def TerminatorKind.targets {M : Mir} : TerminatorKind M → List ℕ
  | .goto target => [target]
  | .switchInt _ branches otherwise => branches.map Prod.snd ++ [otherwise]
  | .drop _ target _ => [target]
  | .call _ _ _ target _ => target.toList
  | .assert _ _ _ target _ => [target]
  | .return | .unreachable => []
  | .resume | .abort => []
  | .inlineAsm _ destination _ => destination.toList

/-- `Vec::dedup`: drop an element equal to the one before it. -/
def dedup : List ℕ → List ℕ
  | [] => []
  | [a] => [a]
  | a :: b :: l => if a = b then dedup (b :: l) else a :: dedup (b :: l)

def sortDedup (l : List ℕ) : List ℕ := dedup (l.insertionSort (· ≤ ·))

/-- The blocks with an edge to `dst`; each source lists `dst` once, so `push` adds it once. -/
def predecessorsOf (successors : List (List ℕ)) (dst : ℕ) : List ℕ :=
  successors.zipIdx.flatMap fun (succs, src) => (succs.filter (· = dst)).map fun _ => src

/-- The blocks reachable from `bb0`, searched breadth first: `push_back` queues at the end.
Every block is queued once at most, so the loop ends within as many rounds. -/
def reachableBlocks (successors : List (List ℕ)) : ℕ → Bool :=
  Flow.search (fun q succ => q ++ [succ]) (fun bb => successors.getD bb []) successors.length
    (fun bb => bb == 0) [0]

/-- The edges out of one block are counted at their targets. -/
def countEdges (reachable : ℕ → Bool) (indegree : ℕ → ℕ) (succs : List ℕ) : ℕ → ℕ :=
  succs.foldl
    (fun indegree succ =>
      if reachable succ then Function.update indegree succ (indegree succ + 1) else indegree)
    indegree

/-- The numbers of edges between reachable blocks. -/
def indegrees (successors : List (List ℕ)) (reachable : ℕ → Bool) : ℕ → ℕ :=
  (List.range successors.length).foldl
    (fun indegree bb =>
      if !reachable bb then indegree
      else countEdges reachable indegree (successors.getD bb []))
    fun _ => 0

/-- The edges out of a finished block are taken off; a block without edges left is queued. -/
def topoRelax (reachable : ℕ → Bool) (indegree : ℕ → ℕ) (q : List ℕ) :
    List ℕ → (ℕ → ℕ) × List ℕ
  | [] => (indegree, q)
  | succ :: succs =>
    if !reachable succ then topoRelax reachable indegree q succs
    else
      let indegree := Function.update indegree succ (indegree succ - 1)
      topoRelax reachable indegree (if indegree succ = 0 then q ++ [succ] else q) succs

def topoLoop (successors : List (List ℕ)) (reachable : ℕ → Bool) :
    ℕ → (ℕ → ℕ) → List ℕ → List ℕ → List ℕ
  | 0, _, _, order => order
  | _ + 1, _, [], order => order
  | fuel + 1, indegree, bb :: q, order =>
    let (indegree, q) := topoRelax reachable indegree q (successors.getD bb [])
    topoLoop successors reachable fuel indegree q (order ++ [bb])

def topoSort (successors : List (List ℕ)) (reachable : ℕ → Bool) : List ℕ :=
  let indegree := indegrees successors reachable
  let q := (List.range successors.length).filter fun bb => reachable bb && indegree bb == 0
  topoLoop successors reachable successors.length indegree q []

/-- The graph of the given successor lists. -/
def Cfg.ofSuccessors (successors : List (List ℕ)) : Cfg :=
  let predecessors :=
    (List.range successors.length).map fun dst => sortDedup (predecessorsOf successors dst)
  let reachable := reachableBlocks successors
  { successors, predecessors, reachable, topoOrder := topoSort successors reachable }

def Cfg.fromBody {M : Mir} (body : Body M) : Cfg :=
  Cfg.ofSuccessors (body.blocks.map fun block => sortDedup block.terminator.kind.targets)

def Cfg.reachableCount (cfg : Cfg) : ℕ := (List.range cfg.size).countP cfg.reachable

def Cfg.isAcyclic (cfg : Cfg) : Bool := cfg.topoOrder.length == cfg.reachableCount

/-! ### Well-formed graphs -/

/-- What `Cfg::from_body` establishes: the targets are blocks, predecessors are the sources of
the edges, and the blocks marked reachable are those on paths from `bb0`. -/
structure Cfg.WellFormed (cfg : Cfg) : Prop where
  nonempty : 0 < cfg.size
  lt_of_edge : ∀ {v w}, cfg.Edge v w → w < cfg.size
  mem_preds : ∀ {v w}, v ∈ cfg.preds w ↔ cfg.Edge v w
  reachable_iff : ∀ {v}, cfg.reachable v = true ↔ Flow.Reachable cfg.Edge 0 v

theorem mem_dedup {a : ℕ} {l : List ℕ} : a ∈ dedup l ↔ a ∈ l := by
  induction l using dedup.induct with
  | case1 => simp [dedup]
  | case2 => simp [dedup]
  | case3 a l ih => simp [dedup, ih]
  | case4 a b l hne ih => simp [dedup, hne, ih]

@[simp] theorem mem_sortDedup {a : ℕ} {l : List ℕ} : a ∈ sortDedup l ↔ a ∈ l := by
  rw [sortDedup, mem_dedup, List.mem_insertionSort]

theorem pairwise_lt_dedup {l : List ℕ} (h : l.Pairwise (· ≤ ·)) : (dedup l).Pairwise (· < ·) := by
  induction l using dedup.induct with
  | case1 => exact .nil
  | case2 a => exact List.pairwise_singleton _ a
  | case3 a l ih =>
    rw [dedup, if_pos rfl]
    exact ih h.of_cons
  | case4 a b l hne ih =>
    rw [dedup, if_neg hne]
    obtain ⟨ha, hl⟩ := List.pairwise_cons.1 h
    have hab : a < b := lt_of_le_of_ne (ha b List.mem_cons_self) hne
    refine List.pairwise_cons.2 ⟨fun x hx => ?_, ih hl⟩
    rcases List.mem_cons.1 (mem_dedup.1 hx) with rfl | hx
    · exact hab
    · exact hab.trans_le ((List.pairwise_cons.1 hl).1 x hx)

theorem pairwise_lt_sortDedup (l : List ℕ) : (sortDedup l).Pairwise (· < ·) :=
  pairwise_lt_dedup (List.pairwise_insertionSort _ l)

/-- A block with an edge lies in the body. -/
theorem Cfg.Edge.source_lt {cfg : Cfg} {v w : ℕ} (h : cfg.Edge v w) : v < cfg.size := by
  by_contra hv
  have hnone : cfg.successors[v]? = none := List.getElem?_eq_none (Nat.le_of_not_lt hv)
  simp [Cfg.Edge, Cfg.succs, List.getD_eq_getElem?_getD, hnone] at h

/-- A reachable block lies in the body. -/
theorem Cfg.WellFormed.lt_of_reachable {cfg : Cfg} (hcfg : cfg.WellFormed) {v : ℕ}
    (h : Flow.Reachable cfg.Edge 0 v) : v < cfg.size := by
  obtain ⟨p, hp⟩ := h
  cases hp with
  | start => exact hcfg.nonempty
  | step _ hE => exact hcfg.lt_of_edge hE

theorem mem_predecessorsOf {successors : List (List ℕ)} {v w : ℕ} :
    v ∈ predecessorsOf successors w ↔ w ∈ successors.getD v [] := by
  simp only [predecessorsOf, List.mem_flatMap, List.mem_map, List.mem_filter, Prod.exists,
    List.mem_zipIdx_iff_getElem?]
  constructor
  · rintro ⟨succs, src, hs, x, ⟨hx, hxw⟩, rfl⟩
    obtain rfl : x = w := by simpa using hxw
    simpa [List.getD_eq_getElem?_getD, hs] using hx
  · intro h
    rw [List.getD_eq_getElem?_getD] at h
    cases hs : successors[v]? with
    | none => simp [hs] at h
    | some succs => exact ⟨succs, v, hs, w, ⟨by simpa [hs] using h, by simp⟩, rfl⟩

section Wf

variable {successors : List (List ℕ)}

theorem reachableBlocks_iff (hlt : ∀ v, ∀ w ∈ successors.getD v [], w < successors.length)
    (hne : 0 < successors.length) {v : ℕ} :
    reachableBlocks successors v = true ↔
      Flow.Reachable (fun v w => w ∈ successors.getD v []) 0 v := by
  have henq : ∀ (q : List ℕ) (succ x : ℕ), x ∈ q ++ [succ] ↔ x ∈ q ∨ (x = succ ∧ True) := by simp
  constructor
  · refine Flow.search_sound henq (fun v hv w hw => hv.step hw) (fun v hv => ?_) (fun v hv => ?_)
    · obtain rfl : v = 0 := by simpa using hv
      exact .entry
    · obtain rfl : v = 0 := by simpa using hv
      exact .entry
  · -- by induction on the path: the marks are closed under successors
    rintro ⟨p, hp⟩
    induction hp with
    | start => exact Flow.search_mono (by simp)
    | @step u v p _ huv ih =>
      refine Flow.search_closed henq (by simp) hlt ?_ (fun x hx _ => ?_) ih trivial v huv
      · have hinit : Function.update (fun _ => false) 0 true = fun bb => bb == 0 := by
          funext bb
          by_cases hbb : bb = 0 <;> simp [hbb]
        have hpot : Flow.unmarked successors.length (Function.update (fun _ => false) 0 true) + 1 =
            Flow.unmarked successors.length fun _ => false := Flow.unmarked_update hne rfl
        have := Flow.unmarked_le successors.length fun _ => false
        rw [hinit] at hpot
        simp only [List.length_singleton]
        omega
      · exact .inl (by simpa using hx)

/-- The graph of successor lists whose targets are blocks is well-formed. -/
theorem Cfg.ofSuccessors_wellFormed (hne : 0 < successors.length)
    (hlt : ∀ v, ∀ w ∈ successors.getD v [], w < successors.length) :
    (Cfg.ofSuccessors successors).WellFormed where
  nonempty := hne
  lt_of_edge := fun {v w} h => hlt v w h
  mem_preds := fun {v w} => by
    have hpreds : (Cfg.ofSuccessors successors).preds w = ((List.range successors.length).map
      fun dst => sortDedup (predecessorsOf successors dst)).getD w [] := rfl
    have hedge : (Cfg.ofSuccessors successors).Edge v w ↔ w ∈ successors.getD v [] := Iff.rfl
    rw [hpreds, hedge, List.getD_eq_getElem?_getD, List.getElem?_map]
    by_cases hw : w < successors.length
    · rw [List.getElem?_range hw]
      simp [mem_predecessorsOf]
    · rw [List.getElem?_eq_none (by simpa using hw)]
      exact iff_of_false (by simp) fun h => hw (hlt v w h)
  reachable_iff := reachableBlocks_iff hlt hne

end Wf

end TrustMc.LoopUnroll
