import TrustMc.Flow.MustAnalysis
import TrustMc.LoopUnroll.Cfg
import Mathlib.Data.Fintype.Order
import Mathlib.Data.Fintype.Pi

/-!
# Dead locals at block entries

The model of `codegen_ctx_dead_locals.rs`: which locals have no storage at the entry of a block.
A local loses its storage at a `StorageDead` and gets it back at a `StorageLive`; a frame may
leave out what is dead on every way into its block.

The analysis starts from everything dead outside the entry block and repeats rounds over the
reachable blocks until nothing changes. `dead_locals_exact` says that it ends with the meet over
all paths.
-/

namespace TrustMc.Mir

open LoopUnroll (Mir TerminatorKind UnwindAction sortDedup reachableBlocks)

/-- Statements, told apart by what they do to the storage of the `n` locals. -/
inductive StatementKind (n : ℕ) (S : Type)
  | storageLive (l : Fin n)
  | storageDead (l : Fin n)
  | other (s : S)

/-- MIR data whose statements show what they do to storage. -/
abbrev withStorage (M : Mir) (n : ℕ) : Mir := { M with Statement := StatementKind n M.Statement }

/-! ### Bodies -/

/-- The cleanup block of an unwind action. -/
def cleanup : UnwindAction → List ℕ
  | .cleanup bb => [bb]
  | _ => []

/-- `ChcCtx::block_successors`: targets and cleanup blocks, sorted and without repeats. -/
def blockSuccessors {M : Mir} (kind : TerminatorKind M) : List ℕ :=
  sortDedup <|
    match kind with
    | .goto target => [target]
    | .switchInt _ branches otherwise => branches.map Prod.snd ++ [otherwise]
    | .drop _ target unwind => [target] ++ cleanup unwind
    | .call _ _ _ target unwind => target.toList ++ cleanup unwind
    | .assert _ _ _ target unwind => [target] ++ cleanup unwind
    | .return | .unreachable | .resume | .abort => []
    | .inlineAsm _ destination _ => destination.toList

/-- A body whose storage statements name its locals and whose terminators name its blocks. -/
structure Body (M : Mir) where
  localCount : ℕ
  blocks : List (LoopUnroll.BasicBlock (withStorage M localCount))
  target_lt : ∀ block ∈ blocks, ∀ t ∈ blockSuccessors block.terminator.kind, t < blocks.length

namespace Body

variable {M : Mir} (body : Body M)

/-- `block_count`. -/
abbrev blockCount : ℕ := body.blocks.length

def successors : List (List ℕ) :=
  body.blocks.map fun block => blockSuccessors block.terminator.kind

/-- Control may pass from one block to the other. -/
def Edge (v w : ℕ) : Prop := w ∈ body.successors.getD v []

def statements (bb : ℕ) : List (StatementKind body.localCount M.Statement) :=
  (body.blocks[bb]?.map (·.statements)).getD []

/-- The sources of the edges into a block; each lists it once, so `push` adds it once. -/
def predecessors (bb : Fin body.blockCount) : List (Fin body.blockCount) :=
  (List.finRange body.blockCount).filter fun src => bb.val ∈ body.successors.getD src []

def reachable (bb : ℕ) : Bool := reachableBlocks body.successors bb

end Body

/-! ### The analysis -/

/-- `apply_dead_local_transfer_into`. -/
def applyDeadLocalTransfer {n : ℕ} {S : Type} (stmts : List (StatementKind n S))
    (deadIn : Fin n → Bool) : Fin n → Bool :=
  stmts.foldl
    (fun out stmt =>
      match stmt with
      | .storageLive l => Function.update out l false
      | .storageDead l => Function.update out l true
      | .other _ => out)
    deadIn

section Analysis

variable {M : Mir} (body : Body M)

/-- `dead_in`: a table of flags for each block. -/
abbrev DeadIn : Type := Fin body.blockCount → Fin body.localCount → Bool

/-- Everything is dead, except at the entry and where the entry does not lead. -/
def initialDeadIn : DeadIn body := fun bb _ => !(bb.val == 0 || !body.reachable bb)

/-- `dead_out`, of which only the reachable blocks are read. -/
def deadOut (deadIn : DeadIn body) : DeadIn body := fun bb =>
  applyDeadLocalTransfer (body.statements bb) (deadIn bb)

/-- `new_in`: the join over the reachable predecessors. -/
def newIn (deadIn : DeadIn body) (bb : Fin body.blockCount) : Fin body.localCount → Bool :=
  let preds := (body.predecessors bb).filter fun pred => body.reachable pred.val
  fun l => !preds.isEmpty && preds.all fun pred => deadOut body deadIn pred l

/-- One round of the loop. It reads `dead_out` as it was before the round, so that the order in
which it writes the blocks does not matter. -/
def round (deadIn : DeadIn body) : DeadIn body := fun bb =>
  if 1 ≤ bb.val ∧ body.reachable bb = true then newIn body deadIn bb else deadIn bb

/-! ### Rounds descend -/

/-- What the statements of a block say last about the storage of a local: dead, or live. -/
def lastStorage {n : ℕ} {S : Type} (l : Fin n) (stmts : List (StatementKind n S)) : Option Bool :=
  (stmts.filterMap fun stmt =>
    match stmt with
    | .storageLive l' => if l' = l then some false else none
    | .storageDead l' => if l' = l then some true else none
    | .other _ => none).getLast?

theorem lastStorage_append {n : ℕ} {S : Type} {l : Fin n} (a b : List (StatementKind n S)) :
    lastStorage l (a ++ b) = (lastStorage l b).or (lastStorage l a) := by
  rw [lastStorage, List.filterMap_append, List.getLast?_append, lastStorage, lastStorage]

theorem applyDeadLocalTransfer_apply {n : ℕ} {S : Type} (stmts : List (StatementKind n S))
    (deadIn : Fin n → Bool) (l : Fin n) :
    applyDeadLocalTransfer stmts deadIn l = (lastStorage l stmts).getD (deadIn l) := by
  -- statement by statement, the last one outermost
  induction stmts using List.reverseRecOn with
  | nil => rfl
  | append_singleton stmts stmt ih =>
    rw [lastStorage_append, applyDeadLocalTransfer, List.foldl_append]
    change (match stmt with
      | .storageLive l => Function.update (applyDeadLocalTransfer stmts deadIn) l false
      | .storageDead l => Function.update (applyDeadLocalTransfer stmts deadIn) l true
      | .other _ => applyDeadLocalTransfer stmts deadIn) l = _
    cases stmt with
    | storageLive l' =>
      by_cases hl : l' = l
      · simp [lastStorage, hl]
      · simp [lastStorage, hl, Function.update_of_ne (Ne.symm hl), ih]
    | storageDead l' =>
      by_cases hl : l' = l
      · simp [lastStorage, hl]
      · simp [lastStorage, hl, Function.update_of_ne (Ne.symm hl), ih]
    | other s => simp [lastStorage, ih]

variable {body}

theorem deadOut_eq_true_iff {deadIn : DeadIn body} {bb : Fin body.blockCount}
    {l : Fin body.localCount} :
    deadOut body deadIn bb l = true ↔
      Flow.Passes (lastStorage l (body.statements bb)) (deadIn bb l = true) := by
  rw [deadOut, applyDeadLocalTransfer_apply, Flow.Passes]
  cases lastStorage l (body.statements bb) <;> simp

theorem mem_predecessors {u v : Fin body.blockCount} :
    u ∈ body.predecessors v ↔ body.Edge u v := by
  simp [Body.predecessors, Body.Edge]

theorem newIn_eq_true_iff {deadIn : DeadIn body} {bb : Fin body.blockCount}
    {l : Fin body.localCount} :
    newIn body deadIn bb l = true ↔
      (∃ u : Fin body.blockCount, body.Edge u bb ∧ body.reachable u = true) ∧
      ∀ u : Fin body.blockCount, body.Edge u bb → body.reachable u = true →
        Flow.Passes (lastStorage l (body.statements u)) (deadIn u l = true) := by
  simp only [newIn, Bool.and_eq_true, Bool.not_eq_true', List.isEmpty_eq_false_iff_exists_mem,
    List.mem_filter, mem_predecessors, List.all_eq_true, deadOut_eq_true_iff, and_imp]

theorem round_monotone : Monotone (round body) := by
  intro d d' hle bb l
  rw [Bool.le_iff_imp]
  rw [round, round]
  split_ifs with h
  · simp only [newIn_eq_true_iff]
    refine And.imp_right fun hall u hu hr => ?_
    exact (hall u hu hr).imp_right (And.imp_right (Bool.le_iff_imp.1 (hle u l)))
  · exact Bool.le_iff_imp.1 (hle bb l)

theorem round_initialDeadIn_le : round body (initialDeadIn body) ≤ initialDeadIn body := by
  intro bb l
  rw [round]
  split_ifs with h
  · have htop : initialDeadIn body bb l = true := by
      have hne : bb.val ≠ 0 := by omega
      simp [initialDeadIn, hne, h.2]
    rw [htop]
    exact Bool.le_true _
  · exact le_rfl

end Analysis

/-- The flags when a round changes nothing; every other round clears some of them for good. -/
def finalDeadIn {M : Mir} (body : Body M) : DeadIn body :=
  Flow.descend (round body) round_monotone (initialDeadIn body) round_initialDeadIn_le

/-- `compute_dead_locals_at_block_entry`. -/
def computeDeadLocalsAtBlockEntry {M : Mir} (body : Body M) : List (List ℕ) :=
  (List.finRange body.blockCount).map fun bb =>
    ((List.finRange body.localCount).filter fun l => finalDeadIn body bb l).map Fin.val

/-! ### The meet over paths -/

section Exact

variable {M : Mir} {body : Body M}

theorem Body.Edge.target_lt {v w : ℕ} (h : body.Edge v w) : w < body.blockCount := by
  rw [Body.Edge, Body.successors, List.getD_eq_getElem?_getD, List.getElem?_map] at h
  cases hb : body.blocks[v]? with
  | none => simp [hb] at h
  | some block => exact body.target_lt block (List.mem_of_getElem? hb) w (by simpa [hb] using h)

theorem Body.Edge.source_lt {v w : ℕ} (h : body.Edge v w) : v < body.blockCount := by
  by_contra hv
  have hnone : body.successors[v]? = none := by simpa [Body.successors] using hv
  simp [Body.Edge, List.getD_eq_getElem?_getD, hnone] at h

theorem reachable_iff (hne : 0 < body.blockCount) {v : ℕ} :
    body.reachable v = true ↔ Flow.Reachable body.Edge 0 v :=
  LoopUnroll.reachableBlocks_iff
    (fun _ _ h => by simpa [Body.successors] using Body.Edge.target_lt h)
    (by simpa [Body.successors] using hne)

/-- The storage statements of a path to a block, those of the block itself left out. -/
def Body.along (body : Body M) (p : List ℕ) : List (StatementKind body.localCount M.Statement) :=
  p.tail.reverse.flatMap body.statements

theorem lastStorage_along (l : Fin body.localCount) (p : List ℕ) :
    lastStorage l (body.along p) =
      p.tail.findSome? fun bb => lastStorage l (body.statements bb) := by
  rw [Body.along]
  induction p.tail with
  | nil => rfl
  | cons bb p ih =>
    rw [List.reverse_cons, List.flatMap_append, lastStorage_append, ih, List.findSome?_cons]
    cases h : lastStorage l (body.statements bb) <;> simp [h]

variable (body) in
/-- The flag of a block, false outside the body. -/
def Flagged (l : Fin body.localCount) (v : ℕ) : Prop :=
  ∃ h : v < body.blockCount, finalDeadIn body ⟨v, h⟩ l = true

theorem not_flagged_entry {l : Fin body.localCount} : ¬ Flagged body l 0 := by
  rintro ⟨h, hflag⟩
  have hentry : finalDeadIn body ⟨0, h⟩ l = false :=
    Flow.descend_induction (P := fun d : DeadIn body => d ⟨0, h⟩ l = false)
      (fun d hd => by simpa [round] using hd) (by simp [initialDeadIn])
  simp [hentry] at hflag

/-- The final flags satisfy the equations of a round. -/
theorem finalDeadIn_eq_true_iff {v : Fin body.blockCount} {l : Fin body.localCount}
    (hv : 1 ≤ v.val) (hr : body.reachable v = true) :
    finalDeadIn body v l = true ↔ newIn body (finalDeadIn body) v l = true := by
  have hfix : round body (finalDeadIn body) = finalDeadIn body := Flow.apply_descend
  conv_lhs => rw [← hfix]
  rw [round, if_pos ⟨hv, hr⟩]

theorem Flagged.passes {l : Fin body.localCount} {u v : ℕ} (hu : Flow.Reachable body.Edge 0 u)
    (hE : body.Edge u v) (hv : Flagged body l v) :
    Flow.Passes (lastStorage l (body.statements u)) (Flagged body l u) := by
  obtain ⟨hlt, hflag⟩ := hv
  have hpos : 0 < body.blockCount := by omega
  have hr : ∀ {w}, Flow.Reachable body.Edge 0 w → body.reachable w = true :=
    (reachable_iff hpos).2
  have hv : 1 ≤ v := by
    by_contra hv
    obtain rfl : v = 0 := by omega
    exact not_flagged_entry ⟨hlt, hflag⟩
  rw [finalDeadIn_eq_true_iff (v := ⟨v, hlt⟩) hv (hr (hu.step hE)), newIn_eq_true_iff] at hflag
  exact (hflag.2 ⟨u, hE.source_lt⟩ hE (hr hu)).imp_right (And.imp_right fun h => ⟨_, h⟩)

/-- No round clears a flag that the meet over paths keeps. -/
theorem flagged_of_meetOverPaths {l : Fin body.localCount} {v : ℕ} (hlt : v < body.blockCount)
    (hv : Flow.Reachable body.Edge 0 v)
    (hmeet : Flow.MeetOverPaths body.Edge 0 (fun bb => lastStorage l (body.statements bb)) v) :
    Flagged body l v := by
  have hpos : 0 < body.blockCount := by omega
  refine ⟨hlt, ?_⟩
  have hall : ∀ v : Fin body.blockCount, Flow.Reachable body.Edge 0 v →
      Flow.MeetOverPaths body.Edge 0 (fun bb => lastStorage l (body.statements bb)) v →
      finalDeadIn body v l = true := by
    refine Flow.descend_induction (P := fun d : DeadIn body => ∀ v : Fin body.blockCount,
      Flow.Reachable body.Edge 0 v →
      Flow.MeetOverPaths body.Edge 0 (fun bb => lastStorage l (body.statements bb)) v →
      d v l = true) ?_ ?_
    · intro d ih v hv hmeet
      rw [round]
      split_ifs with h
      · refine newIn_eq_true_iff.2 ⟨?_, fun u hu hr => ?_⟩
        · -- a path to a block other than the entry has a last edge
          rcases hv.eq_or_edge with h0 | ⟨u, hu, hE⟩
          · omega
          · exact ⟨⟨u, hE.source_lt⟩, hE, (reachable_iff hpos).2 hu⟩
        · have hu' := (reachable_iff hpos).1 hr
          exact (hmeet.passes hu' hu).imp_right (And.imp_right (ih u hu'))
      · exact ih v hv hmeet
    · intro v hv hmeet
      have hne : v.val ≠ 0 := fun h0 => Flow.not_meetOverPaths_entry (h0 ▸ hmeet)
      simp [initialDeadIn, hne, (reachable_iff hpos).2 hv]
  exact hall ⟨v, hlt⟩ hv hmeet

theorem mem_computeDeadLocals {l : Fin body.localCount} {v : ℕ} :
    l.val ∈ (computeDeadLocalsAtBlockEntry body).getD v [] ↔ Flagged body l v := by
  rw [computeDeadLocalsAtBlockEntry, List.getD_eq_getElem?_getD, List.getElem?_map, Flagged]
  by_cases hv : v < body.blockCount
  · simp [hv, Fin.val_inj]
  · simp [hv]

/-- A local is reported dead at the entry of a block exactly when on every path to the block the
last storage statement of the local is a `StorageDead`. -/
theorem dead_locals_exact (body : Body M) {v : ℕ} (hv : Flow.Reachable body.Edge 0 v)
    (l : Fin body.localCount) :
    l.val ∈ (computeDeadLocalsAtBlockEntry body).getD v [] ↔
      ∀ p, Flow.Path body.Edge 0 v p → lastStorage l (body.along p) = some true := by
  simp only [mem_computeDeadLocals, lastStorage_along]
  constructor
  · intro h
    exact Flow.meetOverPaths_of_passes not_flagged_entry
      (fun hu hE hd => Flagged.passes hu hE hd) h
  · intro h
    refine flagged_of_meetOverPaths ?_ hv h
    rcases hv.eq_or_edge with rfl | ⟨u, -, hE⟩
    · exact absurd h Flow.not_meetOverPaths_entry
    · exact hE.target_lt

/-- One local, used in front of a loop that ends its storage again and again. -/
def spentLocal : Body ⟨Unit, Unit, Unit, Unit, Unit, Unit⟩ where
  localCount := 1
  blocks :=
    [⟨[.storageLive 0], ⟨.goto 1, ()⟩⟩,
      ⟨[.storageDead 0, .other ()], ⟨.switchInt () [(0, 1)] 2, ()⟩⟩,
      ⟨[], ⟨.return, ()⟩⟩]
  target_lt := by decide

/-- The local is dead when the loop ends. -/
theorem dead_locals_exact_spentLocal :
    0 ∈ (computeDeadLocalsAtBlockEntry spentLocal).getD 2 [] := by
  have hinto : ∀ u < 3, 2 ∈ spentLocal.successors.getD u [] → u = 1 := by decide
  have hreach : Flow.Reachable spentLocal.Edge 0 2 :=
    (Flow.Reachable.entry.step (v := 1) (show 1 ∈ spentLocal.successors.getD 0 [] by decide)).step
      (show 2 ∈ spentLocal.successors.getD 1 [] by decide)
  refine (dead_locals_exact spentLocal hreach (0 : Fin 1)).2 fun p hp => ?_
  rcases hp with _ | ⟨hp, hE⟩
  obtain rfl := hinto _ hE.source_lt hE
  refine (@lastStorage_along _ spentLocal (0 : Fin 1) _).trans ?_
  rw [List.tail_cons, hp.eq_cons, List.findSome?_cons]
  rfl

end Exact

end TrustMc.Mir
