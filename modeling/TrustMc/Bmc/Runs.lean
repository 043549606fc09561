import TrustMc.Bmc.Blocks
import TrustMc.LoopUnroll.UnrollExact

/-!
# Runs of the encoding

The blocks of a function in topological order, and a run of the function beside them: where the
assignment of the variables meets the constraints, the run it encodes is at one of the blocks
that are still to come, or has ended.

* `Function.Sorted`: the order of the blocks, which `topoOrder` is (`sorted_topoOrder`).
* `Point`: the state between two blocks, which every block keeps (`Point.step`).
* `Tracks`: where the run is. **A block moves the run on if it is the block of the run**, and
  leaves it alone otherwise (`Tracks.step`).
-/

namespace TrustMc.Bmc

open LoopUnroll Arithmetic Machine Carriers Carriers.Val TrustMc.Expr

/-! ### The order of the blocks -/

namespace Function

variable (f : Function)

/-- The blocks to come after those that are done: each is the entry or has a predecessor that is
done, and its targets come later. -/
def Sorted (done : List ℕ) : List ℕ → Prop
  | [] => True
  | b :: rest =>
    (b = 0 ∨ ∃ u ∈ done, f.body.Edge false u b) ∧ b ∉ rest ∧ b < f.body.blocks.length ∧
      (∀ t, f.body.Edge false b t → t ∈ rest) ∧ Sorted (done ++ [b]) rest

variable {f}

theorem mem_targets_iff {b t : ℕ} {block : BasicBlock scalarMir}
    (hblock : f.body.blocks[b]? = some block) :
    t ∈ block.terminator.kind.targets ↔ f.body.Edge false b t := by
  simp [Body.Edge, hblock, TerminatorKind.exits]

/-- A complete order: every reachable block once, the targets of edges after their sources. -/
theorem topoOrder_spec {cfg : Cfg} (hcfg : Cfg.fromBody f.body = cfg) (hv : f.body.Valid)
    (hacyclic : cfg.isAcyclic = true) :
    cfg.topoOrder.Nodup ∧ (∀ v, v ∈ cfg.topoOrder ↔ Flow.Reachable cfg.Edge 0 v) ∧
      ∀ u w, Flow.Reachable cfg.Edge 0 u → cfg.Edge u w →
        cfg.topoOrder.idxOf u < cfg.topoOrder.idxOf w := by
  have hwf : cfg.WellFormed := hcfg ▸ fromBody_wellFormed hv
  have hlt : ∀ v, cfg.reachable v = true → v < cfg.size := fun v hv =>
    hwf.lt_of_reachable (hwf.reachable_iff.1 hv)
  obtain ⟨hnodup, hreach, hsorted⟩ : cfg.topoOrder.Nodup ∧
      (∀ w ∈ cfg.topoOrder, cfg.reachable w = true) ∧
      ∀ u w, w ∈ cfg.topoOrder → cfg.reachable u = true → cfg.Edge u w →
        cfg.topoOrder.idxOf u < cfg.topoOrder.idxOf w := by
    subst hcfg
    exact topoSort_spec hlt
  have hsub : cfg.topoOrder.toFinset ⊆ ((List.range cfg.size).filter cfg.reachable).toFinset := by
    intro v hv
    have hv := hreach v (List.mem_toFinset.1 hv)
    simp [hlt v hv, hv]
  have hlen : cfg.topoOrder.length = (List.range cfg.size).countP cfg.reachable :=
    eq_of_beq hacyclic
  -- the order and the reachable blocks are equally many
  have heq := Finset.eq_of_subset_of_card_le hsub (by
    rw [List.toFinset_card_of_nodup hnodup,
      List.toFinset_card_of_nodup (List.Nodup.filter _ List.nodup_range), hlen,
      List.countP_eq_length_filter])
  have hmem : ∀ v, v ∈ cfg.topoOrder ↔ Flow.Reachable cfg.Edge 0 v := by
    intro v
    rw [← hwf.reachable_iff, ← List.mem_toFinset, heq, List.mem_toFinset, List.mem_filter,
      List.mem_range]
    exact and_iff_right_of_imp (hlt v)
  exact ⟨hnodup, hmem, fun u w hu hE => hsorted u w ((hmem w).2 (hu.step hE))
    (hwf.reachable_iff.2 hu) hE⟩

/-- **The topological order is sorted.** -/
theorem sorted_topoOrder (hv : f.body.Valid)
    (hacyclic : (Cfg.fromBody f.body).isAcyclic = true) :
    f.Sorted [] (Cfg.fromBody f.body).topoOrder := by
  obtain ⟨hnodup, hmem, hsorted⟩ := topoOrder_spec rfl hv hacyclic
  have hcfg := fromBody_wellFormed hv
  generalize horder : (Cfg.fromBody f.body).topoOrder = order at hnodup hmem hsorted ⊢
  suffices h : ∀ rest done, order = done ++ rest → f.Sorted done rest from h order [] rfl
  intro rest
  induction rest with
  | nil => exact fun _ _ => trivial
  | cons b rest ih =>
    intro done ho
    have hb : Flow.Reachable (Cfg.fromBody f.body).Edge 0 b := (hmem b).1 (by simp [ho])
    have hidx : order.idxOf b = done.length := by
      have hbdone : b ∉ done := fun hb => by
        rw [ho] at hnodup
        exact (List.nodup_append.1 hnodup).2.2 b hb b List.mem_cons_self rfl
      rw [ho, List.idxOf_append_of_notMem hbdone, List.idxOf_cons_self, Nat.add_zero]
    have hbefore : ∀ u, u ∈ order → order.idxOf u < order.idxOf b → u ∈ done := by
      intro u hu hlt
      by_contra hnot
      rw [hidx, ho, List.idxOf_append_of_notMem hnot] at hlt
      omega
    refine ⟨?_, ?_, ?_, fun t ht => ?_, ih (done ++ [b]) (by simp [ho])⟩
    · obtain ⟨p, hp⟩ := hb
      cases hp with
      | start => exact .inl rfl
      | @step u _ p hp hE =>
        exact .inr ⟨u, hbefore u ((hmem u).2 ⟨p, hp⟩) (hsorted u b ⟨p, hp⟩ hE), fromBody_edge.1 hE⟩
    · rw [ho] at hnodup
      exact (List.nodup_cons.1 (List.nodup_append.1 hnodup).2.1).1
    · rw [← fromBody_size]
      exact hcfg.lt_of_reachable hb
    · have hE : (Cfg.fromBody f.body).Edge b t := fromBody_edge.2 ht
      have ht : t ∈ order := (hmem t).2 (hb.step hE)
      have hlt := hsorted b t hb hE
      rw [ho] at ht
      rcases List.mem_append.1 ht with htdone | ht
      · rw [hidx, ho, List.idxOf_append_of_mem htdone] at hlt
        exact absurd (List.idxOf_lt_length_iff.2 htdone) (by omega)
      · rcases List.mem_cons.1 ht with rfl | ht
        · exact absurd hlt (lt_irrefl _)
        · exact ht

end Function

namespace StatementCodegen

variable {f : Function} {config : Config} {S S₁ S₂ S₃ S' : StatementCodegen} {T : Theory}
  {ν ν' : T.Env} {b : ℕ} {done rest : List ℕ} {block : BasicBlock scalarMir}
  {succs : List (ℕ × Option Expr)} {input : Input}

/-! ### The state between two blocks -/

variable (f config) in
/-- The blocks that are done have recorded their edges to those that are to come. -/
structure Point (done todo : List ℕ) (S : StatementCodegen) : Prop where
  wf : S.Wf f config
  paths : ∀ b ∈ todo, S.blockPathConditions b = pathOf (S.incomingEdges b)
  recorded : ∀ b ∈ todo, ∀ u ∈ done, f.body.Edge false u b → S.incomingEdges b ≠ []

theorem Point.new (todo : List ℕ) : Point f config [] todo .new where
  wf := {
    constraints := by simp [StatementCodegen.new]
    violations := by simp [StatementCodegen.new]
    assumption := guardOk_none
    pathCondition := guardOk_none
    env := fun p e he => by cases he
    pathConditions := fun b g hg => by cases hg
    edges := by simp [StatementCodegen.new] }
  paths _ _ := rfl
  recorded := by simp

namespace Compiles

theorem pathCondition (h : Compiles f config b block S S₁ S₂ S₃ S' succs) :
    S₃.currentPathCondition = S₁.currentPathCondition :=
  h.leaves.grows.pathCondition.trans h.runs.grows.pathCondition

theorem edges_mono (h : Compiles f config b block S S₁ S₂ S₃ S' succs) {t : ℕ} (ht : t ≠ b)
    {edge : IncomingEdge} :
    edge ∈ S'.incomingEdges t ↔
      edge ∈ S.incomingEdges t ∨ ∃ succ ∈ succs, succ.1 = t ∧ edge = S₃.edgeTo succ.2 := by
  rw [h.records.edges, h.leaves.grows.edges, h.runs.grows.edges, h.entry.edges t ht]

theorem extension (h : Compiles f config b block S S₁ S₂ S₃ S' succs) :
    Extends (Free f config) (S.Known f config) (S'.Known f config) S.constraints
      S'.constraints := by
  have hthree := h.entry.extension.trans (h.runs.grows.extension.trans h.leaves.grows.extension)
  have hknown : ∀ n, S₃.Known f config n → S'.Known f config n :=
    Known.mono (fun p => (congrFun h.records.ssaVersion p).ge) (by rw [h.records.toAYCtx])
      (by rw [h.records.toAYCtx])
  rw [h.records.toAYCtx]
  exact hthree.trans (.of_known hknown)

end Compiles

/-- **A block**: its parts, and the state before the next one. -/
theorem Point.step (h : Point f config done (b :: rest) S) (hwt : f.WellTyped)
    (hinit : f.DefinitelyInitialized) (hsorted : f.Sorted done (b :: rest)) :
    ∃ block S₁ S₂ S₃ succs, f.body.blocks[b]? = some block ∧
      Compiles f config b block S S₁ S₂ S₃ (S.codegenBlock f config b) succs ∧
        Point f config (done ++ [b]) rest (S.codegenBlock f config b) := by
  obtain ⟨hpred, hnot, hlt, htargets, -⟩ := hsorted
  have hblock : f.body.blocks[b]? = some f.body.blocks[b] := List.getElem?_eq_getElem hlt
  have hedges : b ≠ 0 → S.incomingEdges b ≠ [] := by
    intro hb
    obtain ⟨u, hu, hE⟩ := hpred.resolve_left hb
    exact h.recorded b List.mem_cons_self u hu hE
  obtain ⟨S₁, S₂, S₃, succs, hc⟩ := codegenBlock_spec h.wf hwt hinit hedges hblock
  have hne : ∀ t ∈ rest, t ≠ b := fun t ht heq => hnot (heq ▸ ht)
  refine ⟨_, S₁, S₂, S₃, succs, hblock, hc, hc.wf, fun t ht => ?_, fun t ht u hu hE => ?_⟩
  · refine hc.records.paths t ?_
    rw [hc.leaves.grows.pathConditions, hc.leaves.grows.edges, hc.runs.grows.pathConditions,
      hc.runs.grows.edges, hc.entry.pathConditions, hc.entry.edges t (hne t ht)]
    exact h.paths t (List.mem_cons_of_mem _ ht)
  · rcases List.mem_append.1 hu with hu | hu
    · obtain ⟨edge, hedge⟩ := List.exists_mem_of_ne_nil _
        (h.recorded t (List.mem_cons_of_mem _ ht) u hu hE)
      exact List.ne_nil_of_mem ((hc.edges_mono (hne t ht)).2 (.inl hedge))
    · obtain rfl := List.mem_singleton.1 hu
      obtain ⟨succ, hsucc, heq⟩ := (hc.leaves.targets t).1 ((Function.mem_targets_iff hblock).2 hE)
      exact List.ne_nil_of_mem ((hc.edges_mono (hne t ht)).2 (.inr ⟨succ, hsucc, heq, rfl⟩))

/-- The blocks define fresh names only. -/
theorem Point.extension (hwt : f.WellTyped) (hinit : f.DefinitelyInitialized)
    (h : Point f config done rest S) (hsorted : f.Sorted done rest) :
    (S.codegenBlocks f config rest).Wf f config ∧
      Extends (Free f config) (S.Known f config) ((S.codegenBlocks f config rest).Known f config)
        S.constraints (S.codegenBlocks f config rest).constraints := by
  induction rest generalizing S done with
  | nil => exact ⟨h.wf, .refl⟩
  | cons b rest ih =>
    obtain ⟨block, S₁, S₂, S₃, succs, hblock, hc, hpoint⟩ := h.step hwt hinit hsorted
    obtain ⟨hwf, hext⟩ := ih hpoint hsorted.2.2.2.2
    exact ⟨hwf, hc.extension.trans hext⟩

/-! ### What a block does to a run -/

section Run

/-- The run takes an edge to the block. -/
def Enters (ν : T.Env) (S : StatementCodegen) (b : ℕ) : Prop :=
  b = 0 ∨ ∃ edge ∈ S.incomingEdges b, GuardHolds ν edge.edgePredicate

namespace Compiles

/-- The end of a block, with the edges recorded. -/
theorem meets_leaves (h : Compiles f config b block S S₁ S₂ S₃ S' succs) (hν : Meets ν S') :
    Meets ν S₃ := by
  rwa [Meets, h.records.toAYCtx] at hν

theorem flagged_iff (h : Compiles f config b block S S₁ S₂ S₃ S' succs) :
    Flagged ν S' ↔ Flagged ν S₃ := by rw [Flagged, Flagged, h.records.toAYCtx]

theorem assumes_iff (h : Compiles f config b block S S₁ S₂ S₃ S' succs) :
    Assumes ν S' ↔ Assumes ν S₃ := by rw [Assumes, Assumes, h.records.toAYCtx]

theorem flagged (h : Compiles f config b block S S₁ S₂ S₃ S' succs) (hS : Flagged ν S) :
    Flagged ν S' := by
  have hS₁ : Flagged ν S₁ := by rwa [Flagged, h.entry.violations]
  exact h.flagged_iff.2 (h.leaves.grows.flagged (h.runs.grows.flagged hS₁))

theorem assumes (h : Compiles f config b block S S₁ S₂ S₃ S' succs) (hν : Meets ν S')
    (hS' : Assumes ν S') : Assumes ν S := by
  have hν₃ := h.meets_leaves hν
  have hS₁ := h.runs.grows.assumes (h.leaves.grows.meets hν₃)
    (h.leaves.grows.assumes hν₃ (h.assumes_iff.1 hS'))
  rwa [Assumes, h.entry.assumption] at hS₁

/-- A block that the run does not get to does nothing. -/
theorem idle (h : Compiles f config b block S S₁ S₂ S₃ S' succs) (hν : Meets ν S')
    (hS₁ : ¬ Active ν S₁) :
    (Flagged ν S' → Flagged ν S) ∧ (Assumes ν S → Assumes ν S') := by
  have hν₃ := h.meets_leaves hν
  have hidle := (h.runs.grows.trans h.leaves.grows).idle hν₃ hS₁
  rw [h.flagged_iff, h.assumes_iff]
  refine ⟨fun hflag => ?_, fun hassumes => hidle.2 (by rwa [Assumes, h.entry.assumption])⟩
  have hflag := hidle.1 hflag
  rwa [Flagged, h.entry.violations] at hflag

/-- The path condition of a block holds where the run takes an edge to it. -/
theorem guardHolds_iff (h : Compiles f config b block S S₁ S₂ S₃ S' succs)
    (hpoint : Point f config done (b :: rest) S) (hsorted : f.Sorted done (b :: rest)) :
    GuardHolds ν S₁.currentPathCondition ↔ Enters ν S b := by
  rw [h.entry.pathCondition, Enters]
  by_cases hb : b = 0
  · simp [hb]
  · obtain ⟨u, hu, hE⟩ := hsorted.1.resolve_left hb
    rw [if_neg hb, hpoint.paths b List.mem_cons_self,
      guardHolds_pathOf (hpoint.recorded b List.mem_cons_self u hu hE), or_iff_right hb]

/-- A block that the run takes no edge to has no edges that are taken. -/
theorem enters_iff (h : Compiles f config b block S S₁ S₂ S₃ S' succs)
    (hpc : ¬ GuardHolds ν S₁.currentPathCondition) {t : ℕ} (ht : t ≠ b) :
    Enters ν S' t ↔ Enters ν S t := by
  refine or_congr_right ⟨fun ⟨edge, hedge, hholds⟩ => ?_, fun ⟨edge, hedge, hholds⟩ =>
    ⟨edge, (h.edges_mono ht).2 (.inl hedge), hholds⟩⟩
  rcases (h.edges_mono ht).1 hedge with hedge | ⟨succ, -, -, rfl⟩
  · exact ⟨edge, hedge, hholds⟩
  · exact absurd (guardHolds_conjGuards.1 hholds).1 (h.pathCondition.symm ▸ hpc)

end Compiles

variable {σ : Store} {c : ℕ} {todo : List ℕ}

/-- Where the run is. -/
inductive Status
  | here (b : ℕ) (σ : Store)
  | failed
  | blocked
  | returned

/-- The run after a block, which moves on if the block is that of the run. -/
def Status.next (f : Function) (input : Input) (b : ℕ) : Status → Status
  | .here c σ =>
    if c = b then
      match f.stepBlock input b σ with
      | .ok (b', σ') => .here b' σ'
      | .error .failed => .failed
      | .error .blocked => .blocked
      | .error _ => .returned
    else .here c σ
  | st => st

variable (f) in
/-- The run is at a block that is to come: the edges that are taken lead there, with its store. -/
structure Here (ν : T.Env) (S : StatementCodegen) (todo : List ℕ) (c : ℕ) (σ : Store) : Prop where
  mem : c ∈ todo
  reachable : f.Reachable c σ
  typed : f.StoreTyped σ
  start : c = 0 → ∀ p, σ p = none
  assumes : Assumes ν S
  safe : ¬ Flagged ν S
  enters : ∀ t ∈ todo, Enters ν S t ↔ t = c
  agrees : ∀ edge ∈ S.incomingEdges c, GuardHolds ν edge.edgePredicate → edge.env.Agrees ν σ

variable (f) in
/-- The encoded run is where the run is. -/
def Tracks (ν : T.Env) (S : StatementCodegen) (todo : List ℕ) : Status → Prop
  | .here c σ => Here f ν S todo c σ
  | .failed => Flagged ν S ∧ f.Fails
  | .blocked => ¬ Assumes ν S ∧ ¬ Flagged ν S
  | .returned => ¬ Flagged ν S ∧ ∀ t ∈ todo, ¬ Enters ν S t

/-- A run that is at another block stays there. -/
theorem Here.skip (h : Here f ν S (b :: rest) c σ)
    (hc : Compiles f config b block S S₁ S₂ S₃ S' succs) (hν : Meets ν S')
    (hpoint : Point f config done (b :: rest) S) (hsorted : f.Sorted done (b :: rest))
    (hne : c ≠ b) : Here f ν S' rest c σ := by
  have hpc : ¬ GuardHolds ν S₁.currentPathCondition := fun hpc =>
    hne ((h.enters b List.mem_cons_self).1 ((hc.guardHolds_iff hpoint hsorted).1 hpc)).symm
  have hidle := hc.idle hν fun hactive => hpc hactive.1
  refine ⟨(List.mem_cons.1 h.mem).resolve_left hne, h.reachable, h.typed, h.start,
    hidle.2 h.assumes, fun hflag => h.safe (hidle.1 hflag), fun t ht => ?_, ?_⟩
  · have htb : t ≠ b := fun heq => hsorted.2.1 (heq ▸ ht)
    rw [hc.enters_iff hpc htb]
    exact h.enters t (List.mem_cons_of_mem _ ht)
  · intro edge hedge hholds
    rcases (hc.edges_mono hne).1 hedge with hedge | ⟨succ, -, -, rfl⟩
    · exact h.agrees edge hedge hholds
    · exact absurd (guardHolds_conjGuards.1 hholds).1 (hc.pathCondition.symm ▸ hpc)

/-- The run enters its block. -/
theorem Here.live (h : Here f ν S (b :: rest) b σ)
    (hc : Compiles f config b block S S₁ S₂ S₃ S' succs) (hν : Meets ν S')
    (hpoint : Point f config done (b :: rest) S) (hsorted : f.Sorted done (b :: rest)) :
    Live f ν S₁ σ := by
  have henters := (h.enters b List.mem_cons_self).2 rfl
  have hpc := (hc.guardHolds_iff hpoint hsorted).2 henters
  have hν₁ := (hc.runs.grows.trans hc.leaves.grows).meets (hc.meets_leaves hν)
  refine ⟨h.typed, ⟨hpc, ?_⟩, ?_, ?_⟩
  · rw [Assumes, hc.entry.assumption]
    exact h.assumes
  · rw [Flagged, hc.entry.violations]
    exact h.safe
  · exact hc.entry.agrees hν₁ hpc h.start (fun hb => henters.resolve_left hb) h.agrees

/-- The block of the run does what the program does. -/
theorem Here.outcome (h : Here f ν S (b :: rest) b σ) (hblock : f.body.blocks[b]? = some block)
    (hc : Compiles f config b block S S₁ S₂ S₃ S' succs) (hν : Meets ν S')
    (hpoint : Point f config done (b :: rest) S) (hsorted : f.Sorted done (b :: rest))
    (hyields : ∀ p ∈ termWrites block.terminator.kind, Yields f config ν S₂ input p) :
    Outcome (f.stepBlock input b σ) (Next f ν S₃ succs) (Stops ν S₃ succs) := by
  have hν₃ := hc.meets_leaves hν
  have hstmts := hc.runs.outcome (h.live hc hν hpoint hsorted) (hc.leaves.grows.meets hν₃)
  have hstep : f.stepBlock input b σ = (do
      f.execTerminator input (← block.statements.foldlM execStatement σ) block.terminator.kind) := by
    rw [Function.stepBlock, hblock]
  rw [hstep]
  refine (hstmts.mono (fun _ => id) fun stop hstop => ?_).bind fun σ' _ hσ' =>
    hc.leaves.outcome hσ' hν₃ hyields
  exact .inl (.inl ⟨hstop.1, hc.leaves.grows.flagged hstop.2⟩)

/-- The run goes on with another block. -/
theorem Here.move {b' : ℕ} {σ' : Store} (h : Here f ν S (b :: rest) b σ)
    (hblock : f.body.blocks[b]? = some block)
    (hc : Compiles f config b block S S₁ S₂ S₃ S' succs)
    (hsorted : f.Sorted done (b :: rest)) (hstep : f.stepBlock input b σ = .ok (b', σ'))
    (hnext : Next f ν S₃ succs (b', σ')) : Here f ν S' rest b' σ' := by
  obtain ⟨hlive, ⟨succ, hsucc, hholds⟩, honly⟩ := hnext
  obtain rfl : succ.1 = b' := honly succ hsucc hholds
  have hmem : succ.1 ∈ rest := hsorted.2.2.2.1 _
    ((Function.mem_targets_iff hblock).1 ((hc.leaves.targets _).2 ⟨succ, hsucc, rfl⟩))
  have hne : ∀ t ∈ rest, t ≠ b := fun t ht heq => hsorted.2.1 (heq ▸ ht)
  have hzero : ∀ t ∈ rest, t ≠ 0 := fun t ht h0 =>
    hne t ht ((h.enters t (List.mem_cons_of_mem _ ht)).1 (.inl h0))
  -- the edges into the blocks to come are those of this block
  have hedges : ∀ t ∈ rest, ∀ edge ∈ S'.incomingEdges t, GuardHolds ν edge.edgePredicate →
      ∃ succ ∈ succs, succ.1 = t ∧ GuardHolds ν succ.2 ∧ edge = S₃.edgeTo succ.2 := by
    intro t ht edge hedge hedgeHolds
    rcases (hc.edges_mono (hne t ht)).1 hedge with hedge | ⟨succ', hsucc', heq, rfl⟩
    · exact absurd ((h.enters t (List.mem_cons_of_mem _ ht)).1 (.inr ⟨edge, hedge, hedgeHolds⟩))
        (hne t ht)
    · exact ⟨succ', hsucc', heq, (guardHolds_conjGuards.1 hedgeHolds).2, rfl⟩
  refine ⟨hmem, h.reachable.step input hstep, hlive.typed, fun h0 => absurd h0 (hzero _ hmem),
    hc.assumes_iff.2 hlive.active.2, fun hflag => hlive.safe (hc.flagged_iff.1 hflag),
    fun t ht => ⟨?_, ?_⟩, ?_⟩
  · rintro (h0 | ⟨edge, hedge, hedgeHolds⟩)
    · exact absurd h0 (hzero t ht)
    · obtain ⟨succ', hsucc', rfl, hholds', -⟩ := hedges t ht edge hedge hedgeHolds
      exact honly succ' hsucc' hholds'
  · rintro rfl
    exact .inr ⟨S₃.edgeTo succ.2, (hc.edges_mono (hne _ ht)).2 (.inr ⟨succ, hsucc, rfl, rfl⟩),
      guardHolds_conjGuards.2 ⟨hlive.active.1, hholds⟩⟩
  · intro edge hedge hedgeHolds
    obtain ⟨succ', -, -, -, rfl⟩ := hedges _ hmem edge hedge hedgeHolds
    exact hlive.agrees

/-- **A block moves the run on** if it is the block of the run, and leaves it alone otherwise. -/
theorem Tracks.step {st : Status} (h : Tracks f ν S (b :: rest) st)
    (hblock : f.body.blocks[b]? = some block)
    (hc : Compiles f config b block S S₁ S₂ S₃ S' succs) (hν : Meets ν S')
    (hpoint : Point f config done (b :: rest) S) (hsorted : f.Sorted done (b :: rest))
    (hyields : ∀ p ∈ termWrites block.terminator.kind, Yields f config ν S₂ input p)
    (hwrong : ¬ f.Ends .wrong) : Tracks f ν S' rest (st.next f input b) := by
  cases st with
  | failed => exact ⟨hc.flagged h.1, h.2⟩
  | blocked =>
    have hidle := hc.idle hν fun hactive => h.1 (by
      have hS₁ := hactive.2
      rwa [Assumes, hc.entry.assumption] at hS₁)
    exact ⟨fun hS' => h.1 (hc.assumes hν hS'), fun hflag => h.2 (hidle.1 hflag)⟩
  | returned =>
    have hpc : ¬ GuardHolds ν S₁.currentPathCondition := fun hpc =>
      h.2 b List.mem_cons_self ((hc.guardHolds_iff hpoint hsorted).1 hpc)
    have hidle := hc.idle hν fun hactive => hpc hactive.1
    refine ⟨fun hflag => h.1 (hidle.1 hflag), fun t ht => ?_⟩
    rw [hc.enters_iff hpc fun heq => hsorted.2.1 (heq ▸ ht)]
    exact h.2 t (List.mem_cons_of_mem _ ht)
  | here c σ =>
    by_cases hcb : c = b
    · subst hcb
      have hout := Here.outcome h hblock hc hν hpoint hsorted hyields
      simp only [Status.next, if_true]
      cases hstep : f.stepBlock input c σ with
      | ok r =>
        rw [hstep] at hout
        exact Here.move h hblock hc hsorted hstep hout
      | error stop =>
        rw [hstep] at hout
        cases stop with
        | wrong => exact absurd ⟨c, σ, input, h.reachable, hstep⟩ hwrong
        | failed =>
          have hflag : Flagged ν S₃ := by simpa [Outcome, Stops, HookStops] using hout
          exact ⟨hc.flagged_iff.2 hflag, c, σ, input, h.reachable, hstep⟩
        | blocked =>
          obtain ⟨hnot, hsafe⟩ : ¬ Assumes ν S₃ ∧ ¬ Flagged ν S₃ := by
            simpa [Outcome, Stops, HookStops] using hout
          exact ⟨fun hS' => hnot (hc.assumes_iff.1 hS'),
            fun hflag => hsafe (hc.flagged_iff.1 hflag)⟩
        | returned =>
          obtain ⟨hsafe, hnone⟩ : ¬ Flagged ν S₃ ∧ succs = [] := by
            simpa [Outcome, Stops, HookStops] using hout
          refine ⟨fun hflag => hsafe (hc.flagged_iff.1 hflag), fun t ht henters => ?_⟩
          have hne : t ≠ c := fun heq => hsorted.2.1 (heq ▸ ht)
          refine hne ((Here.enters h t (List.mem_cons_of_mem _ ht)).1 (henters.imp_right ?_))
          rintro ⟨edge, hedge, hholds⟩
          rcases (hc.edges_mono hne).1 hedge with hedge | ⟨succ, hsucc, -⟩
          · exact ⟨edge, hedge, hholds⟩
          · simp [hnone] at hsucc
    · rw [Status.next, if_neg hcb]
      exact Here.skip h hc hν hpoint hsorted hcb

end Run

end StatementCodegen

end TrustMc.Bmc
