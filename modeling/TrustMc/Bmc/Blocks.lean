import TrustMc.Bmc.Merges

/-!
# Blocks

A block of the function: its entry, its statements and its terminator, and the edges that are
recorded for its targets.

* `Entry`, `Records`: what the entry of a block and the edges out of it do to the state.
* `codegenBlock_spec`: the whole block.
-/

namespace TrustMc.Bmc

open LoopUnroll Arithmetic Machine Carriers Carriers.Val TrustMc.Expr

namespace StatementCodegen

variable {f : Function} {config : Config} {S S' S₁ : StatementCodegen} {bb : ℕ} {env : Env}

/-! ### The entry -/

section Entry

variable (f config) in
/-- The state at the entry of a block. -/
structure Entry (bb : ℕ) (S S' : StatementCodegen) : Prop where
  wf : S'.Wf f config
  extension : Extends (Free f config) (S.Known f config) (S'.Known f config) S.constraints
    S'.constraints
  assigned : ∃ A, f.Assigns bb A ∧ ∀ p, A p → S'.currentEnv.Has p
  pathCondition : S'.currentPathCondition = if bb = 0 then none else (S.blockPathConditions bb).join
  violations : S'.propertyViolations = S.propertyViolations
  assumption : S'.assumptionContext = S.assumptionContext
  nameCounter : S'.nameCounter = S.nameCounter
  pathConditions : S'.blockPathConditions = S.blockPathConditions
  edges : ∀ b, b ≠ bb → S'.incomingEdges b = S.incomingEdges b
  agrees : ∀ {T : Theory} {ν : T.Env} {σ : Store}, Meets ν S' →
    GuardHolds ν S'.currentPathCondition → (bb = 0 → ∀ p, σ p = none) →
    (bb ≠ 0 → ∃ edge ∈ S.incomingEdges bb, GuardHolds ν edge.edgePredicate) →
    (∀ edge ∈ S.incomingEdges bb, GuardHolds ν edge.edgePredicate → edge.env.Agrees ν σ) →
    S'.currentEnv.Agrees ν σ

theorem mem_phiPlaces {incoming : List IncomingEdge} {p : Place} :
    p ∈ phiPlaces f incoming ↔ ∃ edge ∈ incoming, edge.env.Has p := by
  simp [phiPlaces, List.mem_mergeSort, Env.Has]

/-- The state with the edges into a block taken, before its environment is known. -/
def takeEdges (S : StatementCodegen) (bb : ℕ) : StatementCodegen :=
  { S with
    currentPathCondition := (S.blockPathConditions bb).join
    incomingEdges := Function.update S.incomingEdges bb [] }

/-- The entry of a block with an environment that merges those of the edges. -/
theorem entry_of_defines (h : S.Wf f config) (hbb : bb ≠ 0)
    (hdef : Defines f config (S.takeEdges bb) S₁) (hok : env.Ok f (S₁.Known f config))
    (hassigned : ∃ A, f.Assigns bb A ∧ ∀ p, A p → env.Has p)
    (hagrees : ∀ {T : Theory} {ν : T.Env} {σ : Store}, Meets ν S₁ →
      GuardHolds ν (S.takeEdges bb).currentPathCondition →
      (∃ edge ∈ S.incomingEdges bb, GuardHolds ν edge.edgePredicate) →
      (∀ edge ∈ S.incomingEdges bb, GuardHolds ν edge.edgePredicate → edge.env.Agrees ν σ) →
      env.Agrees ν σ) :
    Entry f config bb S { S₁ with currentEnv := env } := by
  have hext : Extends (Free f config) (S.Known f config) (S₁.Known f config) S.constraints
      S₁.constraints := hdef.extension
  have hknown := hext.1
  have hpc : S₁.currentPathCondition = (S.blockPathConditions bb).join := hdef.pathCondition
  have hviol : S₁.propertyViolations = S.propertyViolations := by rw [hdef.eq]; rfl
  have hctx : S₁.assumptionContext = S.assumptionContext := by rw [hdef.eq]; rfl
  have hbpc : S₁.blockPathConditions = S.blockPathConditions := by rw [hdef.eq]; rfl
  have hedges : S₁.incomingEdges = Function.update S.incomingEdges bb [] := by rw [hdef.eq]; rfl
  have hmem : ∀ b, ∀ edge ∈ S₁.incomingEdges b, edge ∈ S.incomingEdges b := by
    intro b edge hedge
    rw [hedges] at hedge
    rcases eq_or_ne b bb with rfl | hne
    · simp at hedge
    · rwa [Function.update_of_ne hne] at hedge
  refine {
    wf := {
      constraints := hext.forall_over h.constraints
      violations := fun v hv => (h.violations v (hviol ▸ hv)).mono hknown
      assumption := hctx ▸ h.assumption.mono hknown
      pathCondition := ?_
      env := hok
      pathConditions := fun b g hg => (h.pathConditions b g (hbpc ▸ hg)).mono hknown
      edges := fun b edge hedge => ?_ }
    extension := hext
    assigned := hassigned
    pathCondition := hpc.trans (if_neg hbb).symm
    violations := hviol
    assumption := hctx
    nameCounter := by rw [hdef.eq]; rfl
    pathConditions := hbpc
    edges := fun b hb => (congrFun hedges b).trans (Function.update_of_ne hb _ _)
    agrees := fun hν hholds _ hsome hall =>
      hagrees hν (by rw [← hdef.pathCondition]; exact hholds) (hsome hbb) hall }
  · change GuardOk _ S₁.currentPathCondition
    rw [hpc]
    cases hg : S.blockPathConditions bb with
    | none => exact guardOk_none
    | some g => exact (h.pathConditions bb g hg).mono hknown
  · obtain ⟨hguard, henv, hA⟩ := h.edges b edge (hmem b edge hedge)
    exact ⟨hguard.mono hknown, henv.mono hknown, hA⟩

/-- **The entry of a block.** -/
theorem initializeBlockEntryEnv_spec (h : S.Wf f config)
    (hedges : bb ≠ 0 → S.incomingEdges bb ≠ []) :
    Entry f config bb S (S.initializeBlockEntryEnv f config bb) := by
  by_cases hbb : bb = 0
  · subst hbb
    exact {
      wf := {
        constraints := h.constraints
        violations := h.violations
        assumption := h.assumption
        pathCondition := guardOk_none
        env := fun p e he => by cases he
        pathConditions := h.pathConditions
        edges := h.edges }
      extension := .refl
      assigned := ⟨_, .start, fun p hp => hp.elim⟩
      pathCondition := rfl
      violations := rfl
      assumption := rfl
      nameCounter := rfl
      pathConditions := rfl
      edges := fun _ _ => rfl
      agrees := fun _ _ hσ _ _ p s hp => by simp [hσ rfl p] at hp }
  · have hok : EdgesOk f ((S.takeEdges bb).Known f config) (S.incomingEdges bb) := fun edge hedge =>
      ⟨(h.edges bb edge hedge).1, (h.edges bb edge hedge).2.1⟩
    have hpc : GuardOk ((S.takeEdges bb).Known f config) (S.takeEdges bb).currentPathCondition := by
      change GuardOk _ (S.blockPathConditions bb).join
      cases hg : S.blockPathConditions bb with
      | none => exact guardOk_none
      | some g => exact h.pathConditions bb g hg
    have hassigned := h.edges bb
    cases hin : S.incomingEdges bb with
    | nil => exact absurd hin (hedges hbb)
    | cons first rest =>
      rw [hin] at hok hassigned
      obtain ⟨-, -, A, hA, hhas⟩ := hassigned first List.mem_cons_self
      cases rest with
      | nil =>
        have heq : S.initializeBlockEntryEnv f config bb =
            { S.takeEdges bb with currentEnv := first.env } := by
          simp only [initializeBlockEntryEnv, if_neg hbb, hin]
          rfl
        rw [heq]
        refine entry_of_defines h hbb .refl (hok first List.mem_cons_self).2 ⟨A, hA, hhas⟩ ?_
        intro T ν σ _ _ ⟨edge, hedge, hholds⟩ hall
        rw [hin] at hedge hall
        obtain rfl := List.mem_singleton.1 hedge
        exact hall edge hedge hholds
      | cons second rest =>
        rcases hmerge : mergeEnvs f config (first :: second :: rest) (S.takeEdges bb)
          (phiPlaces f (first :: second :: rest)) with ⟨env, S₁⟩
        have heq : S.initializeBlockEntryEnv f config bb = { S₁ with currentEnv := env } := by
          simp only [initializeBlockEntryEnv, if_neg hbb, hin]
          rw [← show _ = env from congrArg Prod.fst hmerge, ← show _ = S₁ from congrArg Prod.snd hmerge]
          rfl
        rw [heq]
        obtain ⟨hdef, henv, hplaces, hval⟩ := mergeEnvs_spec hok hpc hmerge
        refine entry_of_defines h hbb hdef henv ⟨A, hA, fun p hp => ?_⟩ ?_
        · exact hplaces p (mem_phiPlaces.2 ⟨first, List.mem_cons_self, hhas p hp⟩) first
            List.mem_cons_self (hhas p hp)
        · intro T ν σ hν hholds hsome hall p s hp
          rw [hin] at hsome hall
          have htaken : Taken ν (first :: second :: rest) p s.toVal :=
            ⟨hsome, fun edge hedge hedgeHolds => hall edge hedge hedgeHolds p s hp⟩
          obtain ⟨edge, hedge, hedgeHolds⟩ := hsome
          obtain ⟨e, he, -⟩ := hall edge hedge hedgeHolds p s hp
          exact hval hν hholds p (mem_phiPlaces.2 ⟨edge, hedge, by simp [Env.Has, he]⟩) _ htaken

end Entry

/-! ### Edges -/

section Edges

variable {edges : List IncomingEdge} {edge : IncomingEdge} {succs : List (ℕ × Option Expr)}

/-- The condition to get to a block along some edge. -/
def pathOf (edges : List IncomingEdge) : Option (Option Expr) :=
  edges.foldl (fun old edge => some (disjGuards old edge.edgePredicate)) none

theorem pathOf_concat : pathOf (edges ++ [edge]) =
    some (disjGuards (pathOf edges) edge.edgePredicate) := by
  simp [pathOf]

/-- **The path condition of a block** holds where some edge into it is taken. -/
theorem guardHolds_pathOf {T : Theory} {ν : T.Env} (h : edges ≠ []) :
    GuardHolds ν (pathOf edges).join ↔ ∃ edge ∈ edges, GuardHolds ν edge.edgePredicate := by
  induction edges using List.reverseRecOn with
  | nil => exact absurd rfl h
  | append_singleton edges edge ih =>
    rw [pathOf_concat, Option.join_some]
    rcases List.eq_nil_or_concat edges with rfl | ⟨init, last, rfl⟩
    · simp [pathOf, disjGuards]
    · have hne : init.concat last ≠ [] := by simp
      have ih := ih hne
      rw [List.concat_eq_append] at ih ⊢
      rw [pathOf_concat] at ih ⊢
      rw [Option.join_some] at ih
      rw [disjGuards_some, guardHolds_orEdge, ih]
      simp [or_and_right, exists_or, or_assoc]

/-- The edges of a block are recorded. -/
def recordEdges (S : StatementCodegen) (succs : List (ℕ × Option Expr)) : StatementCodegen :=
  succs.foldl (fun S succ => S.recordOutgoingEdge succ.1 succ.2) S

/-- The edge to a target. -/
def edgeTo (S : StatementCodegen) (cond : Option Expr) : IncomingEdge :=
  ⟨conjGuards S.currentPathCondition cond, S.currentEnv⟩

/-- Recording the edges changes what waits for the targets, and nothing else. -/
structure Records (S S' : StatementCodegen) (succs : List (ℕ × Option Expr)) : Prop where
  toAYCtx : S'.toAYCtx = S.toAYCtx
  ssaVersion : S'.ssaVersion = S.ssaVersion
  currentEnv : S'.currentEnv = S.currentEnv
  pathCondition : S'.currentPathCondition = S.currentPathCondition
  edges : ∀ b edge, edge ∈ S'.incomingEdges b ↔
    edge ∈ S.incomingEdges b ∨ ∃ succ ∈ succs, succ.1 = b ∧ edge = S.edgeTo succ.2
  paths : ∀ b, S.blockPathConditions b = pathOf (S.incomingEdges b) →
    S'.blockPathConditions b = pathOf (S'.incomingEdges b)
  guards : ∀ known : String → Prop, GuardOk known S.currentPathCondition →
    (∀ succ ∈ succs, GuardOk known succ.2) →
    (∀ b g, S.blockPathConditions b = some g → GuardOk known g) →
    ∀ b g, S'.blockPathConditions b = some g → GuardOk known g

theorem records_recordEdges : Records S (S.recordEdges succs) succs := by
  induction succs generalizing S with
  | nil => exact ⟨rfl, rfl, rfl, rfl, by simp [recordEdges], fun _ => id, fun _ _ _ => id⟩
  | cons succ succs ih =>
    have hrest := ih (S := S.recordOutgoingEdge succ.1 succ.2)
    have hedges : (S.recordOutgoingEdge succ.1 succ.2).incomingEdges =
        Function.update S.incomingEdges succ.1 (S.incomingEdges succ.1 ++ [S.edgeTo succ.2]) := rfl
    have hpaths : (S.recordOutgoingEdge succ.1 succ.2).blockPathConditions =
        Function.update S.blockPathConditions succ.1 (some (disjGuards
          (S.blockPathConditions succ.1) (S.edgeTo succ.2).edgePredicate)) := rfl
    refine ⟨hrest.toAYCtx, hrest.ssaVersion, hrest.currentEnv, hrest.pathCondition, ?_, ?_, ?_⟩
    · intro b edge
      refine (hrest.edges b edge).trans ?_
      have hto : ∀ cond, (S.recordOutgoingEdge succ.1 succ.2).edgeTo cond = S.edgeTo cond :=
        fun _ => rfl
      rw [hedges]
      rcases eq_or_ne b succ.1 with rfl | hne
      · simp [hto, or_assoc]
      · simp [hto, hne, hne.symm]
    · intro b hb
      refine hrest.paths b ?_
      rw [hedges, hpaths]
      rcases eq_or_ne b succ.1 with rfl | hne
      · rw [Function.update_self, Function.update_self, pathOf_concat, hb]
      · rwa [Function.update_of_ne hne, Function.update_of_ne hne]
    · intro known hpc hsuccs hguards
      refine hrest.guards known hpc (fun succ' hsucc' => hsuccs succ' (List.mem_cons_of_mem _ hsucc'))
        fun b g hg => ?_
      rw [hpaths] at hg
      rcases eq_or_ne b succ.1 with rfl | hne
      · rw [Function.update_self] at hg
        cases hg
        exact guardOk_disjGuards (fun g => hguards succ.1 g)
          (guardOk_conjGuards hpc (hsuccs succ List.mem_cons_self))
      · exact hguards b g (by rwa [Function.update_of_ne hne] at hg)

/-- The state with the edges recorded. -/
theorem Records.wf (hrec : Records S S' succs) (h : S.Wf f config)
    (hguards : ∀ succ ∈ succs, GuardOk (S.Known f config) succ.2)
    (hassigned : ∀ succ ∈ succs, ∃ A, f.Assigns succ.1 A ∧ ∀ p, A p → S.currentEnv.Has p) :
    S'.Wf f config := by
  have hknown : ∀ n, S.Known f config n → S'.Known f config n :=
    Known.mono (fun p => (congrFun hrec.ssaVersion p).ge) (by rw [hrec.toAYCtx])
      (by rw [hrec.toAYCtx])
  refine {
    constraints := fun c hc => (h.constraints c (hrec.toAYCtx ▸ hc)).mono hknown
    violations := fun v hv => (h.violations v (hrec.toAYCtx ▸ hv)).mono hknown
    assumption := by rw [hrec.toAYCtx]; exact h.assumption.mono hknown
    pathCondition := by rw [hrec.pathCondition]; exact h.pathCondition.mono hknown
    env := by rw [hrec.currentEnv]; exact h.env.mono hknown
    pathConditions := hrec.guards _ (h.pathCondition.mono hknown)
      (fun succ hsucc => (hguards succ hsucc).mono hknown)
      fun b g hg => (h.pathConditions b g hg).mono hknown
    edges := fun b edge hedge => ?_ }
  rcases (hrec.edges b edge).1 hedge with hedge | ⟨succ, hsucc, rfl, rfl⟩
  · obtain ⟨hguard, henv, hA⟩ := h.edges b edge hedge
    exact ⟨hguard.mono hknown, henv.mono hknown, hA⟩
  · exact ⟨(guardOk_conjGuards h.pathCondition (hguards succ hsucc)).mono hknown,
      h.env.mono hknown, hassigned succ hsucc⟩

end Edges

/-! ### Blocks -/

section Block

variable {block : BasicBlock scalarMir}

variable (f config) in
/-- The parts of a block, one after the other. -/
structure Compiles (bb : ℕ) (block : BasicBlock scalarMir) (S S₁ S₂ S₃ S' : StatementCodegen)
    (succs : List (ℕ × Option Expr)) : Prop where
  entry : Entry f config bb S S₁
  runs : Runs f config S₁ S₂ (block.statements.flatMap Statement.writes)
    fun σ => block.statements.foldlM execStatement σ
  leaves : Leaves f config block.terminator.kind S₂ S₃ succs
  records : Records S₃ S' succs
  wf : S'.Wf f config

/-- **Blocks.** -/
theorem codegenBlock_spec (h : S.Wf f config) (hwt : f.WellTyped)
    (hinit : f.DefinitelyInitialized) (hedges : bb ≠ 0 → S.incomingEdges bb ≠ [])
    (hblock : f.body.blocks[bb]? = some block) :
    ∃ S₁ S₂ S₃ succs,
      Compiles f config bb block S S₁ S₂ S₃ (S.codegenBlock f config bb) succs := by
  have hentry := initializeBlockEntryEnv_spec h hedges
  obtain ⟨A, hA, hhas⟩ := hentry.assigned
  obtain ⟨htypedStmts, htypedTerm⟩ := hwt block (List.mem_of_getElem? hblock)
  obtain ⟨hreads, htermReads⟩ := hinit bb A block hA hblock
  have hruns := codegenStatements_spec hentry.wf htypedStmts hreads hhas
  generalize hS₂ : block.statements.foldl (codegenStatement f config)
    (S.initializeBlockEntryEnv f config bb) = S₂ at hruns
  have hafter : ∀ p, assignedAfter A block.statements p → S₂.currentEnv.Has p := by
    rintro p (hp | ⟨stmt, hstmt, hp⟩)
    · exact hruns.grows.places p (hhas p hp)
    · exact hruns.writes p (List.mem_flatMap.2 ⟨stmt, hstmt, hp⟩)
  have hleaves := codegenTerminator_spec bb hruns.grows.wf htypedTerm
    fun p hp => hafter p (htermReads p hp)
  have heq : S.codegenBlock f config bb =
      (S₂.codegenTerminatorWithSuccessors f config bb block.terminator.kind).2.recordEdges
        (S₂.codegenTerminatorWithSuccessors f config bb block.terminator.kind).1 := by
    rw [codegenBlock, hblock, ← hS₂]
    rfl
  rw [heq]
  refine ⟨_, _, _, _, hentry, hruns, hleaves, records_recordEdges,
    records_recordEdges.wf hleaves.grows.wf hleaves.guards fun succ hsucc => ?_⟩
  refine ⟨_, hA.step hblock ((hleaves.targets succ.1).2 ⟨succ, hsucc, rfl⟩), fun p hp => ?_⟩
  exact hp.elim (fun hp => hleaves.grows.places p (hafter p hp)) (hleaves.writes p)

end Block

end StatementCodegen

end TrustMc.Bmc
