import TrustMc.Columns.PruneArrays

/-!
# What dropping dead state variables keeps

* **Liveness**: the worklist is emptied before the bound of its rounds, and ends with the least
  solution: an array lives where a path of the block graph leads to a block for which a use of it
  is recorded.
* **Columns**: the column of an array stays where the array lives, if a block that reads it leads
  to a return and no other phase drops it (`keepMask_array_iff`).
* **Queries**: no derivation of the query is lost. What is read only where no return is reached is
  dropped there as well, and a query may become derivable by that (`unwindCtx_new_query`).
-/

namespace TrustMc

namespace PruneArrays

open Fragments (ChcTrackLevel)
open LoopUnroll (Mir TerminatorKind predecessorsOf mem_predecessorsOf mem_sortDedup)
open Mir Relations
open Relation (ReflTransGen)

namespace ChcCtx

variable {M : Mir} {ctx : ChcCtx M}

/-! ### The block graph -/

theorem mem_blockSuccessors {kind : TerminatorKind M} {v : ℕ} :
    v ∈ blockSuccessors kind ↔ v ∈ allSuccessors kind := by
  rw [blockSuccessors.eq_def, mem_sortDedup]
  cases kind <;> simp [allSuccessors, TerminatorKind.targets, unwindOf]

theorem mem_successors {v w : ℕ} : w ∈ ctx.successors.getD v [] ↔ CfgEdge ctx.body v w := by
  rw [CfgEdge, Mir.mem_succs, successors, List.getD_eq_getElem?_getD, List.getElem?_map]
  cases ctx.body.blocks[v]? with
  | none => simp
  | some kind => simp [mem_blockSuccessors]

theorem mem_succs {v w : ℕ} : w ∈ ctx.succs v ↔ CfgEdge ctx.body v w := by
  rw [succs, List.mem_filter, mem_successors, decide_eq_true_iff, blockCount, ctx.length_live]
  exact and_iff_left_of_imp Mir.lt_of_mem_succs

theorem mem_preds {v w : ℕ} : v ∈ ctx.preds w ↔ CfgEdge ctx.body v w := by
  rw [preds, mem_predecessorsOf, mem_successors]

theorem lt_of_mem_succs {v w : ℕ} (h : w ∈ ctx.succs v) : w < ctx.blockCount :=
  of_decide_eq_true (List.mem_filter.1 h).2

theorem lt_of_mem_preds {v w : ℕ} (h : v ∈ ctx.preds w) : v < ctx.blockCount := by
  have hmem : v ∈ ctx.body.preds w := mem_predecessorsOf.2 (mem_preds.1 h)
  rw [blockCount, ctx.length_live]
  exact Mir.lt_of_mem_preds hmem

/-! ### Liveness -/

theorem length_preds_le : ∀ v < ctx.blockCount, (ctx.preds v).length ≤ ctx.maxPreds :=
  fun _ hv => List.le_max_of_le (List.mem_map_of_mem (List.mem_range.2 hv)) le_rfl

theorem nodup_stateIdxToTypeArr : ctx.stateIdxToTypeArr.Nodup := List.nodup_dedup _

theorem metadataIndices_subset : ctx.metadataIndices ⊆ ctx.stateIdxToTypeArr :=
  fun _ hidx => List.mem_dedup.2 (List.mem_append_right _ hidx)

/-- What the blocks start with are arrays, but for the vtables, which all of them start with. -/
theorem confined_seeds : Flow.Confined ctx.blockCount ctx.stateIdxToTypeArr ctx.seeds := by
  intro v _ idx hidx
  rcases List.mem_append.1 hidx with hidx | hidx
  · rcases List.mem_append.1 hidx with hidx | hidx
    · exact .inl (List.mem_filter.1 hidx).1
    · exact .inl (metadataIndices_subset hidx)
  · exact .inr fun u _ => List.mem_append_right _ hidx

theorem pending_seeds :
    Flow.Pending ctx.succs ctx.blockCount ctx.seeds (List.range ctx.blockCount) :=
  fun _ hv _ _ => .inr (List.mem_range.2 hv)

theorem succs_preds : ∀ v < ctx.blockCount, ∀ s ∈ ctx.succs v, v ∈ ctx.preds s :=
  fun _ _ _ hs => mem_preds.2 (mem_succs.1 hs)

/-- **The bound is not passed.** -/
theorem exists_propagate_seeds (ctx : ChcCtx M) : ∃ live, Flow.propagate ctx.succs ctx.preds
    ctx.maxIters ctx.seeds (List.range ctx.blockCount) = some live := by
  refine Flow.exists_propagate nodup_stateIdxToTypeArr length_preds_le
    (fun v s hs => lt_of_mem_succs hs) (fun v _ u hu => lt_of_mem_preds hu) confined_seeds
    (fun v hv => List.mem_range.1 hv) ?_
  have hsum : ∑ v ∈ Finset.range ctx.blockCount,
      Flow.missing ctx.stateIdxToTypeArr (ctx.seeds v) ≤
        ctx.blockCount * ctx.stateIdxToTypeArr.length := by
    calc _ ≤ ∑ _v ∈ Finset.range ctx.blockCount, ctx.stateIdxToTypeArr.length :=
          Finset.sum_le_sum fun v _ => Flow.missing_le _ _
      _ = _ := by rw [Finset.sum_const, Finset.card_range, smul_eq_mul]
  have hmul := Nat.mul_le_mul_left ctx.maxPreds hsum
  rw [Flow.roundsLeft, List.length_range, maxIters, Nat.mul_succ, Nat.mul_comm _ ctx.maxPreds]
  omega

theorem propagate_taLive : Flow.propagate ctx.succs ctx.preds ctx.maxIters ctx.seeds
    (List.range ctx.blockCount) = some ctx.taLive := by
  obtain ⟨live, hlive⟩ := ctx.exists_propagate_seeds
  have htaLive : ctx.taLive = live := by
    funext bb
    rw [taLive, hlive]
  rw [hlive, htaLive]

/-- A use of the array is recorded for the block. -/
def Uses (ctx : ChcCtx M) (idx bb : ℕ) : Prop :=
  ctx.recorded ctx.readUsed idx bb = true ∨ ctx.recorded ctx.writeUsed idx bb = true

theorem mem_seeds {idx bb : ℕ} : idx ∈ ctx.seeds bb ↔
    idx ∈ ctx.metadataIndices ∨ idx ∈ ctx.vtableSvIndices ∨
      idx ∈ ctx.stateIdxToTypeArr ∧ ctx.Uses idx bb := by
  rw [seeds, List.mem_append, List.mem_append, List.mem_filter, Bool.or_eq_true, Uses]
  tauto

/-- **Where a column lives.** -/
theorem mem_taLive_iff {bb : ℕ} (hbb : bb < ctx.blockCount) {idx : ℕ} : idx ∈ ctx.taLive bb ↔
    idx ∈ ctx.metadataIndices ∨ idx ∈ ctx.vtableSvIndices ∨ idx ∈ ctx.stateIdxToTypeArr ∧
      ∃ bb', ReflTransGen (CfgEdge ctx.body) bb bb' ∧ ctx.Uses idx bb' := by
  have hedge : (fun v w => w ∈ ctx.succs v) = CfgEdge ctx.body := by
    funext v w
    exact propext mem_succs
  rw [Flow.mem_propagate_iff (fun _ _ => lt_of_mem_succs) succs_preds pending_seeds
    propagate_taLive hbb, hedge]
  constructor
  · rintro ⟨bb', hpath, hseed⟩
    rcases mem_seeds.1 hseed with hmeta | hvtable | ⟨harr, huse⟩
    · exact .inl hmeta
    · exact .inr (.inl hvtable)
    · exact .inr (.inr ⟨harr, bb', hpath, huse⟩)
  · rintro (hmeta | hvtable | ⟨harr, bb', hpath, huse⟩)
    · exact ⟨bb, .refl, mem_seeds.2 (.inl hmeta)⟩
    · exact ⟨bb, .refl, mem_seeds.2 (.inr (.inl hvtable))⟩
    · exact ⟨bb', hpath, mem_seeds.2 (.inr (.inr ⟨harr, huse⟩))⟩

theorem solves_taLive : Flow.Solves ctx.succs ctx.blockCount ctx.seeds ctx.taLive :=
  Flow.solves_propagate succs_preds pending_seeds propagate_taLive

/-! ### Columns of arrays -/

theorem stateVarIndexByName_eq_some_iff {name : String} {idx : ℕ} :
    ctx.stateVarIndexByName name = some idx ↔ ctx.stateVars[idx]? = some name := by
  rw [stateVarIndexByName, List.findIdx?_eq_some_iff_getElem, List.getElem?_eq_some_iff]
  refine exists_congr fun hidx => ⟨fun h => by simpa using h.1, fun h => ⟨by simpa using h, ?_⟩⟩
  intro j hji hj
  have heq : ctx.stateVars[j] = ctx.stateVars[idx] := h.symm ▸ eq_of_beq (by simpa using hj)
  exact absurd (ctx.stateVars_nodup.getElem_inj_iff.1 heq) hji.ne

theorem mem_neverRead_iff {idx : ℕ} {name : String} (hname : ctx.stateVars[idx]? = some name) :
    idx ∈ ctx.neverRead ↔ name ∈ ctx.typeArrayNames ∧ ctx.readUsed.lookup name = none := by
  rw [neverRead, List.mem_filter, List.mem_range, hname, Option.any_some, Bool.and_eq_true,
    decide_eq_true_iff, Option.isNone_iff_eq_none]
  exact and_iff_right (List.getElem?_eq_some_iff.1 hname).1

theorem mem_errorPathOnly_iff {idx : ℕ} {name : String}
    (hname : ctx.stateVars[idx]? = some name) : idx ∈ ctx.errorPathOnly ↔
      ∃ blocks, ctx.readUsed.lookup name = some blocks ∧
        ∀ bb ∈ blocks, ctx.returnReachable bb = false := by
  rw [errorPathOnly, List.mem_filterMap]
  constructor
  · rintro ⟨⟨name', blocks⟩, hmem, hidx⟩
    obtain ⟨hall, hidx⟩ := Option.ite_none_right_eq_some.1 hidx
    obtain rfl : name' = name :=
      Option.some.inj ((stateVarIndexByName_eq_some_iff.1 hidx).symm.trans hname)
    exact ⟨blocks, ConstProp.lookup_of_mem ctx.readUsed_nodup hmem, by simpa using hall⟩
  · rintro ⟨blocks, hlookup, hall⟩
    obtain ⟨before, after, hentries, -⟩ := List.lookup_eq_some_iff.1 hlookup
    refine ⟨(name, blocks), by simp [hentries], Option.ite_none_right_eq_some.2 ?_⟩
    exact ⟨by simpa using hall, stateVarIndexByName_eq_some_iff.2 hname⟩

theorem recorded_iff {uses : List (String × List ℕ)} {idx bb : ℕ} {name : String}
    (hname : ctx.stateVars[idx]? = some name) : ctx.recorded uses idx bb = true ↔
      ∃ blocks, uses.lookup name = some blocks ∧ bb ∈ blocks := by
  rw [recorded, hname, Option.bind_some, Option.any_eq_true]
  simp only [decide_eq_true_iff]

/-- A block that reads the array leads to a return. -/
def ReadOnReturn (ctx : ChcCtx M) (idx : ℕ) : Prop :=
  ∃ bb, ctx.recorded ctx.readUsed idx bb = true ∧
    ∃ r, ReflTransGen (CfgEdge ctx.body) bb r ∧ ctx.body.blocks[r]? = some .return

/-- What goes everywhere, but not because of reads. -/
def deadOtherwise (ctx : ChcCtx M) : List ℕ :=
  ctx.deadMetadata ++ ctx.deadFlatMem ++ ctx.deadScalars ++ ctx.deadVtables

/-- **The arrays that go everywhere.** -/
theorem mem_prunable_iff {idx : ℕ} {name : String} (hname : ctx.stateVars[idx]? = some name)
    (harray : name ∈ ctx.typeArrayNames) :
    idx ∈ ctx.prunable ↔ ¬ ctx.ReadOnReturn idx ∨ idx ∈ ctx.deadOtherwise := by
  have hread : idx ∈ ctx.neverRead ∨ idx ∈ ctx.errorPathOnly ↔ ¬ ctx.ReadOnReturn idx := by
    have hreach : ∀ bb, (∃ r, ReflTransGen (CfgEdge ctx.body) bb r ∧
        ctx.body.blocks[r]? = some .return) ↔ ctx.returnReachable bb = true :=
      fun _ => computeReturnReachableBlocks_iff.symm
    simp only [mem_neverRead_iff hname, mem_errorPathOnly_iff hname, ReadOnReturn,
      recorded_iff hname, hreach]
    cases ctx.readUsed.lookup name <;> simp [harray]
  simp only [prunable, prunableArraysAndScalars, deadOtherwise, List.mem_append, ← hread]
  tauto

theorem mem_stateIdxToTypeArr {idx : ℕ} {name : String}
    (hname : ctx.stateVars[idx]? = some name) (harray : name ∈ ctx.typeArrayNames)
    (hidx : idx ∉ ctx.prunable) : idx ∈ ctx.stateIdxToTypeArr := by
  have hkept : idx ∉ ctx.prunableArraysAndScalars := fun h => hidx (List.mem_append_left _ h)
  refine List.mem_dedup.2 (List.mem_append_left _ (List.mem_filter.2 ⟨?_, by simpa using hkept⟩))
  exact List.mem_filterMap.2 ⟨name, harray, stateVarIndexByName_eq_some_iff.2 hname⟩

theorem mem_perBlockPrunable_iff {idx bb : ℕ} (hbb : bb < ctx.blockCount) :
    idx ∈ ctx.perBlockPrunable bb ↔ idx ∈ ctx.stateIdxToTypeArr ∧ idx ∉ ctx.taLive bb := by
  rw [perBlockPrunable]
  split_ifs with hempty
  · have hnil : ctx.stateIdxToTypeArr = [] := by
      simpa [Nat.ne_of_gt (Nat.zero_lt_of_lt hbb)] using hempty
    simp [hnil]
  · rw [List.mem_filter, decide_eq_true_iff]

/-- The column of the array stays at the block. -/
def Keeps (ctx : ChcCtx M) (idx bb : ℕ) : Prop :=
  ctx.ReadOnReturn idx ∧ idx ∉ ctx.deadOtherwise ∧
    (idx ∈ ctx.metadataIndices ∨ idx ∈ ctx.vtableSvIndices ∨
      ∃ bb', ReflTransGen (CfgEdge ctx.body) bb bb' ∧ ctx.Uses idx bb')

/-- **Where the column of an array stays.** -/
theorem keepMask_array_iff {bb i idx : ℕ} {name : String} (hbb : bb < ctx.blockCount)
    (hcolumn : (ctx.liveStateIndices.getD bb [])[i]? = some idx)
    (hname : ctx.stateVars[idx]? = some name) (harray : name ∈ ctx.typeArrayNames) :
    (ctx.keepMask bb)[i]? = some true ↔ ctx.Keeps idx bb := by
  have hmask : (ctx.keepMask bb)[i]? = some true ↔
      idx ∉ ctx.prunable ∧ idx ∉ ctx.perBlockPrunable bb := by
    rw [keepMask, List.getElem?_map, hcolumn, Option.map_some, Option.some_inj, Bool.and_eq_true,
      decide_eq_true_iff, decide_eq_true_iff]
  rw [hmask, mem_perBlockPrunable_iff hbb, Keeps, ← and_assoc]
  have hprunable := mem_prunable_iff hname harray
  constructor
  · rintro ⟨hidx, hblock⟩
    have harr := mem_stateIdxToTypeArr hname harray hidx
    have hlive : idx ∈ ctx.taLive bb := by
      by_contra hdead
      exact hblock ⟨harr, hdead⟩
    exact ⟨by tauto, ((mem_taLive_iff hbb).1 hlive).imp_right (Or.imp_right And.right)⟩
  · rintro ⟨hglobal, hlive⟩
    have hidx : idx ∉ ctx.prunable := by tauto
    have harr := mem_stateIdxToTypeArr hname harray hidx
    exact ⟨hidx, fun h => h.2 ((mem_taLive_iff hbb).2
      (hlive.imp_right (Or.imp_right fun h => ⟨harr, h⟩)))⟩

/-! ### The result -/

/-- The columns that go. -/
def columns (ctx : ChcCtx M) : Columns := maskedColumns ctx.relationKeep

/-- A block's relation has the block's mask. -/
theorem relationKeep_of_mem {bb : ℕ} {name : String} (hmem : (bb, name) ∈ ctx.blockRelations)
    (hbb : bb < ctx.blockCount) : ctx.relationKeep name = some (ctx.keepMask bb) := by
  rw [relationKeep, Option.map_eq_some_iff]
  cases hfind : ctx.blockRelations.find? fun p => p.2 == name && decide (p.1 < ctx.blockCount) with
  | none =>
    have hnone := List.find?_eq_none.1 hfind (bb, name) hmem
    simp [hbb] at hnone
  | some p =>
    have hp := List.find?_some hfind
    rw [Bool.and_eq_true, beq_iff_eq] at hp
    obtain rfl : p = (bb, name) :=
      List.inj_on_of_nodup_map ctx.names_nodup (List.mem_of_find?_eq_some hfind) hmem hp.1
    exact ⟨_, rfl, rfl⟩

/-- Only relations of blocks have masks. -/
theorem relationKeep_eq_some {name : String} {keep : List Bool}
    (h : ctx.relationKeep name = some keep) :
    ∃ bb < ctx.blockCount, (bb, name) ∈ ctx.blockRelations ∧ keep = ctx.keepMask bb := by
  obtain ⟨p, hfind, rfl⟩ := Option.map_eq_some_iff.1 h
  have hp := List.find?_some hfind
  rw [Bool.and_eq_true, beq_iff_eq, decide_eq_true_iff] at hp
  refine ⟨p.1, hp.2, ?_, rfl⟩
  rw [← hp.1]
  exact List.mem_of_find?_eq_some hfind

theorem mem_relations_of_columns {name : String} {n : ℕ} {flags : List Bool}
    (h : ctx.columns name n = some flags) : name ∈ ctx.vc.relations.map (·.name) := by
  obtain ⟨keep, hkeep, -⟩ := Option.map_eq_some_iff.1 h
  obtain ⟨bb, -, hmem, -⟩ := relationKeep_eq_some hkeep
  exact ctx.declared (bb, name) hmem

/-- Where the pass returns early, the masks keep everything. -/
theorem strip_columns_of_isEmpty (hglobal : ctx.prunable.isEmpty = true)
    (hblocks : ∀ bb < ctx.blockCount, (ctx.perBlockPrunable bb).isEmpty = true) {α : Type}
    (name : String) (xs : List α) : ctx.columns.strip name xs = xs := by
  refine strip_maskedColumns_eq_self (fun name keep hkeep b hb => ?_) name xs
  obtain ⟨bb, hbb, -, rfl⟩ := relationKeep_eq_some hkeep
  obtain ⟨idx, -, rfl⟩ := List.mem_map.1 hb
  rw [List.isEmpty_iff.1 hglobal, List.isEmpty_iff.1 (hblocks bb hbb)]
  rfl

/-- **One mask for a relation**: its declaration and all its applications, in heads, in bodies and
inside constraints, lose the columns that its block's mask does not keep. -/
theorem pruneVcUnusedTypeArrays_eq (ctx : ChcCtx M) : ctx.pruneVcUnusedTypeArrays =
    { ctx.vc with
      relations := ctx.vc.relations.map ctx.columns.stripDecl
      rules := ctx.vc.rules.map ctx.columns.stripRule } := by
  rw [pruneVcUnusedTypeArrays]
  split_ifs with hempty
  · obtain ⟨hglobal, hblocks⟩ := Bool.and_eq_true_iff.1 hempty
    have hself : ∀ {α : Type} (name : String) (xs : List α), ctx.columns.strip name xs = xs :=
      strip_columns_of_isEmpty hglobal fun bb hbb =>
        List.all_eq_true.1 hblocks bb (List.mem_range.2 hbb)
    have hdecl : ctx.columns.stripDecl = id := funext fun d => by
      rw [Columns.stripDecl, hself, id]
    have hterm : ctx.columns.stripTerm = id := funext fun e =>
      Columns.stripTerm_eq_self fun app _ => hself app.1 app.2
    have happ : ctx.columns.stripApp = id := funext fun a => by
      rw [Columns.stripApp, hself, id]
    have hrule : ctx.columns.stripRule = id := funext fun r => by
      rw [Columns.stripRule, hterm, happ, Option.map_id, List.map_id]
      rfl
    rw [hdecl, hrule, List.map_id, List.map_id]
  · rw [List.map_congr_left fun d _ => pruneRelationDecl_eq d,
      List.map_congr_left fun r _ => pruneRule_eq r]
    rfl

theorem strip_columns {α : Type} (name : String) (xs : List α) :
    ctx.columns.strip name xs = match ctx.relationKeep name with
      | none => xs
      | some keep => keepArgs keep xs := strip_maskedColumns name xs

end ChcCtx

/-- **Dropping dead state variables**, part by part: the worklist is emptied within its bound and
ends with the least solution; at every block the mask of its relation keeps the column of an array
exactly if a block that reads it leads to a return, no other phase drops it, and it stays everywhere
or a path leads from the block to a use of it; declarations, heads, bodies and the applications
inside constraints lose the columns of one mask; no entailed query is lost, and none is new where
what is dropped does not influence the rules; where no term applies a relation and the rules at most
hand the dropped columns on, the query is derivable exactly if it was before. -/
theorem pruneVcUnusedTypeArrays_exact {M : Mir} (ctx : ChcCtx M) :
    (Flow.propagate ctx.succs ctx.preds ctx.maxIters ctx.seeds (List.range ctx.blockCount) =
        some ctx.taLive ∧
      Flow.Solves ctx.succs ctx.blockCount ctx.seeds ctx.taLive ∧
      ∀ sol, Flow.Solves ctx.succs ctx.blockCount ctx.seeds sol →
        ∀ bb < ctx.blockCount, ctx.taLive bb ⊆ sol bb) ∧
    (∀ bb rel, (bb, rel) ∈ ctx.blockRelations → bb < ctx.blockCount →
      ctx.relationKeep rel = some (ctx.keepMask bb) ∧
        ∀ (i idx : ℕ) (name : String), (ctx.liveStateIndices.getD bb [])[i]? = some idx →
          ctx.stateVars[idx]? = some name → name ∈ ctx.typeArrayNames →
          ((ctx.keepMask bb)[i]? = some true ↔ ctx.Keeps idx bb)) ∧
    (ctx.pruneVcUnusedTypeArrays =
        { ctx.vc with
          relations := ctx.vc.relations.map ctx.columns.stripDecl
          rules := ctx.vc.rules.map ctx.columns.stripRule } ∧
      ∀ {α : Type} (rel : String) (xs : List α), ctx.columns.strip rel xs =
        match ctx.relationKeep rel with
        | none => xs
        | some keep => keepArgs keep xs) ∧
    ∀ T : Theory,
      (ctx.vc.PlainArgs ctx.columns → ctx.vc.Entailed T →
        ctx.pruneVcUnusedTypeArrays.Entailed T) ∧
      (ctx.vc.WellFormed → (∀ t ∈ ctx.vc.target, t ∈ ctx.vc.relations.map (·.name)) →
        (∀ r ∈ ctx.vc.rules, r.UninfluencedIn T ctx.vc ctx.columns) →
        ctx.pruneVcUnusedTypeArrays.Entailed T → ctx.vc.Entailed T) ∧
      (ctx.vc.WellFormed → ctx.vc.Linear →
        (∀ r ∈ ctx.vc.rules, ∃ source, r.Unread ctx.columns (ctx.columns.stripRule r) source) →
        (ctx.pruneVcUnusedTypeArrays.Unsafe T ↔ ctx.vc.Unsafe T)) := by
  have hresult := ctx.pruneVcUnusedTypeArrays_eq
  refine ⟨⟨ChcCtx.propagate_taLive, ChcCtx.solves_taLive, fun sol hsol bb hbb => ?_⟩,
    fun bb rel hmem hbb => ⟨ChcCtx.relationKeep_of_mem hmem hbb, fun i idx name hcolumn hname
      harray => ChcCtx.keepMask_array_iff hbb hcolumn hname harray⟩,
    ⟨hresult, fun rel xs => ChcCtx.strip_columns rel xs⟩, fun T => ⟨?_, ?_, ?_⟩⟩
  · exact hsol.propagate_subset (fun _ _ => ChcCtx.lt_of_mem_succs) ChcCtx.propagate_taLive hbb
  · intro hargs hentailed
    rw [hresult]
    exact hentailed.strip (fun _ _ _ => ChcCtx.mem_relations_of_columns) hargs rfl rfl rfl
  · intro hwf htarget hun hentailed
    rw [hresult] at hentailed
    exact hentailed.of_strip hwf rfl rfl rfl htarget hun
  · intro hwf hlin hunread
    rw [hresult]
    refine unsafe_iff_of_unread hwf (fun r hr => ⟨rfl, rfl, fun c hc => ?_⟩) rfl rfl hunread
    -- no constraint applies a relation, so all of them stay
    obtain ⟨c', hc', rfl⟩ := List.mem_map.1 hc
    rwa [Columns.stripTerm_eq_self fun app happ => ?_]
    refine Columns.strip_of_none (Option.eq_none_iff_forall_ne_some.2 fun flags hflags => ?_)
    exact hlin r hr c' (Rule.mem_terms.2 (.inr (.inl hc'))) app happ
      (ChcCtx.mem_relations_of_columns hflags)

/-! ### A read that is lost -/

/-- The array of the example. -/
def arr : Expr := .var "arr" (.array .int .int)

/-- `select(arr, 0) = z`. -/
def arrHas (z : ℤ) : Expr := (arr.select (.intConst 0)).eq (.intConst z)

/-- `select(arr, 0) = 0 ⇒ bb0(arr)`, `bb0(arr) ⇒ bb2(arr)` and `bb2(arr) ∧ tests ⇒ error`. -/
def unwindVc (tests : List Expr) : ChcVc where
  vars := [("arr", .array .int .int)]
  relations := [⟨"bb0", [.array .int .int]⟩, ⟨"bb2", [.array .int .int]⟩, ⟨"error", []⟩]
  rules :=
    [⟨⟨none, [arrHas 0]⟩, ⟨"bb0", [arr]⟩⟩, ⟨⟨some ⟨"bb0", [arr]⟩, []⟩, ⟨"bb2", [arr]⟩⟩,
      ⟨⟨some ⟨"bb2", [arr]⟩, tests⟩, .nullary "error"⟩]
  target := some "error"
  triviallySafeDischarged := false

/-- A call that returns to block `1` and unwinds to block `2`, where an assertion reads the array
before the panic goes on. -/
def unwindCtx (tests : List Expr) : ChcCtx unitMir where
  body :=
    { blocks := [.call () [] () (some 1) (.cleanup 2), .return, .assert () true () 3 .terminate,
        .resume]
      target_lt := by decide
      entry_notMem := by decide }
  statements := []
  argCount := 0
  facts := ⟨fun _ => none, fun _ => 0, fun _ => []⟩
  trackLevel := .ptr
  stateVars := ["arr"]
  stateVars_nodup := by decide
  liveStateIndices := [[0], [0], [0], [0]]
  length_live := rfl
  blockRelations := [(0, "bb0"), (2, "bb2")]
  blocks_nodup := by decide
  names_nodup := by decide
  typeArrays := ["arr"]
  regionArrays := []
  readUsed := [("arr", [2])]
  readUsed_nodup := by decide
  writeUsed := []
  metadataAccessedBlocks := []
  localToStateIdx := []
  flattenedTupleLocals := []
  flattenedFieldCount _ := 0
  refArgPointeeIdx := []
  staticRefToStateIdx := []
  lenVarNames := []
  capVarNames := []
  vtableStateVars := []
  vtablePropagationEdges := []
  vc := unwindVc tests
  declared := by simp [unwindVc]

/-- The result: no relation of a block has a column. -/
def prunedUnwindVc (tests : List Expr) : ChcVc where
  vars := [("arr", .array .int .int)]
  relations := [⟨"bb0", []⟩, ⟨"bb2", []⟩, ⟨"error", []⟩]
  rules :=
    [⟨⟨none, [arrHas 0]⟩, ⟨"bb0", []⟩⟩, ⟨⟨some ⟨"bb0", []⟩, []⟩, ⟨"bb2", []⟩⟩,
      ⟨⟨some ⟨"bb2", []⟩, tests⟩, .nullary "error"⟩]
  target := some "error"
  triviallySafeDischarged := false

theorem pruneVcUnusedTypeArrays_unwindCtx :
    (unwindCtx [arrHas 1]).pruneVcUnusedTypeArrays = prunedUnwindVc [arrHas 1] := by
  decide +kernel

theorem holds_arrHas {T : Theory} {ρ : T.Env} {z : ℤ} :
    (arrHas z).Holds ρ ↔
      selectVal (arr.eval ρ) (Carriers.Val.ofInt 0 : T.Val) = Carriers.Val.ofInt z := by
  rw [arrHas, Expr.holds_eq]
  simp [Op.interp]

/-- Some array has the entry. -/
theorem exists_arrHas (z : ℤ) : ∃ ρ : (default : Theory).Env, (arrHas z).Holds ρ := by
  let row : (default : Theory).Val := ⟨.array .int .int, fun _ => z⟩
  have hrow : arr.eval (Theory.Env.ofVals fun _ => row) = row :=
    Expr.eval_var_ofVals rfl
  exact ⟨_, holds_arrHas.2 (by rw [hrow]; rfl)⟩

/-- Without the column, the entry at the read has nothing to do with the one at the start. -/
theorem unsafe_prunedUnwindVc : (prunedUnwindVc [arrHas 1]).Unsafe (default : Theory) := by
  obtain ⟨ρ, hρ⟩ := exists_arrHas 0
  obtain ⟨ρ', hρ'⟩ := exists_arrHas 1
  have hentry : Derives default (prunedUnwindVc [arrHas 1]).rules
      ((RelationApp.nullary "bb0").fact ρ) :=
    .fact ⟨_, List.mem_cons_self, ρ, rfl, by simpa using hρ, rfl⟩
  have hunwind : Derives default (prunedUnwindVc [arrHas 1]).rules
      ((RelationApp.nullary "bb2").fact ρ) :=
    .step hentry ⟨_, List.mem_cons_of_mem _ List.mem_cons_self, ρ, rfl, by simp, rfl⟩
  have herror : Derives default (prunedUnwindVc [arrHas 1]).rules
      ((RelationApp.nullary "error").fact ρ') :=
    .step hunwind ⟨_, List.mem_cons_of_mem _ (List.mem_cons_of_mem _ List.mem_cons_self), ρ', rfl,
      by simpa using hρ', rfl⟩
  exact ⟨"error", [], rfl, herror⟩

/-- The entry of the array stays `0`, and `error` is not reached. -/
theorem zero_of_derives_unwindVc {f : Fact (default : Theory)}
    (h : Derives default (unwindVc [arrHas 1]).rules f) : f.1 ≠ "error" ∧
      ∃ v, f.2 = [v] ∧ selectVal v (Carriers.Val.ofInt 0) = Carriers.Val.ofInt 0 := by
  refine Horn.System.Derivable.invariant (P := fun f : Fact (default : Theory) => f.1 ≠ "error" ∧
    ∃ v, f.2 = [v] ∧ selectVal v (Carriers.Val.ofInt 0) = Carriers.Val.ofInt 0) ?_ ?_ h
  · rintro f ⟨r, hr, ρ, hpremise, hc, rfl⟩
    simp only [unwindVc, List.mem_cons, List.not_mem_nil, or_false] at hr
    rcases hr with rfl | rfl | rfl
    · exact ⟨show "bb0" ≠ "error" by decide, _, rfl, holds_arrHas.1 (hc _ List.mem_cons_self)⟩
    · cases hpremise
    · cases hpremise
  · rintro g f - ⟨-, v, hg, hv⟩ ⟨r, hr, ρ, hpremise, hc, rfl⟩
    simp only [unwindVc, List.mem_cons, List.not_mem_nil, or_false] at hr
    rcases hr with rfl | rfl | rfl
    · cases hpremise
    · obtain rfl := Option.some.inj hpremise
      obtain rfl := (List.cons.inj hg).1
      exact ⟨show "bb2" ≠ "error" by decide, _, rfl, hv⟩
    · -- the read asks for a `1`
      obtain rfl := Option.some.inj hpremise
      obtain rfl := (List.cons.inj hg).1
      have hone := holds_arrHas.1 (hc _ List.mem_cons_self)
      rw [hone] at hv
      simpa using congrArg Carriers.Val.toInt hv

/-- **A read is lost**: block `2` reads the array, but leads to no return, so no relation keeps the
column, and the query becomes derivable. -/
theorem unwindCtx_new_query :
    (unwindCtx [arrHas 1]).recorded (unwindCtx [arrHas 1]).readUsed 0 2 = true ∧
      (unwindCtx [arrHas 1]).keepMask 2 = [false] ∧
      (unwindCtx [arrHas 1]).pruneVcUnusedTypeArrays.Unsafe (default : Theory) ∧
      ¬ (unwindCtx [arrHas 1]).vc.Unsafe (default : Theory) := by
  refine ⟨by decide, by decide +kernel, ?_, ?_⟩
  · rw [pruneVcUnusedTypeArrays_unwindCtx]
    exact unsafe_prunedUnwindVc
  · rintro ⟨t, vs, htarget, hder⟩
    exact (zero_of_derives_unwindVc hder).1 (Option.some.inj htarget).symm

theorem columns_unwindCtx {name : String} (h : name ∈ ["bb0", "bb2"]) :
    (unwindCtx []).columns name 1 = some [true] := by
  simp only [List.mem_cons, List.not_mem_nil, or_false] at h
  rcases h with rfl | rfl <;> decide +kernel

theorem wellFormed_unwindVc : (unwindVc []).WellFormed := by
  refine ⟨fun r hr => ?_, fun r hr => ?_, by decide, fun r hr => ?_, by decide⟩ <;>
    simp only [unwindVc, List.mem_cons, List.not_mem_nil, or_false] at hr <;>
    rcases hr with rfl | rfl | rfl
  · exact ⟨by simp [Rule.terms, arr, arrHas, Op.accepts, Op.resultSort, SmtSort.arraySort],
      by simp [arrHas, Op.resultSort]⟩
  · exact ⟨by simp [Rule.terms, arr], by simp⟩
  · exact ⟨by simp [Rule.terms, arr, RelationApp.nullary], by simp⟩
  · simp [unwindVc, Rule.apps, arr]
  · simp [unwindVc, Rule.apps, arr]
  · simp [unwindVc, Rule.apps, arr, RelationApp.nullary]
  · simp [unwindVc, Rule.freeOccs, Rule.terms, arr, arrHas]
  · simp [unwindVc, Rule.freeOccs, Rule.terms, arr]
  · simp [unwindVc, Rule.freeOccs, Rule.terms, arr, RelationApp.nullary]

theorem linear_unwindVc : (unwindVc []).Linear := by
  intro r hr e he app happ
  simp only [unwindVc, List.mem_cons, List.not_mem_nil, or_false] at hr
  rcases hr with rfl | rfl | rfl <;>
    simp [Rule.mem_terms, arr, arrHas, RelationApp.nullary] at he <;>
    rcases he with rfl | rfl <;> simp [funcApps, funcAppsList] at happ

/-- The array is read from the only column. -/
def arrSource (x : String) : Option Source := if x = "arr" then some (.column 0) else none

theorem unread_of_handsOn {rel : String} {head : RelationApp} (hrel : rel ∈ ["bb0", "bb2"])
    (hhead : (unwindCtx []).columns.strip head.name head.args = []) (r' : Rule) :
    (Rule.mk ⟨some ⟨rel, [arr]⟩, []⟩ head).Unread (unwindCtx []).columns r' arrSource := by
  have hcolumns := columns_unwindCtx hrel
  refine ⟨?_, ?_, by simp [hhead], fun x e hx => ?_, by simp⟩
  · rintro a ha flags - i e he -
    obtain rfl := Option.some.inj ha
    match i with
    | 0 => exact ⟨"arr", _, (Option.some.inj he).symm, rfl⟩
    | _ + 1 => cases he
  · rintro a ha i e he hkept
    obtain rfl := Option.some.inj ha
    match i with
    | 0 => cases hkept _ hcolumns
    | _ + 1 => cases he
  · rw [arrSource] at hx
    split_ifs at hx
    cases hx

/-- Without the read the column is only handed on, and the query is as it was. -/
theorem pruneVcUnusedTypeArrays_exact_unwindCtx :
    (unwindCtx []).pruneVcUnusedTypeArrays.Unsafe (default : Theory) ↔
      (unwindCtx []).vc.Unsafe (default : Theory) := by
  obtain ⟨-, -, -, hqueries⟩ := pruneVcUnusedTypeArrays_exact (unwindCtx [])
  refine (hqueries default).2.2 wellFormed_unwindVc linear_unwindVc fun r hr => ?_
  have hstrip : ∀ name ∈ ["bb0", "bb2"], (unwindCtx []).columns.strip name [arr] = [] :=
    fun name hname => by
      rw [Columns.strip, List.length_singleton, columns_unwindCtx hname]
      rfl
  simp only [unwindCtx, unwindVc, List.mem_cons, List.not_mem_nil, or_false] at hr
  rcases hr with rfl | rfl | rfl
  · refine ⟨fun _ => none, by simp, by simp, ?_, by simp, ?_⟩
    · simp [hstrip "bb0"]
    · intro c hc
      have hself : (unwindCtx []).columns.stripTerm c = c := by
        obtain rfl := List.mem_singleton.1 hc
        exact Columns.stripTerm_eq_self (by simp [arr, arrHas, funcApps, funcAppsList])
      exact .inl ⟨List.mem_map.2 ⟨c, hc, hself⟩, fun _ _ => rfl⟩
  · exact ⟨_, unread_of_handsOn (by simp) (hstrip "bb2" (by simp)) _⟩
  · exact ⟨_, unread_of_handsOn (by simp) (Columns.strip_nil "error") _⟩

end PruneArrays

end TrustMc
