import TrustMc.Guards.Soundness
import TrustMc.Heap.StoreChains

/-!
# Store chains on edges

An edge out of a block carries the constraints of its statements and those of the terminator's
bridge, which may store to the same arrays. `gotoRuleExtra` leaves out the equations of the
statements for outputs that the bridge defines again; `gotoRuleSharedExtra` does not.

`edge_constraints`: where every operation keeps the writes (`StepsOk`), the first makes each output
the fold of all stores of the block, and where no output is defined twice so does the second.
-/

namespace TrustMc

namespace Heap

open ConstructorGuards TrustMc.Expr Carriers Carriers.Val

/-! ### Edges -/

/-- `extract_store_chain_out_name`. -/
def extractStoreChainOutName : Expr → Option String
  | .eq (.var name _) _ => if EndsWithOut name then some name else none
  | _ => none

/-- `filter_superseded_store_chains`. -/
def filterSupersededStoreChains (stmtConstraints bridgeConstraints : List Expr) :
    Option (List Expr) :=
  let overridden := bridgeConstraints.filterMap extractStoreChainOutName
  if overridden.isEmpty then none
  else if stmtConstraints.any fun c => (extractStoreChainOutName c).any (· ∈ overridden) then
    some (stmtConstraints.filter fun c => (extractStoreChainOutName c).all (· ∉ overridden))
  else none

/-- `append_constructor_guards`. -/
def appendConstructorGuards (addrs : (exprs : List Expr) → Addresses exprs) (extra : List Expr) :
    List Expr :=
  if extra.isEmpty then extra else extra ++ collectConstructorGuards (addrs extra)

/-- The constraints of the rule of `emit_goto_rule_extra`. -/
def gotoRuleExtra (addrs : (exprs : List Expr) → Addresses exprs)
    (stmtConstraints extra : List Expr) : List Expr :=
  (filterSupersededStoreChains stmtConstraints extra).getD stmtConstraints ++
    appendConstructorGuards addrs extra

/-- The constraints of the rule of `emit_goto_rule_shared_extra`. -/
def gotoRuleSharedExtra (addrs : (exprs : List Expr) → Addresses exprs)
    (stmtConstraints extra : List Expr) : List Expr :=
  stmtConstraints ++ appendConstructorGuards addrs extra

/-! ### Blocks -/

/-- A block: what its statements and then its bridge do to memory, and the constraints they emit
besides. -/
structure Block where
  stmtOps : List HeapOp
  stmtOthers : List Expr
  bridgeOps : List HeapOp
  bridgeOthers : List Expr

namespace Block

variable (A : Arrays) (b : Block)

/-- The statements, up to the drain at their end. -/
def stmts : ChcHeapState × Emitted := run A .start (b.stmtOps ++ [.drain])

/-- The bridge, up to its last drain. -/
def bridge : ChcHeapState × Emitted := run A (b.stmts A).1 (b.bridgeOps ++ [.drain])

/-- `stmt_constraints`. -/
def stmtConstraints : List Expr := b.stmtOthers ++ (b.stmts A).2.constraints

/-- `extra`. -/
def extra : List Expr := (b.bridge A).2.constraints ++ b.bridgeOthers

/-- All operations of the block. -/
def ops : List HeapOp := b.stmtOps ++ b.bridgeOps

/-- The arrays that the statements, and those that the bridge define. -/
def stmtKeys : List String := drainedIn A .start (b.stmtOps ++ [.drain])

@[inherit_doc stmtKeys]
def bridgeKeys : List String := drainedIn A (b.stmts A).1 (b.bridgeOps ++ [.drain])

/-- Every operation of the block keeps the writes. -/
def KeepsWrites : Prop :=
  StepsOk A [] .start [] (b.stmtOps ++ [.drain]) ∧
    StepsOk A (b.stmtKeys A) (b.stmts A).1 [] (b.bridgeOps ++ [.drain])

/-- The other constraints do not define the output of an array. -/
def OthersApart : Prop :=
  ∀ c ∈ b.stmtOthers ++ b.bridgeOthers, ∀ k, extractStoreChainOutName c ≠ some (A.array k).output

/-- What an edge says besides the stores. -/
def rest (addrs : (exprs : List Expr) → Addresses exprs) : List Expr :=
  (filterSupersededStoreChains b.stmtOthers (b.extra A)).getD b.stmtOthers ++ b.bridgeOthers ++
    collectConstructorGuards (addrs (b.extra A))

end Block

/-! ### The filter -/

theorem extractStoreChainOutName_outEq (A : Arrays) (k : String) (e : Expr) :
    extractStoreChainOutName (A.outEq k e) =
      if EndsWithOut (A.array k).output then some (A.array k).output else none := rfl

theorem mem_filterSupersededStoreChains {stmtConstraints bridgeConstraints : List Expr}
    {c : Expr} :
    c ∈ (filterSupersededStoreChains stmtConstraints bridgeConstraints).getD stmtConstraints ↔
      c ∈ stmtConstraints ∧ ∀ n, extractStoreChainOutName c = some n →
        ∀ c' ∈ bridgeConstraints, extractStoreChainOutName c' ≠ some n := by
  have hname : ∀ n, n ∉ bridgeConstraints.filterMap extractStoreChainOutName ↔
      ∀ c' ∈ bridgeConstraints, extractStoreChainOutName c' ≠ some n := by
    intro n
    rw [List.mem_filterMap]
    push Not
    rfl
  rw [filterSupersededStoreChains]
  split_ifs with hempty hconflict
  · have hnone := List.isEmpty_iff.1 hempty
    simp only [Option.getD_none, iff_self_and]
    intro _ n _
    rw [← hname, hnone]
    simp
  · simp only [Option.getD_some, List.mem_filter, Option.all_eq_true, decide_eq_true_eq]
    refine and_congr_right fun _ => forall_congr' fun n => ?_
    rw [← hname]
  · simp only [Option.getD_none, iff_self_and]
    intro hc n hn
    rw [← hname]
    intro hmem
    refine hconflict (List.any_eq_true.2 ⟨c, hc, ?_⟩)
    rw [hn]
    exact decide_eq_true hmem

/-- Without an output in common nothing is left out. -/
theorem filterSupersededStoreChains_eq_none {stmtConstraints bridgeConstraints : List Expr}
    (h : ∀ c ∈ stmtConstraints, ∀ n, extractStoreChainOutName c = some n →
      ∀ c' ∈ bridgeConstraints, extractStoreChainOutName c' ≠ some n) :
    filterSupersededStoreChains stmtConstraints bridgeConstraints = none := by
  rw [filterSupersededStoreChains]
  split_ifs with hempty hconflict
  · rfl
  · obtain ⟨c, hc, hany⟩ := List.any_eq_true.1 hconflict
    obtain ⟨n, hn, hmem⟩ := (Option.any_eq_true _ _).1 hany
    obtain ⟨c', hc', hn'⟩ := List.mem_filterMap.1 (of_decide_eq_true hmem)
    exact absurd hn' (h c hc n hn c' hc')
  · rfl

theorem mem_appendConstructorGuards {addrs : (exprs : List Expr) → Addresses exprs}
    {extra : List Expr} {c : Expr} :
    c ∈ appendConstructorGuards addrs extra ↔
      c ∈ extra ∨ c ∈ collectConstructorGuards (addrs extra) := by
  rw [appendConstructorGuards]
  split_ifs with hempty
  · obtain rfl := List.isEmpty_iff.1 hempty
    simp [collectConstructorGuards, roots]
  · exact List.mem_append

/-! ### The equations of a block -/

section Edges

variable {A : Arrays} {b : Block}

theorem fold_drain (k : String) (a c : List HeapOp) :
    A.fold k ((a ++ [.drain]) ++ (c ++ [.drain])) = A.fold k (a ++ c) := by
  rw [Arrays.fold, Arrays.fold]
  simp only [storesTo_append, storesTo_drain, List.append_nil]

namespace Block

/-- The seeds that the statements leave. -/
theorem chainsFold_stmts (h : b.KeepsWrites A) :
    ChainsFold A [] (b.stmtOps ++ [.drain]) (b.stmtKeys A) (b.stmts A).1
        (b.stmts A).2.constraints ∧
      (b.stmts A).2.loads = A.loadsAfter [] (b.stmtOps ++ [.drain]) := by
  have hstart := chainsFold_start A [] .start rfl (by simp [ChcHeapState.start])
  have hpast : ∀ k, storesTo k [] ≠ [] → k ∈ [] := by simp [storesTo]
  have hrun := hstart.run hpast h.1
  simp only [List.nil_append, List.append_nil] at hrun
  exact hrun

theorem chainsFold_bridge (h : b.KeepsWrites A) :
    ChainsFold A (b.stmtOps ++ [.drain]) (b.bridgeOps ++ [.drain]) (b.bridgeKeys A)
        (b.bridge A).1 (b.bridge A).2.constraints ∧
      (b.bridge A).2.loads = A.loadsAfter (b.stmtOps ++ [.drain]) (b.bridgeOps ++ [.drain]) := by
  obtain ⟨hf, -⟩ := chainsFold_stmts h
  have hlive : (b.stmts A).1.storeChains = ∅ := storeChains_run_drain A _ _
  have hstart := chainsFold_start A (b.stmtOps ++ [.drain]) (b.stmts A).1 hlive fun k e he => by
    simpa using hf.seed k e (by simp [hlive]) he
  have hpast : ∀ k, storesTo k (b.stmtOps ++ [.drain]) ≠ [] → k ∈ b.stmtKeys A := fun k hk => by
    exact ((hf.tracked k).1 hk).resolve_left (by simp [hlive])
  have hrun := hstart.run hpast h.2
  simp only [List.nil_append, List.append_nil] at hrun
  exact hrun

/-- The equations of the statements. -/
theorem mem_stmts (h : b.KeepsWrites A) {c : Expr} :
    c ∈ (b.stmts A).2.constraints ↔
      ∃ k, storesTo k b.stmtOps ≠ [] ∧ c = A.outEq k (A.fold k b.stmtOps) := by
  have hfold : ∀ k, A.fold k ([] ++ (b.stmtOps ++ [.drain])) = A.fold k b.stmtOps := fun k => by
    simp [Arrays.fold, storesTo_append]
  rw [(chainsFold_stmts h).1.mem_constraints (storeChains_run_drain A _ _)]
  simp only [hfold, storesTo_append, storesTo_drain, List.append_nil]

/-- The equations of the bridge, over all stores of the block. -/
theorem mem_bridge (h : b.KeepsWrites A) {c : Expr} :
    c ∈ (b.bridge A).2.constraints ↔
      ∃ k, storesTo k b.bridgeOps ≠ [] ∧ c = A.outEq k (A.fold k b.ops) := by
  rw [(chainsFold_bridge h).1.mem_constraints (storeChains_run_drain A _ _)]
  simp only [fold_drain, storesTo_append, storesTo_drain, List.append_nil]
  rfl

/-- An array that both store to has an output the filter sees. -/
theorem endsWithOut_of_both (h : b.KeepsWrites A) {k : String} (hs : storesTo k b.stmtOps ≠ [])
    (hb : storesTo k b.bridgeOps ≠ []) : EndsWithOut (A.array k).output := by
  refine h.2.endsWithOut (k := k) ?_ ?_
  · have hlive : (b.bridge A).1.storeChains = ∅ := storeChains_run_drain A _ _
    have hk := ((chainsFold_bridge h).1.tracked k).1 (by simpa [storesTo_append] using hb)
    exact hk.resolve_left (by simp [hlive])
  · have hlive : (b.stmts A).1.storeChains = ∅ := storeChains_run_drain A _ _
    have hk := ((chainsFold_stmts h).1.tracked k).1 (by simpa [storesTo_append] using hs)
    exact hk.resolve_left (by simp [hlive])

/-- An output that the extra constraints define is that of an array the bridge stores to. -/
theorem storesTo_of_mem_extra (h : b.KeepsWrites A) (hothers : b.OthersApart A) {c : Expr}
    (hc : c ∈ b.extra A) {k : String}
    (hname : extractStoreChainOutName c = some (A.array k).output) :
    storesTo k b.bridgeOps ≠ [] := by
  rcases List.mem_append.1 hc with hc | hc
  · obtain ⟨k', hk', rfl⟩ := (mem_bridge h).1 hc
    rw [extractStoreChainOutName_outEq] at hname
    split_ifs at hname
    obtain rfl := A.output_inj k' k (Option.some.inj hname)
    exact hk'
  · exact absurd hname (hothers c (List.mem_append_right _ hc) k)

end Block

variable {T : Theory} {ρ : T.Env} (addrs : (exprs : List Expr) → Addresses exprs)

/-- The outputs of all arrays that are stored to are the folds of the stores. -/
def OutputsFold (A : Arrays) (b : Block) (ρ : T.Env) : Prop :=
  ∀ k, storesTo k b.ops ≠ [] →
    (Expr.var (A.array k).output (A.array k).sort).eval ρ = (A.fold k b.ops).eval ρ

/-- The edge that filters. -/
theorem holds_gotoRuleExtra (h : b.KeepsWrites A) (hothers : b.OthersApart A) :
    (∀ c ∈ gotoRuleExtra addrs (b.stmtConstraints A) (b.extra A), Holds ρ c) ↔
      OutputsFold A b ρ ∧ ∀ c ∈ b.rest A addrs, Holds ρ c := by
  have hrest : ∀ c, c ∈ b.rest A addrs ↔ (c ∈ b.stmtOthers ∧
      ∀ n, extractStoreChainOutName c = some n →
        ∀ c' ∈ b.extra A, extractStoreChainOutName c' ≠ some n) ∨ c ∈ b.bridgeOthers ∨
          c ∈ collectConstructorGuards (addrs (b.extra A)) := fun c => by
    rw [Block.rest, List.mem_append, List.mem_append, mem_filterSupersededStoreChains, or_assoc]
  -- without a store of the bridge, the statements have all stores
  have hfold : ∀ k, storesTo k b.bridgeOps = [] → A.fold k b.stmtOps = A.fold k b.ops :=
    fun k hk => (A.fold_eq_of_storesTo hk).symm
  constructor
  · intro hall
    refine ⟨fun k hk => ?_, fun c hc => ?_⟩
    · suffices hholds : Holds ρ (A.outEq k (A.fold k b.ops)) from holds_eq.1 hholds
      by_cases hb : storesTo k b.bridgeOps = []
      · have hs : storesTo k b.stmtOps ≠ [] := by
          rw [Block.ops, storesTo_append, hb, List.append_nil] at hk
          exact hk
        refine hall _ (List.mem_append_left _ (mem_filterSupersededStoreChains.2 ⟨?_, ?_⟩))
        · exact List.mem_append_right _ ((Block.mem_stmts h).2 ⟨k, hs, by rw [hfold k hb]⟩)
        · intro n hn c' hc' hn'
          rw [extractStoreChainOutName_outEq] at hn
          split_ifs at hn
          obtain rfl := Option.some.inj hn
          exact Block.storesTo_of_mem_extra h hothers hc' hn' hb
      · refine hall _ (List.mem_append_right _ (mem_appendConstructorGuards.2 (.inl ?_)))
        exact List.mem_append_left _ ((Block.mem_bridge h).2 ⟨k, hb, rfl⟩)
    · refine hall c ?_
      rcases (hrest c).1 hc with ⟨hc, hn⟩ | hc | hc
      · exact List.mem_append_left _
          (mem_filterSupersededStoreChains.2 ⟨List.mem_append_left _ hc, hn⟩)
      · exact List.mem_append_right _
          (mem_appendConstructorGuards.2 (.inl (List.mem_append_right _ hc)))
      · exact List.mem_append_right _ (mem_appendConstructorGuards.2 (.inr hc))
  · rintro ⟨houtputs, hothersHold⟩ c hc
    rcases List.mem_append.1 hc with hc | hc
    · obtain ⟨hc, hn⟩ := mem_filterSupersededStoreChains.1 hc
      rcases List.mem_append.1 hc with hc | hc
      · exact hothersHold c ((hrest c).2 (.inl ⟨hc, hn⟩))
      · obtain ⟨k, hs, rfl⟩ := (Block.mem_stmts h).1 hc
        have hb : storesTo k b.bridgeOps = [] := by
          by_contra hb
          have hout := Block.endsWithOut_of_both h hs hb
          have hmem : A.outEq k (A.fold k b.ops) ∈ b.extra A :=
            List.mem_append_left _ ((Block.mem_bridge h).2 ⟨k, hb, rfl⟩)
          exact hn (A.array k).output (by rw [extractStoreChainOutName_outEq, if_pos hout]) _ hmem
            (by rw [extractStoreChainOutName_outEq, if_pos hout])
        rw [hfold k hb]
        refine holds_eq.2 (houtputs k ?_)
        rw [Block.ops, storesTo_append]
        simp [hs]
    · rcases mem_appendConstructorGuards.1 hc with hc | hc
      · rcases List.mem_append.1 hc with hc | hc
        · obtain ⟨k, hb, rfl⟩ := (Block.mem_bridge h).1 hc
          refine holds_eq.2 (houtputs k ?_)
          rw [Block.ops, storesTo_append]
          simp [hb]
        · exact hothersHold c ((hrest c).2 (.inr (.inl hc)))
      · exact hothersHold c ((hrest c).2 (.inr (.inr hc)))

/-- Nothing is defined both by the statements and by the bridge. -/
def Block.DefinesOnce (b : Block) : Prop :=
  (∀ k, storesTo k b.stmtOps ≠ [] → storesTo k b.bridgeOps = []) ∧
    ∀ c ∈ b.stmtOthers, ∀ n, extractStoreChainOutName c = some n →
      ∀ c' ∈ b.bridgeOthers, extractStoreChainOutName c' ≠ some n

/-- The edge that does not filter. -/
theorem gotoRuleSharedExtra_eq (h : b.KeepsWrites A) (hothers : b.OthersApart A)
    (honce : b.DefinesOnce) :
    gotoRuleSharedExtra addrs (b.stmtConstraints A) (b.extra A) =
      gotoRuleExtra addrs (b.stmtConstraints A) (b.extra A) := by
  rw [gotoRuleSharedExtra, gotoRuleExtra, filterSupersededStoreChains_eq_none, Option.getD_none]
  intro c hc n hn c' hc' hn'
  rcases List.mem_append.1 hc with hc | hc
  · rcases List.mem_append.1 hc' with hc' | hc'
    · obtain ⟨k, -, rfl⟩ := (Block.mem_bridge h).1 hc'
      rw [extractStoreChainOutName_outEq] at hn'
      split_ifs at hn'
      exact hothers c (List.mem_append_left _ hc) k (hn.trans hn'.symm)
    · exact honce.2 c hc n hn c' hc' hn'
  · obtain ⟨k, hs, rfl⟩ := (Block.mem_stmts h).1 hc
    rw [extractStoreChainOutName_outEq] at hn
    split_ifs at hn
    obtain rfl := Option.some.inj hn
    exact Block.storesTo_of_mem_extra h hothers hc' hn' (honce.1 k hs)

/-- **Store chains.** In a block whose operations all keep the writes, loads read the stores before
them; the edge that filters says that every output is the fold of all stores to its array, and
what the other constraints say; an equation it leaves out is continued by one that stays; and the
edge that does not filter says the same where nothing is defined twice. -/
theorem edge_constraints (h : b.KeepsWrites A) (hothers : b.OthersApart A) :
    (b.stmts A).2.loads ++ (b.bridge A).2.loads = A.loadsAfter [] (b.stmtOps ++ [.drain]) ++
        A.loadsAfter (b.stmtOps ++ [.drain]) (b.bridgeOps ++ [.drain]) ∧
      (∀ {T : Theory} (ρ : T.Env),
        (∀ c ∈ gotoRuleExtra addrs (b.stmtConstraints A) (b.extra A), Holds ρ c) ↔
          OutputsFold A b ρ ∧ ∀ c ∈ b.rest A addrs, Holds ρ c) ∧
      (∀ c ∈ (b.stmts A).2.constraints,
        c ∉ (filterSupersededStoreChains (b.stmtConstraints A) (b.extra A)).getD
          (b.stmtConstraints A) → ∃ k, c = A.outEq k (A.fold k b.stmtOps) ∧
            A.outEq k (storeAll (A.fold k b.stmtOps) (storesTo k b.bridgeOps)) ∈ b.extra A) ∧
      (b.DefinesOnce → ∀ {T : Theory} (ρ : T.Env),
        (∀ c ∈ gotoRuleSharedExtra addrs (b.stmtConstraints A) (b.extra A), Holds ρ c) ↔
          ∀ c ∈ gotoRuleExtra addrs (b.stmtConstraints A) (b.extra A), Holds ρ c) := by
  refine ⟨?_, fun ρ => holds_gotoRuleExtra addrs h hothers, fun c hc hout => ?_,
    fun honce T ρ => by rw [gotoRuleSharedExtra_eq addrs h hothers honce]⟩
  · rw [(Block.chainsFold_stmts h).2, (Block.chainsFold_bridge h).2]
  · obtain ⟨k, hs, rfl⟩ := (Block.mem_stmts h).1 hc
    refine ⟨k, rfl, ?_⟩
    rw [mem_filterSupersededStoreChains] at hout
    push Not at hout
    obtain ⟨n, hn, c', hc', hn'⟩ := hout (List.mem_append_right _ hc)
    rw [extractStoreChainOutName_outEq] at hn
    split_ifs at hn
    obtain rfl := Option.some.inj hn
    have hb := Block.storesTo_of_mem_extra h hothers hc' hn'
    rw [← A.fold_append]
    exact List.mem_append_left _ ((Block.mem_bridge h).2 ⟨k, hb, rfl⟩)

end Edges

/-! ### A write that is kept and one that is lost -/

/-- Arrays of words, one for each type. -/
def wordArrays : Arrays where
  array k := ⟨"mem_" ++ k, "mem_" ++ k ++ "__out", .bitvec 64⟩
  elemSortOf _ := some (.bitvec 64)
  output_inj k k' h := by
    have hlist := congrArg String.toList h
    exact String.toList_injective (by simpa using hlist)
  elemSortOf_eq _ _ _ _ h := (Option.some.inj h).symm

/-- The sort of their arrays. -/
def wordMemory : SmtSort := .array ptrSort (.bitvec 64)

/-- A word. -/
def word (n : ℕ) : Expr := .bitVecConst (BitVec.ofNat 64 n)

/-- A store and a load by the statements, and a store to the same array by the bridge. -/
def storeTwice : Block where
  stmtOps := [.store "u64" (word 0) (word 1), .load "u64" (word 0)]
  stmtOthers := []
  bridgeOps := [.store "u64" (word 8) (word 2)]
  bridgeOthers := []

/-- A store through a pointer to a reference, and the bridge that makes a reference of a value: it
stores the value and drains, then it stores the reference. -/
def promotion : Block where
  stmtOps := [.store "Ref_u64" (word 0) (word 1)]
  stmtOthers := []
  bridgeOps := [.store "u64" (word 8) (word 2), .drain, .store "Ref_u64" (word 16) (word 8)]
  bridgeOthers := []

/-- Both writes reach the output, and the load reads the first. -/
theorem storeTwice_edge :
    storeTwice.KeepsWrites wordArrays ∧ storeTwice.OthersApart wordArrays ∧
      (storeTwice.stmts wordArrays).2.loads ++ (storeTwice.bridge wordArrays).2.loads =
        [.select (.store (.var "mem_u64" wordMemory) (word 0) (word 1)) (word 0)] ∧
      ∀ {T : Theory} (ρ : T.Env), (∀ c ∈ gotoRuleExtra .distinct
          (storeTwice.stmtConstraints wordArrays) (storeTwice.extra wordArrays), Holds ρ c) ↔
        (Expr.var "mem_u64__out" wordMemory).eval ρ =
          (Expr.store (.store (.var "mem_u64" wordMemory) (word 0) (word 1)) (word 8)
            (word 2)).eval ρ := by
  have hkeeps : storeTwice.KeepsWrites wordArrays :=
    ⟨⟨by decide, by decide, by decide, trivial⟩, by decide, by decide, trivial⟩
  have hothers : storeTwice.OthersApart wordArrays := by simp [Block.OthersApart, storeTwice]
  obtain ⟨hloads, hedge, -, -⟩ := edge_constraints .distinct hkeeps hothers
  refine ⟨hkeeps, hothers, hloads, fun {T} ρ => (hedge ρ).trans ?_⟩
  have hrest : storeTwice.rest wordArrays .distinct = [] := by decide +kernel
  rw [hrest]
  constructor
  · rintro ⟨houtputs, -⟩
    exact houtputs "u64" (by decide)
  · intro hout
    refine ⟨fun k hk => ?_, by simp⟩
    obtain rfl : "u64" = k := by
      by_contra hne
      exact hk (by simp [storesTo, Block.ops, storeTwice, hne])
    exact hout

/-- Memory of zeros. -/
def zeros (T : Theory) : T.Val :=
  ⟨wordMemory, show SmtSort.denote T.carrier wordMemory from fun _ => 0#64⟩

theorem selectVal_storeVal_ofBV {T : Theory} {a : T.Val} (ha : a.1 = wordMemory)
    (x y v : BitVec 64) :
    selectVal (storeVal a (ofBV x) (ofBV v)) (ofBV y) =
      if y = x then ofBV v else selectVal a (ofBV y) := by
  have hselect := selectVal_storeVal (v := ofBV x) (x := ofBV v) ha rfl y
  have hx : as ptrSort (ofBV x : T.Val) = x := toBV_ofBV x
  rw [hx] at hselect
  by_cases hyx : y = x
  · rw [if_pos hyx]
    exact hselect.trans (if_pos hyx)
  · rw [if_neg hyx]
    exact hselect.trans (if_neg hyx)

/-- The second drain of the bridge forgot the statement's chain, and the filter leaves its equation
out; without the filter the edge says that the output is two different arrays. -/
theorem promotion_loses_write :
    ∃ ρ : (default : Theory).Env,
      (∀ c ∈ gotoRuleExtra .distinct (promotion.stmtConstraints wordArrays)
        (promotion.extra wordArrays), Holds ρ c) ∧
      ¬ OutputsFold wordArrays promotion ρ ∧
      ¬ ∀ c ∈ gotoRuleSharedExtra .distinct (promotion.stmtConstraints wordArrays)
        (promotion.extra wordArrays), Holds ρ c := by
  have hedge : gotoRuleExtra .distinct (promotion.stmtConstraints wordArrays)
      (promotion.extra wordArrays) =
        [wordArrays.outEq "u64" (.store (.var "mem_u64" wordMemory) (word 8) (word 2)),
          wordArrays.outEq "Ref_u64"
            (.store (.var "mem_Ref_u64" wordMemory) (word 16) (word 8))] := by
    decide +kernel
  have hlost : wordArrays.outEq "Ref_u64"
      (.store (.var "mem_Ref_u64" wordMemory) (word 0) (word 1)) ∈
        gotoRuleSharedExtra .distinct (promotion.stmtConstraints wordArrays)
          (promotion.extra wordArrays) := by
    decide +kernel
  -- memory is zero, and the outputs are what the edge says
  let ρ : (default : Theory).Env := Theory.Env.ofVals fun name =>
    if name = "mem_u64__out" then storeVal (zeros _) (ofBV 8#64) (ofBV 2#64)
    else if name = "mem_Ref_u64__out" then storeVal (zeros _) (ofBV 16#64) (ofBV 8#64)
    else zeros _
  have hstore : ∀ arr a v, (Expr.store arr (word a) (word v)).eval ρ =
      storeVal (arr.eval ρ) (ofBV (BitVec.ofNat 64 a)) (ofBV (BitVec.ofNat 64 v)) :=
    fun arr a v => eval_store arr _ _ ρ
  have hin : (Expr.var "mem_u64" wordMemory).eval ρ = zeros _ := eval_var_ofVals rfl
  have hinRef : (Expr.var "mem_Ref_u64" wordMemory).eval ρ = zeros _ := eval_var_ofVals rfl
  have hout : (Expr.var "mem_u64__out" wordMemory).eval ρ =
      storeVal (zeros _) (ofBV 8#64) (ofBV 2#64) := eval_var_ofVals rfl
  have houtRef : (Expr.var "mem_Ref_u64__out" wordMemory).eval ρ =
      storeVal (zeros _) (ofBV 16#64) (ofBV 8#64) := eval_var_ofVals rfl
  -- the output still has the zero that the statement overwrote
  have hread : selectVal ((Expr.var "mem_Ref_u64__out" wordMemory).eval ρ) (ofBV 0#64) =
      ofBV 0#64 := by
    rw [houtRef, selectVal_storeVal_ofBV rfl, if_neg (by decide)]
    rfl
  refine ⟨ρ, ?_, fun houtputs => ?_, fun hall => ?_⟩
  · rw [hedge]
    intro c hc
    rcases List.mem_pair.1 hc with rfl | rfl
    · exact holds_eq.2 (hout.trans (by rw [hstore, hin]))
    · exact holds_eq.2 (houtRef.trans (by rw [hstore, hinRef]))
  · have hfold : wordArrays.fold "Ref_u64" promotion.ops =
        .store (.store (.var "mem_Ref_u64" wordMemory) (word 0) (word 1)) (word 16) (word 8) := by
      decide +kernel
    have heq := houtputs "Ref_u64" (by decide)
    rw [hfold] at heq
    have hread' := hread
    rw [show (Expr.var "mem_Ref_u64__out" wordMemory).eval ρ = _ from heq, hstore, hstore, hinRef,
      selectVal_storeVal_ofBV rfl, if_neg (by decide), selectVal_storeVal_ofBV rfl, if_pos rfl,
      ofBV_inj] at hread'
    exact absurd hread' (by decide)
  · have hread' := hread
    rw [show (Expr.var "mem_Ref_u64__out" wordMemory).eval ρ = _ from holds_eq.1 (hall _ hlost),
      hstore, hinRef, selectVal_storeVal_ofBV rfl, if_pos rfl, ofBV_inj] at hread'
    exact absurd hread' (by decide)

end Heap

end TrustMc
