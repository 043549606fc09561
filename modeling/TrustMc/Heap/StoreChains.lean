import TrustMc.Smt.Eval
import Mathlib.Data.List.AList
import Mathlib.Data.List.Sort

/-!
# Store chains

The model of `heap_store_chains.rs`. Within a block the stores to a memory array are nested into
one term, its **chain**; a drain turns every chain into one equation for the output of its array
and keeps the chain as a **seed**, on which later stores of the block build.

A drain forgets the seeds of the drain before. `ChainsFold` is what holds all the same as long as no
store comes to an array whose chain was drained and forgotten (`ChainsFold.step`): chains, seeds
and equations are the fold of the stores to their array, in program order, over its input.
-/

namespace TrustMc

namespace Heap

/-! ### Arrays -/

/-- `ptr_sort`. -/
def ptrSort : SmtSort := .bitvec 64

/-- A memory array: the variables of its value before and after the block. -/
structure MemArray where
  input : String
  output : String
  elemSort : SmtSort

/-- `ptr_array_sort` of the elements. -/
def MemArray.sort (a : MemArray) : SmtSort := .array ptrSort a.elemSort

/-- `name.strip_suffix("__out")`. -/
def stripOut (name : String) : Option String :=
  if "__out".toList <:+ name.toList then
    some (String.ofList (name.toList.take (name.toList.length - 5)))
  else none

/-- The arrays of a block: what `get_or_create_type_array` and `current_array_state_names` give for
a type key, and `array_name_to_elem_sort`. -/
structure Arrays where
  array : String → MemArray
  elemSortOf : String → Option SmtSort
  /-- Different keys have different outputs. -/
  output_inj : ∀ k k', (array k).output = (array k').output → k = k'
  /-- An array is declared with the sort of its elements. -/
  elemSortOf_eq : ∀ k name s, stripOut (array k).output = some name → elemSortOf name = some s →
    s = (array k).elemSort

/-- `expected_store_chain_output_sort`. -/
def Arrays.expectedStoreChainOutputSort (A : Arrays) (arrOutName : String) : Option SmtSort := do
  let arrInName ← stripOut arrOutName
  let elemSort ← A.elemSortOf arrInName
  return .array ptrSort elemSort

/-! ### Chains -/

/-- `ChcHeapState`, as far as store chains go. A chain has the name of its output. -/
structure ChcHeapState where
  storeChains : AList fun _ : String => String × Expr
  drainedStoreChainSeeds : AList fun _ : String => Expr

namespace ChcHeapState

/-- The state at the start of a block, after `reset_modified_arrays`. -/
def start : ChcHeapState := ⟨∅, ∅⟩

/-- `accumulate_store`. -/
def accumulateStore (h : ChcHeapState) (typeKey arrOutName : String) (storeExpr : Expr) :
    ChcHeapState :=
  { h with storeChains := h.storeChains.insert typeKey (arrOutName, storeExpr) }

/-- `get_store_chain`. -/
def getStoreChain (h : ChcHeapState) (typeKey : String) : Option Expr :=
  ((h.storeChains.lookup typeKey).map Prod.snd).or (h.drainedStoreChainSeeds.lookup typeKey)

/-- The equation of a drained chain; none where the sorts differ. -/
def drainChain (A : Arrays) (arrOutName : String) (storeExpr : Expr) : Option Expr :=
  let outSort := (A.expectedStoreChainOutputSort arrOutName).getD storeExpr.sort
  if outSort ≠ storeExpr.sort then none else some (.eq (.var arrOutName outSort) storeExpr)

/-- `drain_store_chains`. -/
def drainStoreChains (A : Arrays) (h : ChcHeapState) : ChcHeapState × List Expr :=
  let seeds : AList fun _ : String => Expr :=
    ⟨h.storeChains.entries.map (Sigma.map id fun _ chain => chain.2),
      List.NodupKeys.map₂ _ _ h.storeChains.nodupKeys⟩
  let entries := h.storeChains.entries.insertionSort fun a b => a.1 ≤ b.1
  (⟨∅, seeds⟩, entries.filterMap fun entry => drainChain A entry.2.1 entry.2.2)

/-- The array a load or store of the key goes to. -/
def arrayBase (A : Arrays) (h : ChcHeapState) (typeKey : String) : Expr :=
  (h.getStoreChain typeKey).getD (.var (A.array typeKey).input (A.array typeKey).sort)

end ChcHeapState

/-! ### Operations of a block -/

/-- What happens to memory within a block. -/
inductive HeapOp
  | store (typeKey : String) (addr value : Expr)
  | load (typeKey : String) (addr : Expr)
  | drain

/-- The equations a block emitted, and the terms its loads read. -/
structure Emitted where
  constraints : List Expr
  loads : List Expr

/-- `store_to_type_array` with the value already of the array's sort, `load_from_type_array`,
and `drain_store_chains`. -/
def step (A : Arrays) (h : ChcHeapState) : HeapOp → ChcHeapState × Emitted
  | .store typeKey addr value =>
    (h.accumulateStore typeKey (A.array typeKey).output (.store (h.arrayBase A typeKey) addr value),
      ⟨[], []⟩)
  | .load typeKey addr => (h, ⟨[], [.select (h.arrayBase A typeKey) addr]⟩)
  | .drain =>
    let (h, constraints) := h.drainStoreChains A
    (h, ⟨constraints, []⟩)

/-- A sequence of operations. -/
def run (A : Arrays) : ChcHeapState → List HeapOp → ChcHeapState × Emitted
  | h, [] => (h, ⟨[], []⟩)
  | h, op :: ops =>
    let (h, first) := step A h op
    let (h, rest) := run A h ops
    (h, ⟨first.constraints ++ rest.constraints, first.loads ++ rest.loads⟩)

/-! ### What the chains should be -/

/-- The stores to an array, in program order. -/
def storesTo (typeKey : String) (ops : List HeapOp) : List (Expr × Expr) :=
  ops.filterMap fun
    | .store k addr value => if k = typeKey then some (addr, value) else none
    | _ => none

/-- Stores on top of an array. -/
def storeAll (arr : Expr) (stores : List (Expr × Expr)) : Expr :=
  stores.foldl (fun arr (addr, value) => .store arr addr value) arr

/-- An array after the operations, over its input. -/
def Arrays.fold (A : Arrays) (typeKey : String) (ops : List HeapOp) : Expr :=
  storeAll (.var (A.array typeKey).input (A.array typeKey).sort) (storesTo typeKey ops)

/-- What the loads of the operations should read, after the operations before them. -/
def Arrays.loadsAfter (A : Arrays) : List HeapOp → List HeapOp → List Expr
  | _, [] => []
  | before, .load k addr :: ops =>
    .select (A.fold k before) addr :: A.loadsAfter (before ++ [.load k addr]) ops
  | before, op :: ops => A.loadsAfter (before ++ [op]) ops

/-! ### When writes are kept -/

/-- The keys whose chains an operation drains. -/
def drainedBy (h : ChcHeapState) : HeapOp → List String
  | .drain => h.storeChains.keys
  | _ => []

/-- The name of an output that `extract_store_chain_out_name` sees. -/
def EndsWithOut (name : String) : Prop := "__out".toList <:+ name.toList

instance (name : String) : Decidable (EndsWithOut name) :=
  inferInstanceAs (Decidable (_ <:+ _))

/-- A load or store finds a chain or a seed, or no chain of its array was drained yet. A drain drains
no array a second time since the constraints were last collected (`now`), and arrays that were
drained before that have outputs which the filter sees. -/
def StepOk (A : Arrays) (h : ChcHeapState) (before now : List String) : HeapOp → Prop
  | .store k _ _ | .load k _ => (h.getStoreChain k).isSome = true ∨ k ∉ before ++ now
  | .drain => ∀ k ∈ h.storeChains.keys, k ∉ now ∧ (k ∈ before → EndsWithOut (A.array k).output)

/-- Every operation of the sequence does so. -/
def StepsOk (A : Arrays) (before : List String) :
    ChcHeapState → List String → List HeapOp → Prop
  | _, _, [] => True
  | h, now, op :: ops =>
    StepOk A h before now op ∧ StepsOk A before (step A h op).1 (now ++ drainedBy h op) ops

/-- The keys that a sequence drains. -/
def drainedIn (A : Arrays) : ChcHeapState → List HeapOp → List String
  | _, [] => []
  | h, op :: ops => drainedBy h op ++ drainedIn A (step A h op).1 ops

instance (A : Arrays) (h : ChcHeapState) (before now : List String) (op : HeapOp) :
    Decidable (StepOk A h before now op) :=
  match op with
  | .store k _ _ => inferInstanceAs (Decidable (_ ∨ k ∉ _))
  | .load k _ => inferInstanceAs (Decidable (_ ∨ k ∉ _))
  | .drain => inferInstanceAs (Decidable (∀ k ∈ h.storeChains.keys, k ∉ now ∧ (k ∈ before → _)))

/-! ### Folds -/

theorem storesTo_append (k : String) (a b : List HeapOp) :
    storesTo k (a ++ b) = storesTo k a ++ storesTo k b := List.filterMap_append

@[simp]
theorem storesTo_store_self (k : String) (addr value : Expr) :
    storesTo k [.store k addr value] = [(addr, value)] := by simp [storesTo]

theorem storesTo_store_ne {k k' : String} (h : k' ≠ k) (addr value : Expr) :
    storesTo k [.store k' addr value] = [] := by simp [storesTo, h]

@[simp] theorem storesTo_load (k k' : String) (addr : Expr) : storesTo k [.load k' addr] = [] := rfl

@[simp] theorem storesTo_drain (k : String) : storesTo k [.drain] = [] := rfl

theorem Arrays.fold_append (A : Arrays) (k : String) (a b : List HeapOp) :
    A.fold k (a ++ b) = storeAll (A.fold k a) (storesTo k b) := by
  rw [Arrays.fold, storesTo_append, storeAll, List.foldl_append]
  rfl

theorem Arrays.fold_eq_of_storesTo (A : Arrays) {k : String} {a b : List HeapOp}
    (h : storesTo k b = []) : A.fold k (a ++ b) = A.fold k a := by
  rw [Arrays.fold_append, h]
  rfl

theorem sort_storeAll (arr : Expr) (stores : List (Expr × Expr)) :
    (storeAll arr stores).sort = arr.sort := by
  induction stores generalizing arr with
  | nil => rfl
  | cons s stores ih =>
    rw [storeAll, List.foldl_cons]
    exact (ih _).trans (by simp [Op.resultSort])

theorem Arrays.sort_fold (A : Arrays) (k : String) (ops : List HeapOp) :
    (A.fold k ops).sort = (A.array k).sort := by
  rw [Arrays.fold, sort_storeAll]
  rfl

/-- The equation of an output. -/
def Arrays.outEq (A : Arrays) (k : String) (e : Expr) : Expr :=
  .eq (.var (A.array k).output (A.array k).sort) e

theorem drainChain_eq (A : Arrays) {k : String} {e : Expr} (h : e.sort = (A.array k).sort) :
    ChcHeapState.drainChain A (A.array k).output e = some (A.outEq k e) := by
  have hsort : (A.expectedStoreChainOutputSort (A.array k).output).getD e.sort = e.sort := by
    cases hx : A.expectedStoreChainOutputSort (A.array k).output with
    | none => rfl
    | some s =>
      simp only [Arrays.expectedStoreChainOutputSort, Option.bind_eq_bind,
        Option.bind_eq_some_iff, Option.pure_def, Option.some.injEq] at hx
      obtain ⟨name, hname, elemSort, helem, rfl⟩ := hx
      rw [Option.getD_some, h, MemArray.sort, A.elemSortOf_eq k name elemSort hname helem]
  rw [ChcHeapState.drainChain, hsort, if_neg (by simp), h]
  rfl

/-! ### The invariant -/

/-- Chains, seeds and equations are folds of the stores so far: those of `past`, whose keys were
drained `before`, and those of `cur`, whose keys were drained `now` or have a chain. -/
structure ChainsFold (A : Arrays) (past cur : List HeapOp) (now : List String)
    (h : ChcHeapState) (constraints : List Expr) : Prop where
  chain : ∀ k arrOutName e, h.storeChains.lookup k = some (arrOutName, e) →
    arrOutName = (A.array k).output ∧ e = A.fold k (past ++ cur)
  seed : ∀ k e, k ∉ h.storeChains → h.drainedStoreChainSeeds.lookup k = some e →
    e = A.fold k (past ++ cur)
  tracked : ∀ k, storesTo k cur ≠ [] ↔ k ∈ h.storeChains ∨ k ∈ now
  equations : ∀ c ∈ constraints, ∃ k ∈ now, ∃ e, c = A.outEq k e ∧
    (k ∉ h.storeChains → e = A.fold k (past ++ cur))
  emitted : ∀ k ∈ now, ∃ e, A.outEq k e ∈ constraints

section Step

variable {A : Arrays} {past cur : List HeapOp} {before now : List String} {h : ChcHeapState}
  {constraints : List Expr}

/-- Where a load or store finds what was written, it finds the fold. -/
theorem ChainsFold.arrayBase_eq (hf : ChainsFold A past cur now h constraints)
    (hpast : ∀ k, storesTo k past ≠ [] → k ∈ before) {k : String}
    (hok : (h.getStoreChain k).isSome = true ∨ k ∉ before ++ now) :
    h.arrayBase A k = A.fold k (past ++ cur) := by
  rw [ChcHeapState.arrayBase]
  cases hchain : h.storeChains.lookup k with
  | some entry =>
    obtain ⟨arrOutName, e⟩ := entry
    rw [ChcHeapState.getStoreChain, hchain]
    exact (hf.chain k arrOutName e hchain).2
  | none =>
    have hk : k ∉ h.storeChains := AList.lookup_eq_none.1 hchain
    cases hseed : h.drainedStoreChainSeeds.lookup k with
    | some e =>
      rw [ChcHeapState.getStoreChain, hchain, hseed]
      exact hf.seed k e hk hseed
    | none =>
      have hnone : h.getStoreChain k = none := by
        rw [ChcHeapState.getStoreChain, hchain, hseed]
        rfl
      -- neither chain nor seed, so nothing was stored yet
      have hfresh : k ∉ before ++ now := hok.resolve_left (by simp [hnone])
      simp only [List.mem_append, not_or] at hfresh
      have hp : storesTo k past = [] := by
        by_contra hne
        exact hfresh.1 (hpast k hne)
      have hc : storesTo k cur = [] := by
        by_contra hne
        exact ((hf.tracked k).1 hne).elim hk hfresh.2
      rw [hnone, Option.getD_none, Arrays.fold, storesTo_append, hp, hc]
      rfl

theorem ChainsFold.store (hf : ChainsFold A past cur now h constraints)
    (hpast : ∀ k, storesTo k past ≠ [] → k ∈ before) {k : String} {addr value : Expr}
    (hok : StepOk A h before now (.store k addr value)) :
    ChainsFold A past (cur ++ [.store k addr value]) now (step A h (.store k addr value)).1
      constraints := by
  have hbase := hf.arrayBase_eq hpast hok
  have hne : ∀ {k'}, k' ≠ k → A.fold k' (past ++ (cur ++ [.store k addr value])) =
      A.fold k' (past ++ cur) := fun hk' => by
    rw [← List.append_assoc, A.fold_eq_of_storesTo (storesTo_store_ne hk'.symm _ _)]
  refine ⟨?_, ?_, ?_, ?_, hf.emitted⟩
  · intro k' arrOutName e hlookup
    by_cases hk' : k' = k
    · subst hk'
      rw [step, ChcHeapState.accumulateStore, AList.lookup_insert, Option.some.injEq,
        Prod.mk.injEq] at hlookup
      obtain ⟨rfl, rfl⟩ := hlookup
      refine ⟨rfl, ?_⟩
      rw [hbase, ← List.append_assoc, A.fold_append k' (past ++ cur), storesTo_store_self]
      rfl
    · rw [step, ChcHeapState.accumulateStore, AList.lookup_insert_ne hk'] at hlookup
      rw [hne hk']
      exact hf.chain k' arrOutName e hlookup
  · intro k' e hk' hseed
    rw [step, ChcHeapState.accumulateStore, AList.mem_insert, not_or] at hk'
    rw [hne hk'.1]
    exact hf.seed k' e hk'.2 hseed
  · intro k'
    rw [step, ChcHeapState.accumulateStore, AList.mem_insert, storesTo_append]
    by_cases hk' : k' = k
    · subst hk'
      simp
    · rw [storesTo_store_ne (Ne.symm hk'), List.append_nil, hf.tracked k']
      simp [hk']
  · intro c hc
    obtain ⟨k', hmem, e, rfl, he⟩ := hf.equations c hc
    refine ⟨k', hmem, e, rfl, fun hk' => ?_⟩
    rw [step, ChcHeapState.accumulateStore, AList.mem_insert, not_or] at hk'
    rw [hne hk'.1]
    exact he hk'.2

theorem ChainsFold.load (hf : ChainsFold A past cur now h constraints) (k : String)
    (addr : Expr) : ChainsFold A past (cur ++ [.load k addr]) now h constraints := by
  have hfold : ∀ k', A.fold k' (past ++ (cur ++ [.load k addr])) = A.fold k' (past ++ cur) :=
    fun k' => by rw [← List.append_assoc, A.fold_eq_of_storesTo (storesTo_load k' k addr)]
  refine ⟨?_, ?_, ?_, ?_, hf.emitted⟩
  · simpa only [hfold] using hf.chain
  · simpa only [hfold] using hf.seed
  · simpa only [storesTo_append, storesTo_load, List.append_nil] using hf.tracked
  · simpa only [hfold] using hf.equations

theorem ChainsFold.drain (hf : ChainsFold A past cur now h constraints)
    (hok : StepOk A h before now .drain) :
    ChainsFold A past (cur ++ [.drain]) (now ++ h.storeChains.keys) (h.drainStoreChains A).1
      (constraints ++ (h.drainStoreChains A).2) := by
  have hfold : ∀ k', A.fold k' (past ++ (cur ++ [.drain])) = A.fold k' (past ++ cur) :=
    fun k' => by rw [← List.append_assoc, A.fold_eq_of_storesTo (storesTo_drain k')]
  have hentry : ∀ k arrOutName e, (⟨k, arrOutName, e⟩ : Sigma fun _ => String × Expr) ∈
      h.storeChains.entries → ChcHeapState.drainChain A arrOutName e =
        some (A.outEq k (A.fold k (past ++ cur))) := by
    intro k arrOutName e hmem
    obtain ⟨rfl, rfl⟩ := hf.chain k arrOutName e (AList.mem_lookup_iff.2 hmem)
    exact drainChain_eq A (A.sort_fold k _)
  refine ⟨?_, ?_, ?_, ?_, ?_⟩
  · intro k arrOutName e hlookup
    simp [ChcHeapState.drainStoreChains] at hlookup
  · intro k e _ hseed
    rw [hfold]
    rw [ChcHeapState.drainStoreChains, AList.lookup, List.dlookup_map₂,
      Option.map_eq_some_iff] at hseed
    obtain ⟨⟨arrOutName, e'⟩, hlookup, rfl⟩ := hseed
    exact (hf.chain k arrOutName e' hlookup).2
  · intro k
    rw [storesTo_append, storesTo_drain, List.append_nil, hf.tracked k, List.mem_append,
      AList.mem_keys]
    simp [ChcHeapState.drainStoreChains, or_comm]
  · intro c hc
    rcases List.mem_append.1 hc with hc | hc
    · obtain ⟨k, hmem, e, rfl, he⟩ := hf.equations c hc
      refine ⟨k, List.mem_append_left _ hmem, e, rfl, fun _ => ?_⟩
      rw [hfold]
      exact he fun hlive => (hok k (AList.mem_keys.1 hlive)).1 hmem
    · simp only [ChcHeapState.drainStoreChains, List.mem_filterMap,
        List.mem_insertionSort] at hc
      obtain ⟨⟨k, arrOutName, e⟩, hmem, hc⟩ := hc
      rw [hentry k arrOutName e hmem] at hc
      refine ⟨k, List.mem_append_right _ (List.mem_keys_of_mem hmem), _, (Option.some.inj hc).symm,
        fun _ => (hfold k).symm⟩
  · intro k hk
    rcases List.mem_append.1 hk with hk | hk
    · obtain ⟨e, he⟩ := hf.emitted k hk
      exact ⟨e, List.mem_append_left _ he⟩
    · obtain ⟨⟨arrOutName, e⟩, hmem⟩ := List.exists_of_mem_keys hk
      refine ⟨A.fold k (past ++ cur), List.mem_append_right _ ?_⟩
      simp only [ChcHeapState.drainStoreChains, List.mem_filterMap, List.mem_insertionSort]
      exact ⟨_, hmem, hentry k arrOutName e hmem⟩

/-- One operation, with the load it may read. -/
theorem ChainsFold.step (hf : ChainsFold A past cur now h constraints)
    (hpast : ∀ k, storesTo k past ≠ [] → k ∈ before) {op : HeapOp}
    (hok : StepOk A h before now op) :
    ChainsFold A past (cur ++ [op]) (now ++ drainedBy h op) (step A h op).1
        (constraints ++ (step A h op).2.constraints) ∧
      ∀ ops, A.loadsAfter (past ++ cur) (op :: ops) =
        (Heap.step A h op).2.loads ++ A.loadsAfter (past ++ (cur ++ [op])) ops := by
  cases op with
  | store k addr value =>
    refine ⟨?_, fun ops => by rw [← List.append_assoc]; rfl⟩
    simpa [drainedBy, Heap.step] using hf.store hpast hok
  | load k addr =>
    refine ⟨by simpa [drainedBy, Heap.step] using hf.load k addr, fun ops => ?_⟩
    rw [← List.append_assoc, Heap.step, hf.arrayBase_eq hpast hok]
    rfl
  | drain => exact ⟨hf.drain hok, fun ops => by rw [← List.append_assoc]; rfl⟩

/-- Every sequence whose operations keep the writes. -/
theorem ChainsFold.run (hf : ChainsFold A past cur now h constraints)
    (hpast : ∀ k, storesTo k past ≠ [] → k ∈ before) {ops : List HeapOp}
    (hok : StepsOk A before h now ops) :
    ChainsFold A past (cur ++ ops) (now ++ drainedIn A h ops) (run A h ops).1
        (constraints ++ (run A h ops).2.constraints) ∧
      (run A h ops).2.loads = A.loadsAfter (past ++ cur) ops := by
  induction ops generalizing cur now h constraints with
  | nil => simpa [Heap.run, drainedIn, Arrays.loadsAfter] using hf
  | cons op ops ih =>
    obtain ⟨hstep, hloads⟩ := hf.step hpast hok.1
    obtain ⟨hrun, hrest⟩ := ih hstep hok.2
    rw [hloads, ← hrest]
    refine ⟨?_, rfl⟩
    simpa [Heap.run, drainedIn, List.append_assoc] using hrun

end Step

theorem chainsFold_start (A : Arrays) (past : List HeapOp) (h : ChcHeapState)
    (hlive : h.storeChains = ∅)
    (hseed : ∀ k e, h.drainedStoreChainSeeds.lookup k = some e → e = A.fold k past) :
    ChainsFold A past [] [] h [] where
  chain := by simp [hlive]
  seed := fun k e _ he => by rw [List.append_nil]; exact hseed k e he
  tracked := by simp [hlive, storesTo]
  equations := by simp
  emitted := by simp

theorem Arrays.outEq_inj (A : Arrays) {k k' : String} {e e' : Expr}
    (h : A.outEq k e = A.outEq k' e') : k = k' ∧ e = e' := by
  simp only [Arrays.outEq, Expr.app.injEq, true_and, List.cons.injEq, Expr.var.injEq,
    and_true] at h
  exact ⟨A.output_inj k k' h.1.1, h.2⟩

/-- Once no chain is left, the equations are the folds of what was drained. -/
theorem ChainsFold.mem_constraints {A : Arrays} {past cur : List HeapOp} {now : List String}
    {h : ChcHeapState} {constraints : List Expr} (hf : ChainsFold A past cur now h constraints)
    (hlive : h.storeChains = ∅) {c : Expr} :
    c ∈ constraints ↔ ∃ k, storesTo k cur ≠ [] ∧ c = A.outEq k (A.fold k (past ++ cur)) := by
  have htracked : ∀ k, storesTo k cur ≠ [] ↔ k ∈ now := fun k => by
    rw [hf.tracked k, hlive]
    simp
  constructor
  · intro hc
    obtain ⟨k, hk, e, rfl, he⟩ := hf.equations c hc
    exact ⟨k, (htracked k).2 hk, by rw [he (by simp [hlive])]⟩
  · rintro ⟨k, hk, rfl⟩
    obtain ⟨e, he⟩ := hf.emitted k ((htracked k).1 hk)
    obtain ⟨k', -, e', heq, he'⟩ := hf.equations _ he
    obtain ⟨rfl, rfl⟩ := A.outEq_inj heq
    rwa [he' (by simp [hlive])] at he

theorem run_append (A : Arrays) (h : ChcHeapState) (a b : List HeapOp) :
    (run A h (a ++ b)).1 = (run A (run A h a).1 b).1 := by
  induction a generalizing h with
  | nil => rfl
  | cons op a ih => exact ih _

/-- A drain at the end leaves seeds only. -/
theorem storeChains_run_drain (A : Arrays) (h : ChcHeapState) (ops : List HeapOp) :
    (run A h (ops ++ [.drain])).1.storeChains = ∅ := by
  rw [run_append]
  rfl

/-- What is drained again has an output that the filter sees. -/
theorem StepsOk.endsWithOut {A : Arrays} {before now : List String} {h : ChcHeapState}
    {ops : List HeapOp} (hok : StepsOk A before h now ops) {k : String}
    (hk : k ∈ drainedIn A h ops) (hbefore : k ∈ before) : EndsWithOut (A.array k).output := by
  induction ops generalizing h now with
  | nil => cases hk
  | cons op ops ih =>
    rcases List.mem_append.1 hk with hk | hk
    · cases op with
      | drain => exact (hok.1 k hk).2 hbefore
      | store _ _ _ => cases hk
      | load _ _ => cases hk
    · exact ih hok.2 hk

end Heap

end TrustMc
