import Mathlib.Data.Finset.Card
import Mathlib.Data.List.AList
import Mathlib.Data.Set.Function
import TrustMc.Straightline.Simplify

/-!
# Substitution with a memo table

`substitute_inner` remembers what it returned, keyed on the *address* of the node it was asked
about. What it returns depends on the names that are being resolved, which the key leaves out;
so a result is remembered only if no name was met while it was being resolved.

* `Node`: a term with the address of every node, of which a table can hold two that are equal
  terms and hit for one of them only.
* `SubstState.substituteInner`: the source, over the table, the names being resolved, the
  number of such meetings and the visits that remain.
* `substitutePlain`: the substitution meant, with neither table nor limits.
* `Allocations`, `Session`: which nodes are in use during a call, and the states that any
  number of earlier calls can leave.
-/

namespace TrustMc

namespace Straightline

/-! ### Nodes -/

/-- A term of which every node has an address. -/
inductive Node
  | var (addr : ℕ) (name : String) (sort : SmtSort)
  | app (addr : ℕ) (op : Op) (args : List Node)
  | quant (addr : ℕ) (q : Quantifier) (vars : List (String × SmtSort)) (body : Node)

namespace Node

/-- `node_key`: the address of the allocation. -/
def nodeKey : Node → ℕ
  | var addr _ _ | app addr _ _ | quant addr _ _ _ => addr

/-- `expr.children()`. -/
def children : Node → List Node
  | var _ _ _ => []
  | app _ _ args => args
  | quant _ _ _ body => [body]

mutual

/-- The term, without its addresses. -/
def toExpr : Node → Expr
  | var _ name s => .var name s
  | app _ op args => .app op (toExprs args)
  | quant _ q vs body => .quant q vs body.toExpr

/-- The terms of a list of nodes. -/
def toExprs : List Node → List Expr
  | [] => []
  | n :: ns => n.toExpr :: toExprs ns

end

@[simp]
theorem toExprs_eq (ns : List Node) : toExprs ns = ns.map toExpr := by
  induction ns with
  | nil => rfl
  | cons n ns ih => rw [toExprs, ih, List.map_cons]

@[simp] theorem toExpr_var (a : ℕ) (name : String) (s : SmtSort) :
    (var a name s).toExpr = .var name s := rfl

@[simp] theorem toExpr_app (a : ℕ) (op : Op) (args : List Node) :
    (app a op args).toExpr = .app op (args.map toExpr) := by
  rw [toExpr, toExprs_eq]

@[simp] theorem toExpr_quant (a : ℕ) (q : Quantifier) (vs : List (String × SmtSort))
    (body : Node) : (quant a q vs body).toExpr = .quant q vs body.toExpr := rfl

end Node

/-- The environment, with the addresses of its values. -/
abbrev NodeEnv : Type := List (String × Node)

/-- The environment, without addresses. -/
def NodeEnv.toSymEnv (env : NodeEnv) : SymEnv := env.map fun p => (p.1, p.2.toExpr)

theorem NodeEnv.lookup_toSymEnv (env : NodeEnv) (name : String) :
    env.toSymEnv.lookup name = (env.lookup name).map Node.toExpr := by
  induction env with
  | nil => rfl
  | cons p env ih =>
    rw [NodeEnv.toSymEnv, List.map_cons, List.lookup_cons, List.lookup_cons]
    split
    · rfl
    · exact ih

/-! ### The source -/

/-- `SubstState`, with the visits that remain of the budget of its thread. -/
structure SubstState where
  /-- The names being resolved. -/
  resolving : List String
  /-- What was returned, by the address of the node asked about; the node is kept with it, so
  that its allocation is not freed. -/
  memo : AList fun _ : ℕ => Node × Expr
  /-- How often a name was met that is being resolved. -/
  cycleHits : ℕ
  /-- `STRAIGHTLINE_NODE_BUDGET`. -/
  budget : ℕ

namespace SubstState

/-- The state in which `substitute` starts. -/
def start (budget : ℕ) : SubstState := ⟨[], ∅, 0, budget⟩

/-- `resolving.remove(name)`. -/
def release (name : String) (state : SubstState) : SubstState :=
  { state with resolving := state.resolving.erase name }

/-- Remembers a result, unless a name was met meanwhile that is being resolved, or the table
is full. -/
def cache (maxMemoEntries cyclesBefore : ℕ) (expr : Node) (result : Expr) (state : SubstState) :
    SubstState :=
  -- a result below which a name was met again depends on the names being resolved
  if state.cycleHits = cyclesBefore ∧ state.memo.entries.length < maxMemoEntries then
    { state with memo := state.memo.insert expr.nodeKey (expr, result) }
  else state

/-- The children in order, up to the first that bails. -/
def walkChildren (walk : Node → SubstState → Option Expr × SubstState) :
    List Node → SubstState → Option (List Expr) × SubstState
  | [], state => (some [], state)
  | child :: rest, state =>
    match walk child state with
    | (none, state) => (none, state)
    | (some r, state) =>
      match walkChildren walk rest state with
      | (none, state) => (none, state)
      | (some rs, state) => (some (r :: rs), state)

/-- The arm of a name, where `rec` is the recursive call. -/
def substituteVar (maxMemoEntries : ℕ) (env : NodeEnv)
    (rec : Node → SubstState → Option Expr × SubstState) (a : ℕ) (name : String) (s : SmtSort)
    (state : SubstState) : Option Expr × SubstState :=
  match env.lookup name with
  | none => (some (.var name s), state)
  | some replacement =>
    if name ∈ state.resolving then
      -- this answer is not remembered, and the count keeps those above it from being
      (some (.var name s), { state with cycleHits := state.cycleHits + 1 })
    else
      -- the name is dropped before a bail is passed on
      match rec replacement { state with resolving := name :: state.resolving } with
      | (none, after) => (none, after.release name)
      | (some resolved, after) =>
        if resolved.sort ≠ s then (none, after.release name)
        else
          (some resolved,
            (after.release name).cache maxMemoEntries state.cycleHits (.var a name s) resolved)

/-- `substitute_inner` below its guard. -/
def substituteNode (maxMemoEntries : ℕ) (env : NodeEnv)
    (rec : Node → SubstState → Option Expr × SubstState) (expr : Node) (state : SubstState) :
    Option Expr × SubstState :=
  match state.memo.lookup expr.nodeKey with
  | some (_, cached) => (some cached, state)
  | none =>
    match expr with
    | .var a name s => substituteVar maxMemoEntries env rec a name s state
    | .app a op args =>
      match walkChildren rec args state with
      | (none, after) => (none, after)
      | (some children, after) =>
        (some (.app op children),
          after.cache maxMemoEntries state.cycleHits (.app a op args) (.app op children))
    | .quant a q vs body =>
      match rec body state with
      | (none, after) => (none, after)
      | (some body', after) =>
        (some (.quant q vs body'),
          after.cache maxMemoEntries state.cycleHits (.quant a q vs body) (.quant q vs body'))

/-- `substitute_inner`, with the levels that remain under the depth limit. A visit is counted
also when no level remains. -/
def substituteInner (maxMemoEntries : ℕ) (env : NodeEnv) :
    ℕ → Node → SubstState → Option Expr × SubstState
  | 0, _, state => (none, { state with budget := state.budget - 1 })
  | left + 1, expr, state =>
    if state.budget = 0 then (none, state)
    else
      substituteNode maxMemoEntries env (substituteInner maxMemoEntries env left) expr
        { state with budget := state.budget - 1 }

/-- A call of `substitute_inner` from a state, with the visits that remain by then. -/
def call (maxMemoEntries : ℕ) (env : NodeEnv) (state : SubstState) (left budget : ℕ)
    (expr : Node) : Option Expr × SubstState :=
  substituteInner maxMemoEntries env left expr { state with budget := budget }

end SubstState

/-! ### The substitution meant -/

/-- The names that can still be resolved. -/
def SymEnv.unresolved (env : SymEnv) (resolving : List String) : Finset String :=
  (env.map Prod.fst).toFinset \ resolving.toFinset

theorem SymEnv.card_unresolved_lt {env : SymEnv} {resolving : List String} {name : String}
    {value : Expr} (hlookup : env.lookup name = some value) (hname : name ∉ resolving) :
    (env.unresolved (name :: resolving)).card < (env.unresolved resolving).card := by
  refine Finset.card_lt_card ⟨?_, fun hsub => ?_⟩
  · refine Finset.sdiff_subset_sdiff subset_rfl fun x hx => ?_
    rw [List.mem_toFinset] at hx ⊢
    exact List.mem_cons_of_mem name hx
  · have hmem : name ∈ env.map Prod.fst := by
      rw [List.lookup_eq_some_iff] at hlookup
      obtain ⟨l₁, l₂, rfl, -⟩ := hlookup
      simp
    have hin : name ∈ env.unresolved resolving := by
      simpa [SymEnv.unresolved] using ⟨by simpa using hmem, hname⟩
    simpa [SymEnv.unresolved] using hsub hin

/-- The substitution of the environment to a fixpoint: a name that is being resolved stays, and
a value of another sort has no result. -/
def substitutePlain (env : SymEnv) (resolving : List String) (e : Expr) : Option Expr :=
  match e with
  | .var name s =>
    match _h : env.lookup name with
    | none => some (.var name s)
    | some value =>
      if _hn : name ∈ resolving then some (.var name s)
      else (substitutePlain env (name :: resolving) value).filter fun r => r.sort = s
  | .app op args => (args.mapM (substitutePlain env resolving)).map (.app op)
  | .quant q vs b => (substitutePlain env resolving b).map (.quant q vs)
termination_by ((env.unresolved resolving).card, sizeOf e)
decreasing_by
  · exact Prod.Lex.left _ _ (SymEnv.card_unresolved_lt _h _hn)
  · rename_i a ha
    have hlt : sizeOf a < sizeOf args := List.sizeOf_lt_of_mem ha
    exact Prod.Lex.right _ (by rw [Expr.app.sizeOf_spec]; omega)
  · exact Prod.Lex.right _ (by rw [Expr.quant.sizeOf_spec]; omega)

section Equations

variable {env : SymEnv} {resolving : List String}

theorem substitutePlain_free {name : String} {s : SmtSort} (h : env.lookup name = none) :
    substitutePlain env resolving (.var name s) = some (.var name s) := by
  rw [substitutePlain]
  split
  · rfl
  · rename_i value hvalue
    rw [h] at hvalue
    cases hvalue

theorem substitutePlain_met {name : String} {s : SmtSort} (hname : name ∈ resolving) :
    substitutePlain env resolving (.var name s) = some (.var name s) := by
  rw [substitutePlain]
  split
  · rfl
  · rw [dif_pos hname]

theorem substitutePlain_value {name : String} {s : SmtSort} {value : Expr}
    (h : env.lookup name = some value) (hname : name ∉ resolving) :
    substitutePlain env resolving (.var name s) =
      (substitutePlain env (name :: resolving) value).filter fun r => r.sort = s := by
  rw [substitutePlain]
  split
  · rename_i hnone
    rw [h] at hnone
    cases hnone
  · rename_i value' hvalue
    obtain rfl : value = value' := Option.some.inj (h.symm.trans hvalue)
    rw [dif_neg hname]

theorem substitutePlain_app (op : Op) (args : List Expr) :
    substitutePlain env resolving (.app op args) =
      (args.mapM (substitutePlain env resolving)).map (.app op) := by
  rw [substitutePlain]

theorem substitutePlain_quant (q : Quantifier) (vs : List (String × SmtSort)) (b : Expr) :
    substitutePlain env resolving (.quant q vs b) =
      (substitutePlain env resolving b).map (.quant q vs) := by
  rw [substitutePlain]

end Equations

/-! ### Calls -/

/-- The nodes in use while an environment is: a node keeps its children, the environment its
values, and no two nodes in use have one address. -/
structure Allocations (env : NodeEnv) where
  /-- The nodes in use. -/
  nodes : Set Node
  children_mem : ∀ n ∈ nodes, ∀ c ∈ n.children, c ∈ nodes
  value_mem : ∀ p ∈ env, p.2 ∈ nodes
  injOn : Set.InjOn Node.nodeKey nodes

theorem Allocations.mem_of_lookup {env : NodeEnv} (live : Allocations env) {name : String}
    {value : Node} (h : env.lookup name = some value) : value ∈ live.nodes := by
  rw [List.lookup_eq_some_iff] at h
  obtain ⟨l₁, l₂, rfl, -⟩ := h
  exact live.value_mem (name, value) (by simp)

/-- The nodes of the table are in use. -/
def Allocations.Keeps {env : NodeEnv} (live : Allocations env) (state : SubstState) : Prop :=
  ∀ k n r, state.memo.lookup k = some (n, r) → n ∈ live.nodes

/-- The states that earlier substitutions of the environment can leave, each under its own
limits and with its own allocations. -/
inductive Session (maxMemoEntries : ℕ) (env : NodeEnv) : SubstState → Prop
  | start (budget : ℕ) : Session maxMemoEntries env (.start budget)
  | next {state : SubstState} (h : Session maxMemoEntries env state) (live : Allocations env)
      (hkeeps : live.Keeps state) {n : Node} (hn : n ∈ live.nodes) (left budget : ℕ) :
      Session maxMemoEntries env (state.call maxMemoEntries env left budget n).2

end Straightline

end TrustMc
