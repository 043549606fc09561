import TrustMc.Smt.Eval

/-!
# Constructor guards

Before a rule is emitted, a tester `((_ is C) container)` is conjoined for every selector
of a multi-constructor datatype found in the rule's constraints. The collection walks all
constraints in order, passes on containers whose constructor is already known or
undecidable from the block, and emits each guard once per container node.

* **Node identity.** Containers are told apart by the address of their node, so the model
  carries the addresses of the constraints' nodes (`Addresses`): one address never belongs
  to two different terms.
* `collectConstructorGuards` is the collection; `guardSites` lists the selector
  applications it visits, and `guardedConstructor` says which of them ask for a guard.
-/

namespace TrustMc

namespace ConstructorGuards

/-! ### Nodes -/

/-- A node of a list of constraints: child positions, innermost first, the position of the
constraint last. -/
abbrev Path : Type := List ℕ

/-- The node's term. -/
def nodeAt (exprs : List Expr) : Path → Option Expr
  | [] => none
  | [i] => exprs[i]?
  | i :: path => (nodeAt exprs path).bind fun e => e.children[i]?

/-- The addresses of the nodes of a list of constraints. -/
structure Addresses (exprs : List Expr) where
  /-- The address of a node. -/
  addr : Path → ℕ
  /-- One address, one term. -/
  same_term : ∀ {p q e e'}, nodeAt exprs p = some e → nodeAt exprs q = some e' →
    addr p = addr q → e = e'

/-- `container_identity`: a variable by name, any other node by address. -/
inductive Identity
  | named (name : String)
  | at (addr : ℕ)
  deriving DecidableEq

/-- `container_identity(container)`. -/
def containerIdentity (addr : Path → ℕ) (path : Path) : Expr → Identity
  | .var n _ => .named n
  | _ => .at (addr path)

/-- The constructor a selector belongs to, on a multi-constructor container. -/
def selectorOwner (container : Expr) (selector : String) : Option SmtConstructor :=
  match container.sort.constructors with
  | some cs => if cs.length > 1 then cs.find? (·.hasField selector) else none
  | none => none

mutual

/-- Every node below (and including) a node. -/
def nodesBelow (path : Path) : Expr → List (Path × Expr)
  | .var n s => [(path, .var n s)]
  | .app op args => (path, .app op args) :: nodesBelowList path 0 args
  | .quant q vs b => (path, .quant q vs b) :: nodesBelow (0 :: path) b

/-- Every node below the children from position `i` on. -/
def nodesBelowList (path : Path) (i : ℕ) : List Expr → List (Path × Expr)
  | [] => []
  | e :: es => nodesBelow (i :: path) e ++ nodesBelowList path (i + 1) es

end

/-- The constraints with their positions, as nodes. -/
def roots (exprs : List Expr) : List (Path × Expr) :=
  exprs.zipIdx.map fun (e, i) => ([i], e)

/-- The container identities and owning constructors of all selector applications. -/
def seenCtors (addr : Path → ℕ) (exprs : List Expr) : List (Identity × String) :=
  ((roots exprs).flatMap fun (p, e) => nodesBelow p e).filterMap fun
    | (p, .app (.datatypeSelector _ sel _) [container]) =>
      (selectorOwner container sel).map fun cons =>
        (containerIdentity addr (0 :: p) container, cons.name)
    | _ => none

/-- `variant_conflicted_containers`: containers read through selectors of more than one
constructor. -/
def variantConflictedContainers (addr : Path → ℕ) (exprs : List Expr) : List Identity :=
  let seen := seenCtors addr exprs
  (seen.map Prod.fst).filter fun k =>
    decide (((seen.filter (·.1 == k)).map Prod.snd).dedup.length > 1)

/-! ### Pinned constructors -/

/-- The variables bound so far, and those bound to two constructors. -/
structure Pins where
  /-- The constructor term each name is bound to. -/
  pinned : List (String × Expr)
  /-- The names bound to two different constructors. -/
  conflicted : List String

/-- `pinned.insert(name, value)`, a later binding replacing the earlier one. -/
def Pins.bind (p : Pins) (name ctor : String) (value : Expr) : Pins where
  pinned := (name, value) :: p.pinned.filter (·.1 != name)
  conflicted :=
    match p.pinned.lookup name with
    | some (.app (.datatypeConstructor _ c _) _) =>
      if c == ctor then p.conflicted else name :: p.conflicted
    | some _ => name :: p.conflicted
    | none => p.conflicted

/-- One orientation of an equation: a variable against a constructor application. -/
def Pins.bindSides (p : Pins) : Expr → Expr → Pins
  | .var n _, .app (.datatypeConstructor dt c s) args =>
    p.bind n c (.app (.datatypeConstructor dt c s) args)
  | _, _ => p

/-- `pinned_constructors`. -/
def pinnedConstructors (exprs : List Expr) : List (String × Expr) :=
  let p := exprs.foldl (fun (p : Pins) e =>
    match e with
    | .eq lhs rhs => (p.bindSides lhs rhs).bindSides rhs lhs
    | _ => p) ⟨[], []⟩
  p.pinned.filter fun (n, _) => n ∉ p.conflicted

/-- `resolve_pinned_constructor`. -/
def resolvePinnedConstructor (pinned : List (String × Expr)) : Expr → Option Expr
  | .var n _ => pinned.lookup n
  | .app (.datatypeConstructor dt c s) args => some (.app (.datatypeConstructor dt c s) args)
  | .app (.datatypeSelector _ sel _) [inner] =>
    match resolvePinnedConstructor pinned inner with
    | some (.app (.datatypeConstructor _ c _) args) => do
      let cs ← inner.sort.constructors
      let cons ← cs.find? (·.name == c)
      let idx ← cons.fields.findIdx? (·.name == sel)
      args[idx]?
    | _ => none
  | _ => none

/-! ### Literal guards -/

/-- `bool_const_value`. -/
def boolConstValue : Expr → Option Bool
  | .app (.boolConst b) _ => some b
  | _ => none

/-- `peel_bool_const`. -/
def peelBoolConst : Expr → Option Bool
  | .app (.boolConst b) _ => some b
  | .app .not [e] => (peelBoolConst e).map (!·)
  | _ => none

/-- `simplify_bool_ite`. -/
def simplifyBoolIte (c a b : Expr) : Expr :=
  match boolConstValue a, boolConstValue b with
  | some true, some false => c
  | some false, some true => c.not
  | some true, some true => .boolConst true
  | some false, some false => .boolConst false
  | _, _ => .ite c a b

/-- `literal_constructor_branch_guard`. -/
def literalConstructorBranchGuard (dt cons : String) : Expr → Option Expr
  | .app (.datatypeConstructor d c _) _ =>
    if d == dt then some (.boolConst (c == cons)) else none
  | .app .ite [c, a, b] => do
    let thenGuard ← literalConstructorBranchGuard dt cons a
    let elseGuard ← literalConstructorBranchGuard dt cons b
    some (simplifyBoolIte c thenGuard elseGuard)
  | _ => none

/-- `literal_constructor_guard`. -/
def literalConstructorGuard (container : Expr) (dt cons : String) : Option Expr :=
  match container with
  | .app .ite _ => literalConstructorBranchGuard dt cons container
  | _ => none

/-! ### Collection -/

/-- What the collection has emitted so far. -/
structure Collected where
  /-- The guards, in order. -/
  guards : List Expr
  /-- The container addresses and constructors they were emitted for. -/
  seen : List (ℕ × String)

/-- What the collection knows of the whole list of constraints. -/
structure Context where
  /-- The addresses of the nodes. -/
  addr : Path → ℕ
  /-- `pinned_constructors`. -/
  pinned : List (String × Expr)
  /-- `variant_conflicted_containers`. -/
  conflicted : List Identity

/-- Whether the term is a conditional. -/
def isIte : Expr → Bool
  | .app .ite _ => true
  | _ => false

/-- Whether the term is a constructor test. -/
def isTester : Expr → Bool
  | .app (.datatypeTester _ _) _ => true
  | _ => false

/-- The selector arm: emits the guard of one selector application, unless its container's
constructor is known, data dependent or variant-conflicted, or the guard is a repetition. -/
def visitSelector (cx : Context) (path : Path) (dt sel : String) (container : Expr)
    (st : Collected) : Collected :=
  match selectorOwner container sel with
  | none => st
  | some cons =>
    if (resolvePinnedConstructor cx.pinned container).isSome then st
    else
      let guard := (literalConstructorGuard container dt cons.name).getD
        (container.isConstructor dt cons.name)
      if isIte container || (peelBoolConst guard).isSome then st
      else if containerIdentity cx.addr path container ∈ cx.conflicted then st
      else if (cx.addr path, cons.name) ∈ st.seen then st
      else ⟨st.guards ++ [guard], (cx.addr path, cons.name) :: st.seen⟩

mutual

/-- `collect_guards_recursive`. -/
def collectGuardsRecursive (cx : Context) (path : Path) : Expr → Collected → Collected
  | .var _ _, st => st
  | .app (.datatypeSelector dt sel _) [container], st =>
    collectGuardsRecursive cx (0 :: path) container
      (visitSelector cx (0 :: path) dt sel container st)
  | .app .ite [c, a, b], st =>
    let st := collectGuardsRecursive cx (0 :: path) c st
    -- a tester condition already guards the selectors of its then-branch
    let st := if isTester c then st else collectGuardsRecursive cx (1 :: path) a st
    collectGuardsRecursive cx (2 :: path) b st
  | .app _ args, st => collectGuardsList cx path 0 args st
  | .quant _ _ b, st => collectGuardsRecursive cx (0 :: path) b st

/-- The children from position `i` on. -/
def collectGuardsList (cx : Context) (path : Path) (i : ℕ) : List Expr → Collected → Collected
  | [], st => st
  | e :: es, st =>
    collectGuardsList cx path (i + 1) es (collectGuardsRecursive cx (i :: path) e st)

end

/-- What `collect_constructor_guards` looks up while it walks the constraints. -/
def context {exprs : List Expr} (addrs : Addresses exprs) : Context where
  addr := addrs.addr
  pinned := pinnedConstructors exprs
  conflicted := variantConflictedContainers addrs.addr exprs

/-- `collect_constructor_guards`. -/
def collectConstructorGuards {exprs : List Expr} (addrs : Addresses exprs) : List Expr :=
  ((roots exprs).foldl
    (fun st (p, e) => collectGuardsRecursive (context addrs) p e st) ⟨[], []⟩).guards

end ConstructorGuards

end TrustMc
