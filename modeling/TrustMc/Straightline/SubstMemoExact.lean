import Mathlib.Logic.Relation
import TrustMc.Straightline.SubstLimits

/-!
# The memo table changes nothing

A term's expansion *settles* when no chain of children and values from it is endless. Under a
term that settles no name is met again while it is being resolved, so what it becomes does not
depend on the names being resolved. Conversely, if a walk returns and met no such name, its
term settles: so every entry of the table is the answer for its node under any names.

* `substitutePlain_eq_nil`: a term that settles, under any names it can be reached with.
* `SubstState.substituteInner_runs`: one walk, over the table and under its limits.
* `substituteInner_exact`: after any earlier substitutions, cyclic environments included.
-/

namespace TrustMc

namespace Straightline

open Budget Lists Relation

/-! ### Expansion -/

section Expansion

variable {env : SymEnv} {resolving : List String}

/-- One step of the expansion of a term: to a child, or from a name to its value. -/
inductive Expands (env : SymEnv) : Expr → Expr → Prop
  | arg {op : Op} {args : List Expr} {a : Expr} (ha : a ∈ args) : Expands env a (.app op args)
  | body {q : Quantifier} {vs : List (String × SmtSort)} {b : Expr} :
    Expands env b (.quant q vs b)
  | value {name : String} {s : SmtSort} {v : Expr} (h : env.lookup name = some v) :
    Expands env v (.var name s)

/-- The term has no endless expansion. -/
abbrev Settles (env : SymEnv) (e : Expr) : Prop := Acc (Expands env) e

/-- The term is met in the expansion of the value of every name being resolved. -/
def Under (env : SymEnv) (resolving : List String) (e : Expr) : Prop :=
  ∀ name ∈ resolving, ∃ v, env.lookup name = some v ∧ ReflTransGen (Expands env) e v

theorem Under.nil (e : Expr) : Under env [] e := fun _ h => absurd h List.not_mem_nil

theorem Under.expand {e e' : Expr} (h : Under env resolving e) (he : Expands env e' e) :
    Under env resolving e' := by
  intro name hname
  obtain ⟨v, hv, hreach⟩ := h name hname
  exact ⟨v, hv, .head he hreach⟩

theorem Under.arg {a : ℕ} {op : Op} {args : List Node} {m : Node}
    (h : Under env resolving (Node.app a op args).toExpr) (hm : m ∈ args) :
    Under env resolving m.toExpr := by
  refine h.expand ?_
  rw [Node.toExpr_app]
  exact .arg (List.mem_map_of_mem hm)

theorem Under.resolve {name : String} {s : SmtSort} {v : Expr}
    (h : Under env resolving (.var name s)) (hv : env.lookup name = some v) :
    Under env (name :: resolving) v := by
  rintro x (_ | ⟨_, hx⟩)
  · exact ⟨v, hv, .refl⟩
  · exact h.expand (.value hv) x hx

theorem Settles.var {name : String} {s : SmtSort} {v : Expr} (hlookup : env.lookup name = some v)
    (hv : Settles env v) : Settles env (.var name s) := by
  refine .intro _ fun e he => ?_
  rcases he with _ | _ | hvalue
  obtain rfl : v = e := Option.some.inj (hlookup.symm.trans hvalue)
  exact hv

theorem Settles.free {name : String} {s : SmtSort} (hlookup : env.lookup name = none) :
    Settles env (.var name s) := by
  refine .intro _ fun e he => ?_
  rcases he with _ | _ | hvalue
  rw [hlookup] at hvalue
  cases hvalue

theorem Settles.app {op : Op} {args : List Expr} (h : ∀ a ∈ args, Settles env a) :
    Settles env (.app op args) := by
  refine .intro _ fun e he => ?_
  rcases he with ha | _ | _
  exact h e ha

theorem Settles.quant {q : Quantifier} {vs : List (String × SmtSort)} {b : Expr}
    (h : Settles env b) : Settles env (.quant q vs b) := by
  refine .intro _ fun e he => ?_
  rcases he with _ | _ | _
  exact h

/-- What settles does not expand to itself. -/
theorem Settles.not_cyclic {e : Expr} (h : Settles env e) : ¬ TransGen (Expands env) e e := by
  have hacc : Acc (TransGen (Expands env)) e := h.transGen
  induction hacc with
  | intro e _ ih => exact fun hself => ih e hself h hself

/-- A name that settles is not one of those being resolved. -/
theorem Settles.not_mem {name : String} {s : SmtSort} (h : Settles env (.var name s))
    (hunder : Under env resolving (.var name s)) : name ∉ resolving := by
  intro hname
  obtain ⟨v, hv, hreach⟩ := hunder name hname
  exact h.not_cyclic (.tail' hreach (.value hv))

/-- A term that settles becomes the same under any names. -/
theorem substitutePlain_eq_nil {e : Expr} (h : Settles env e) (hunder : Under env resolving e) :
    substitutePlain env resolving e = substitutePlain env [] e := by
  induction h generalizing resolving with
  | intro e hacc ih =>
    have hsettles : Settles env e := .intro e hacc
    cases e with
    | var name s =>
      rcases hlookup : env.lookup name with _ | v
      · rw [substitutePlain_free hlookup, substitutePlain_free hlookup]
      · have hnil : Under env [] (.var name s) := .nil _
        rw [substitutePlain_value hlookup (hsettles.not_mem hunder),
          substitutePlain_value hlookup List.not_mem_nil,
          ih v (.value hlookup) (hunder.resolve hlookup),
          ih v (.value hlookup) (hnil.resolve hlookup)]
    | app op args =>
      have hargs : ∀ a ∈ args, substitutePlain env resolving a = substitutePlain env [] a :=
        fun a ha => ih a (.arg ha) (hunder.expand (.arg ha))
      rw [substitutePlain_app, substitutePlain_app, mapM_congr hargs]
    | quant q vs b =>
      rw [substitutePlain_quant, substitutePlain_quant, ih b .body (hunder.expand .body)]

end Expansion

/-! ### One walk -/

/-- Every entry of the table is for a node that settles, under its address, and is what the node
becomes. -/
def SubstState.MemoExact (env : NodeEnv) (state : SubstState) : Prop :=
  ∀ k n r, state.memo.lookup k = some (n, r) →
    n.nodeKey = k ∧ Settles env.toSymEnv n.toExpr ∧
      substitutePlain env.toSymEnv [] n.toExpr = some r

section Walks

variable {maxMemoEntries : ℕ} {env : NodeEnv} {live : Allocations env}

/-- What holds of the state whenever a walk begins and whenever it ends. -/
structure Sound (live : Allocations env) (state : SubstState) : Prop where
  keeps : live.Keeps state
  memoExact : state.MemoExact env

/-- A walk that began in a state: it leaves the names as they were, returns what is meant, and
met no name being resolved only if its subject settles. -/
structure Runs {α : Type} (live : Allocations env) (state : SubstState) (meant : Option α)
    (settles : Prop) (run : Option α × SubstState) : Prop where
  resolving_eq : run.2.resolving = state.resolving
  hits_le : state.cycleHits ≤ run.2.cycleHits
  sound : Sound live run.2
  value : ∀ r, run.1 = some r → meant = some r
  settles : ∀ r, run.1 = some r → run.2.cycleHits = state.cycleHits → settles

namespace Runs

variable {α β : Type} {state after last : SubstState} {meant : Option α} {meant' : Option β}
  {settles settles' : Prop} {a : α} {b : β} {o : Option β}

/-- A walk that bails, of whatever was meant. -/
theorem bail {o : Option α} (h : Runs live state meant settles (o, after)) :
    Runs live state meant' settles' (none, after) :=
  ⟨h.resolving_eq, h.hits_le, h.sound, nofun, nofun⟩

/-- The visits that remain do not matter. -/
theorem of_budget {run : Option α × SubstState} (budget : ℕ)
    (h : Runs live { state with budget := budget } meant settles run) :
    Runs live state meant settles run :=
  ⟨h.resolving_eq, h.hits_le, h.sound, h.value, h.settles⟩

/-- Dropping the name that was resolved. -/
theorem release {name : String} {o : Option α}
    (h : Runs live { state with resolving := name :: state.resolving } meant settles (o, after)) :
    Runs live state meant settles (o, after.release name) where
  resolving_eq := by
    have hresolving : after.resolving = name :: state.resolving := h.resolving_eq
    change after.resolving.erase name = state.resolving
    rw [hresolving, List.erase_cons_head]
  hits_le := h.hits_le
  sound := ⟨h.sound.keeps, h.sound.memoExact⟩
  value := h.value
  settles := h.settles

/-- What is made of the value a walk returned. -/
theorem map (h : Runs live state meant settles (some a, after))
    (hvalue : meant = some a → meant' = some b) (hsettles : settles → settles') :
    Runs live state meant' settles' (some b, after) where
  resolving_eq := h.resolving_eq
  hits_le := h.hits_le
  sound := h.sound
  value := by
    rintro _ ⟨rfl⟩
    exact hvalue (h.value a rfl)
  settles := fun _ _ hhits => hsettles (h.settles a rfl hhits)

/-- A walk after another: no name was met only if none was met in either. -/
theorem andThen (h : Runs live state meant settles (some a, after))
    (h' : Runs live after meant' settles' (o, last)) :
    Runs live state meant' (settles ∧ settles') (o, last) where
  resolving_eq := h'.resolving_eq.trans h.resolving_eq
  hits_le := h.hits_le.trans h'.hits_le
  sound := h'.sound
  value := h'.value
  settles := by
    intro b hb hhits
    have h₁ : state.cycleHits ≤ after.cycleHits := h.hits_le
    have h₂ : after.cycleHits ≤ last.cycleHits := h'.hits_le
    have hlast : last.cycleHits = state.cycleHits := hhits
    have hafter : after.cycleHits = state.cycleHits := by omega
    exact ⟨h.settles a rfl hafter, h'.settles b hb (hlast.trans hafter.symm)⟩

end Runs

namespace SubstState

variable {state after : SubstState} {before : ℕ} {n : Node} {r : Expr}

@[simp] theorem release_budget (name : String) : (after.release name).budget = after.budget := rfl

@[simp]
theorem cache_resolving :
    (after.cache maxMemoEntries before n r).resolving = after.resolving := by
  rw [cache]
  split <;> rfl

@[simp]
theorem cache_cycleHits :
    (after.cache maxMemoEntries before n r).cycleHits = after.cycleHits := by
  rw [cache]
  split <;> rfl

@[simp]
theorem cache_budget : (after.cache maxMemoEntries before n r).budget = after.budget := by
  rw [cache]
  split <;> rfl

/-- A result may be remembered if no name being resolved was met only when the node settles and
becomes that. -/
theorem sound_cache (h : Sound live after) (hn : n ∈ live.nodes)
    (hexact : after.cycleHits = before →
      Settles env.toSymEnv n.toExpr ∧ substitutePlain env.toSymEnv [] n.toExpr = some r) :
    Sound live (after.cache maxMemoEntries before n r) := by
  rw [cache]
  split
  · rename_i hcond
    refine ⟨fun k m q hlookup => ?_, fun k m q hlookup => ?_⟩
    · by_cases hk : k = n.nodeKey
      · subst hk
        obtain ⟨rfl, -⟩ : n = m ∧ r = q := by simpa using hlookup
        exact hn
      · rw [AList.lookup_insert_ne hk] at hlookup
        exact h.keeps k m q hlookup
    · by_cases hk : k = n.nodeKey
      · subst hk
        obtain ⟨rfl, rfl⟩ : n = m ∧ r = q := by simpa using hlookup
        exact ⟨rfl, hexact hcond.1⟩
      · rw [AList.lookup_insert_ne hk] at hlookup
        exact h.memoExact k m q hlookup
  · exact h

/-- Remembering what a walk returned. -/
theorem runs_cache (hn : n ∈ live.nodes) (hunder : Under env.toSymEnv state.resolving n.toExpr)
    (h : Runs live state (substitutePlain env.toSymEnv state.resolving n.toExpr)
      (Settles env.toSymEnv n.toExpr) (some r, after)) :
    Runs live state (substitutePlain env.toSymEnv state.resolving n.toExpr)
      (Settles env.toSymEnv n.toExpr)
      (some r, after.cache maxMemoEntries state.cycleHits n r) where
  resolving_eq := by simpa using h.resolving_eq
  hits_le := by simpa using h.hits_le
  sound := by
    refine sound_cache h.sound hn fun hhits => ?_
    have hsettles := h.settles r rfl hhits
    refine ⟨hsettles, ?_⟩
    rw [← substitutePlain_eq_nil hsettles hunder]
    exact h.value r rfl
  value := h.value
  settles := fun r' hr' hhits => h.settles r' hr' (by simpa using hhits)

/-- The children of a node, each walked as is meant. -/
theorem runs_walkChildren {walk : Node → SubstState → Option Expr × SubstState}
    {names : List String} {ns : List Node}
    (hwalk : ∀ n ∈ ns, ∀ state : SubstState, Sound live state → state.resolving = names →
      Runs live state (substitutePlain env.toSymEnv names n.toExpr)
        (Settles env.toSymEnv n.toExpr) (walk n state)) :
    ∀ state : SubstState, Sound live state → state.resolving = names →
      Runs live state ((ns.map Node.toExpr).mapM (substitutePlain env.toSymEnv names))
        (∀ n ∈ ns, Settles env.toSymEnv n.toExpr) (walkChildren walk ns state) := by
  induction ns with
  | nil =>
    intro state hstate _
    exact ⟨rfl, le_rfl, hstate, fun r hr => hr, by simp⟩
  | cons n ns ih =>
    intro state hstate hnames
    have hhead := hwalk n List.mem_cons_self state hstate hnames
    rw [walkChildren]
    rcases hrun : walk n state with ⟨_ | r, after⟩
    · rw [hrun] at hhead
      exact hhead.bail
    · rw [hrun] at hhead
      have htail := ih (fun m hm => hwalk m (List.mem_cons_of_mem n hm)) after hhead.sound
        (hhead.resolving_eq.trans hnames)
      dsimp only
      rcases hrest : walkChildren walk ns after with ⟨_ | rs, last⟩
      · rw [hrest] at htail
        exact (hhead.andThen htail).bail
      · rw [hrest] at htail
        refine (hhead.andThen htail).map (fun hrs => ?_) fun h => List.forall_mem_cons.2 h
        rw [List.map_cons, List.mapM_cons, hhead.value r rfl, hrs]
        rfl

/-- The walks a call is given do what they are meant to. -/
def RunsAll (live : Allocations env) (rec : Node → SubstState → Option Expr × SubstState) : Prop :=
  ∀ n ∈ live.nodes, ∀ state : SubstState, Sound live state →
    Under env.toSymEnv state.resolving n.toExpr →
      Runs live state (substitutePlain env.toSymEnv state.resolving n.toExpr)
        (Settles env.toSymEnv n.toExpr) (rec n state)

section Node

variable {rec : Node → SubstState → Option Expr × SubstState}

theorem runs_substituteVar {a : ℕ} {name : String} {s : SmtSort} (hrec : RunsAll live rec)
    (hn : .var a name s ∈ live.nodes) (hstate : Sound live state)
    (hunder : Under env.toSymEnv state.resolving (.var name s)) :
    Runs live state (substitutePlain env.toSymEnv state.resolving (.var name s))
      (Settles env.toSymEnv (.var name s))
      (substituteVar maxMemoEntries env rec a name s state) := by
  have hlookup := env.lookup_toSymEnv name
  rw [substituteVar]
  rcases hvalue : env.lookup name with _ | value
  · -- a free name expands to nothing
    rw [hvalue] at hlookup
    refine ⟨rfl, le_rfl, hstate, fun r hr => ?_, fun _ _ _ => .free hlookup⟩
    rw [← hr]
    exact substitutePlain_free hlookup
  rw [hvalue] at hlookup
  by_cases hname : name ∈ state.resolving
  · dsimp only
    rw [if_pos hname]
    refine ⟨rfl, Nat.le_succ _, ⟨hstate.keeps, hstate.memoExact⟩, fun r hr => ?_,
      fun _ _ hhits => absurd hhits (Nat.succ_ne_self _)⟩
    rw [← hr]
    exact substitutePlain_met hname
  · dsimp only
    rw [if_neg hname]
    have hrun := hrec value (live.mem_of_lookup hvalue)
      { state with resolving := name :: state.resolving } ⟨hstate.keeps, hstate.memoExact⟩ (hunder.resolve hlookup)
    rcases hres : rec value { state with resolving := name :: state.resolving } with ⟨_ | r, after⟩
    · rw [hres] at hrun
      exact hrun.release.bail
    · rw [hres] at hrun
      dsimp only
      split
      · exact hrun.release.bail
      · rename_i hsort
        refine runs_cache hn hunder (hrun.release.map (fun hr => ?_) (.var hlookup))
        have hr' : substitutePlain env.toSymEnv (name :: state.resolving) value.toExpr = some r :=
          hr
        rw [Node.toExpr_var, substitutePlain_value hlookup hname, hr']
        exact Option.filter_some_pos (decide_eq_true (not_not.1 hsort))

/-- One level of the walk. -/
theorem runs_substituteNode (hrec : RunsAll live rec) (hn : n ∈ live.nodes)
    (hstate : Sound live state) (hunder : Under env.toSymEnv state.resolving n.toExpr) :
    Runs live state (substitutePlain env.toSymEnv state.resolving n.toExpr)
      (Settles env.toSymEnv n.toExpr) (substituteNode maxMemoEntries env rec n state) := by
  rw [substituteNode.eq_def]
  split
  · -- an entry of the table
    rename_i m cached hlookup
    obtain ⟨hkey, hsettles, hexact⟩ := hstate.memoExact _ m cached hlookup
    obtain rfl : m = n := live.injOn (hstate.keeps _ m cached hlookup) hn hkey
    refine ⟨rfl, le_rfl, hstate, fun r hr => ?_, fun _ _ _ => hsettles⟩
    obtain rfl : cached = r := Option.some.inj hr
    rw [substitutePlain_eq_nil hsettles hunder]
    exact hexact
  · cases n with
    | var a name s => exact runs_substituteVar hrec hn hstate hunder
    | app a op args =>
      have hargs : ∀ m ∈ args, ∀ st : SubstState, Sound live st →
          st.resolving = state.resolving →
          Runs live st (substitutePlain env.toSymEnv state.resolving m.toExpr)
            (Settles env.toSymEnv m.toExpr) (rec m st) := by
        intro m hm st hst hnames
        rw [← hnames]
        refine hrec m (live.children_mem _ hn m hm) st hst ?_
        rw [hnames]
        exact hunder.arg hm
      have hrun := runs_walkChildren hargs state hstate rfl
      dsimp only
      rcases hwalk : walkChildren rec args state with ⟨_ | rs, after⟩
      · rw [hwalk] at hrun
        exact hrun.bail
      · rw [hwalk] at hrun
        refine runs_cache hn hunder ?_
        rw [Node.toExpr_app]
        refine hrun.map (fun hrs => ?_) fun hsettles => .app (List.forall_mem_map.2 hsettles)
        rw [substitutePlain_app, hrs, Option.map_some]
    | quant a q vs body =>
      have hrun := hrec body (live.children_mem _ hn body (List.mem_singleton_self _)) state hstate
        (hunder.expand .body)
      dsimp only
      rcases hbody : rec body state with ⟨_ | r, after⟩
      · rw [hbody] at hrun
        exact hrun.bail
      · rw [hbody] at hrun
        refine runs_cache hn hunder (hrun.map (fun hr => ?_) .quant)
        rw [Node.toExpr_quant, substitutePlain_quant, hr, Option.map_some]

end Node

/-- **One walk**, from any table whose entries are exact: whatever it returns is meant, and the
table stays exact. -/
theorem substituteInner_runs (maxMemoEntries left : ℕ) :
    RunsAll live (substituteInner maxMemoEntries env left) := by
  induction left with
  | zero =>
    intro n _ state hstate _
    exact ⟨rfl, le_rfl, ⟨hstate.keeps, hstate.memoExact⟩, nofun, nofun⟩
  | succ left ih =>
    intro n hn state hstate hunder
    rw [substituteInner]
    split
    · exact ⟨rfl, le_rfl, hstate, nofun, nofun⟩
    · refine .of_budget (state.budget - 1) ?_
      exact runs_substituteNode ih hn ⟨hstate.keeps, hstate.memoExact⟩ hunder

/-! ### Against the walk without a table -/

/-- Under the same limits the walk with the table returns whatever the other does, and leaves
no fewer visits. -/
def Follows (live : Allocations env) (rec : Node → SubstState → Option Expr × SubstState)
    (walk : List String → Expr → Walk Expr) : Prop :=
  ∀ n ∈ live.nodes, ∀ state : SubstState, Sound live state →
    Under env.toSymEnv state.resolving n.toExpr → ∀ budget ≤ state.budget, ∀ r left,
      (walk state.resolving n.toExpr).result budget = (some r, left) →
        ∃ after, rec n state = (some r, after) ∧ left ≤ after.budget

section Follows

variable {rec : Node → SubstState → Option Expr × SubstState}
  {walk : List String → Expr → Walk Expr}

theorem follows_walkChildren (hrec : RunsAll live rec) (hfollows : Follows live rec walk)
    {ns : List Node} (hns : ∀ n ∈ ns, n ∈ live.nodes) {state : SubstState}
    (hstate : Sound live state)
    (hunder : ∀ n ∈ ns, Under env.toSymEnv state.resolving n.toExpr) {budget left : ℕ}
    (hbudget : budget ≤ state.budget) {rs : List Expr}
    (h : ((ns.map Node.toExpr).mapM (walk state.resolving)).result budget = (some rs, left)) :
    ∃ after, walkChildren rec ns state = (some rs, after) ∧ left ≤ after.budget := by
  induction ns generalizing state budget rs with
  | nil =>
    cases h
    exact ⟨state, rfl, hbudget⟩
  | cons n ns ih =>
    rw [List.map_cons, List.mapM_cons] at h
    obtain ⟨r, mid, hr, h⟩ := Walk.result_bind_eq_some.1 h
    obtain ⟨rs, left, hrs, h⟩ := Walk.result_bind_eq_some.1 h
    cases h
    have hn := hns n List.mem_cons_self
    have hu := hunder n List.mem_cons_self
    obtain ⟨after, hafter, hmid⟩ := hfollows n hn state hstate hu budget hbudget r mid hr
    have hrun := hrec n hn state hstate hu
    rw [hafter] at hrun
    have hresolving : after.resolving = state.resolving := hrun.resolving_eq
    obtain ⟨last, hlast, hleft⟩ := ih (fun m hm => hns m (List.mem_cons_of_mem n hm)) hrun.sound
      (fun m hm => hresolving ▸ hunder m (List.mem_cons_of_mem n hm)) hmid (hresolving ▸ hrs)
    refine ⟨last, ?_, hleft⟩
    rw [walkChildren, hafter]
    dsimp only
    rw [hlast]

theorem follows_substituteVar (hfollows : Follows live rec walk) {state : SubstState} {a : ℕ}
    {name : String} {s : SmtSort} (hstate : Sound live state)
    (hunder : Under env.toSymEnv state.resolving (.var name s)) {budget left : ℕ}
    (hbudget : budget ≤ state.budget) {r : Expr}
    (h : (match env.toSymEnv.lookup name with
      | none => pure (.var name s)
      | some replacement =>
        if name ∈ state.resolving then pure (.var name s)
        else do
          let resolved ← walk (name :: state.resolving) replacement
          if resolved.sort ≠ s then Walk.bail else pure resolved : Walk Expr).result budget =
        (some r, left)) :
    ∃ after, substituteVar maxMemoEntries env rec a name s state = (some r, after) ∧
      left ≤ after.budget := by
  have hlookup := env.lookup_toSymEnv name
  rw [substituteVar]
  rcases hvalue : env.lookup name with _ | value
  · rw [hlookup, hvalue] at h
    cases h
    exact ⟨state, rfl, hbudget⟩
  rw [hvalue] at hlookup
  rw [hlookup] at h
  dsimp only [Option.map_some] at h ⊢
  by_cases hname : name ∈ state.resolving
  · rw [if_pos hname] at h ⊢
    cases h
    exact ⟨_, rfl, hbudget⟩
  · rw [if_neg hname] at h ⊢
    obtain ⟨resolved, mid, hresolved, h⟩ := Walk.result_bind_eq_some.1 h
    obtain ⟨after, hafter, hmid⟩ := hfollows value (live.mem_of_lookup hvalue)
      { state with resolving := name :: state.resolving } ⟨hstate.keeps, hstate.memoExact⟩
      (hunder.resolve hlookup) budget hbudget resolved mid hresolved
    rw [hafter]
    dsimp only
    split at h
    · cases h
    · rename_i hsort
      cases h
      rw [if_neg hsort]
      exact ⟨_, rfl, by simpa using hmid⟩

end Follows

/-- The walk with the table against the walk without. -/
theorem substituteInner_follows (maxMemoEntries : ℕ) {maxDepth : ℕ} (fuel left d : ℕ)
    (hd : d + left = maxDepth) :
    Follows live (substituteInner maxMemoEntries env left)
      (Straightline.substituteInner maxDepth env.toSymEnv fuel d) := by
  induction fuel generalizing left d with
  | zero => exact fun _ _ _ _ _ _ _ _ _ h => nomatch h
  | succ fuel ih =>
    intro n hn state hstate hunder budget hbudget r rest h
    have hplain := substituteInner_plain maxDepth (fuel + 1) d budget r (by rw [h])
    have hspent := substituteInner_spends maxDepth (fuel + 1) d budget r rest h
    rw [Straightline.substituteInner.eq_def] at h
    obtain ⟨_, mid, henter, hnode⟩ := Walk.result_bind_eq_some.1 h
    obtain ⟨rfl, hdeep⟩ := Walk.result_enter_eq_some.1 henter
    obtain ⟨left, rfl⟩ : ∃ k, left = k + 1 := ⟨left - 1, by omega⟩
    have hih := ih left (d + 1) (by omega)
    have hspend : Sound live { state with budget := state.budget - 1 } :=
      ⟨hstate.keeps, hstate.memoExact⟩
    have hmid : mid ≤ state.budget - 1 := by omega
    rw [substituteInner, if_neg (by omega), substituteNode.eq_def]
    split
    · -- an entry of the table: both return what is meant
      rename_i m cached hlookup
      obtain ⟨hkey, hsettles, hexact⟩ := hstate.memoExact _ m cached hlookup
      obtain rfl : m = n := live.injOn (hstate.keeps _ m cached hlookup) hn hkey
      rw [substitutePlain_eq_nil hsettles hunder, hexact] at hplain
      obtain rfl : cached = r := Option.some.inj hplain
      exact ⟨_, rfl, by dsimp only; omega⟩
    · cases n with
      | var a name s => exact follows_substituteVar hih hspend hunder hmid hnode
      | app a op args =>
        rw [Node.toExpr_app] at hnode
        obtain ⟨rs, last, hrs, hbuilt⟩ := Walk.result_bind_eq_some.1 hnode
        cases hbuilt
        have hmem : ∀ m ∈ args, m ∈ live.nodes := live.children_mem _ hn
        have hargs : ∀ m ∈ args, Under env.toSymEnv state.resolving m.toExpr :=
          fun m hm => hunder.arg hm
        obtain ⟨after, hafter, hlast⟩ :=
          follows_walkChildren (substituteInner_runs maxMemoEntries left) hih hmem hspend hargs hmid hrs
        dsimp only
        rw [hafter]
        exact ⟨_, rfl, by simpa using hlast⟩
      | quant a q vs body =>
        obtain ⟨r, last, hr, hbuilt⟩ := Walk.result_bind_eq_some.1 hnode
        cases hbuilt
        obtain ⟨after, hafter, hlast⟩ := hih body
          (live.children_mem _ hn body (List.mem_singleton_self _)) _ hspend (hunder.expand .body)
          mid hmid r rest hr
        dsimp only
        rw [hafter]
        exact ⟨_, rfl, by simpa using hlast⟩

end SubstState

/-! ### After any earlier substitutions -/

/-- A call that starts with no name being resolved. -/
theorem SubstState.call_runs (maxMemoEntries : ℕ) {state : SubstState}
    (hnil : state.resolving = []) (hexact : state.MemoExact env) (hkeeps : live.Keeps state)
    {n : Node} (hn : n ∈ live.nodes) (left budget : ℕ) :
    Runs live { state with budget := budget } (substitutePlain env.toSymEnv [] n.toExpr)
      (Settles env.toSymEnv n.toExpr) (state.call maxMemoEntries env left budget n) := by
  obtain ⟨resolving, memo, cycleHits, b⟩ := state
  obtain rfl : resolving = [] := hnil
  exact substituteInner_runs maxMemoEntries left n hn ⟨[], memo, cycleHits, budget⟩
    ⟨hkeeps, hexact⟩ (.nil _)

theorem SubstState.call_follows (maxMemoEntries : ℕ) {state : SubstState}
    (hnil : state.resolving = []) (hexact : state.MemoExact env) (hkeeps : live.Keeps state)
    {n : Node} (hn : n ∈ live.nodes) {maxDepth fuel budget : ℕ} {r : Expr}
    (h : ((Straightline.substituteInner maxDepth env.toSymEnv fuel 0 [] n.toExpr).result
      budget).1 = some r) : (state.call maxMemoEntries env maxDepth budget n).1 = some r := by
  obtain ⟨resolving, memo, cycleHits, b⟩ := state
  obtain rfl : resolving = [] := hnil
  have hfollows := substituteInner_follows maxMemoEntries fuel maxDepth 0 (Nat.zero_add maxDepth) n
    hn ⟨[], memo, cycleHits, budget⟩ ⟨hkeeps, hexact⟩ (.nil _)
  obtain ⟨after, hafter, -⟩ := hfollows budget le_rfl r _ (Prod.ext h rfl)
  rw [call, hafter]

/-- What holds of the state between two calls. -/
theorem Session.spec {state : SubstState} (h : Session maxMemoEntries env state) :
    state.resolving = [] ∧ state.MemoExact env := by
  induction h with
  | start budget => exact ⟨rfl, fun k n r hlookup => by simp [SubstState.start] at hlookup⟩
  | next _ live hkeeps hn left budget ih =>
    obtain ⟨hnil, hexact⟩ := ih
    have hrun := SubstState.call_runs maxMemoEntries hnil hexact hkeeps hn left budget
    exact ⟨hrun.resolving_eq.trans hnil, hrun.sound.memoExact⟩

end Walks

/-- **The memo table changes nothing.** After any sequence of substitutions that shared the
table, in any environment, the walk returns nothing but what the substitution means; it returns
whatever the walk without a table returns under the same limits; and under limits that are large
enough the two are equal. -/
theorem substituteInner_exact {maxMemoEntries : ℕ} {env : NodeEnv} {state : SubstState}
    (hsession : Session maxMemoEntries env state) (live : Allocations env)
    (hkeeps : live.Keeps state) {n : Node} (hn : n ∈ live.nodes) :
    (∀ left budget r, (state.call maxMemoEntries env left budget n).1 = some r →
      substitutePlain env.toSymEnv [] n.toExpr = some r) ∧
    (∀ maxDepth fuel budget r,
      ((substituteInner maxDepth env.toSymEnv fuel 0 [] n.toExpr).result budget).1 = some r →
        (state.call maxMemoEntries env maxDepth budget n).1 = some r) ∧
    ∃ levels visits, ∀ left budget, levels ≤ left → visits ≤ budget →
      (state.call maxMemoEntries env left budget n).1 =
        substitutePlain env.toSymEnv [] n.toExpr := by
  obtain ⟨hnil, hexact⟩ := hsession.spec
  have hmeant : ∀ left budget r, (state.call maxMemoEntries env left budget n).1 = some r →
      substitutePlain env.toSymEnv [] n.toExpr = some r :=
    fun left budget =>
      (SubstState.call_runs maxMemoEntries hnil hexact hkeeps hn left budget).value
  have hfollows : ∀ maxDepth fuel budget r,
      ((substituteInner maxDepth env.toSymEnv fuel 0 [] n.toExpr).result budget).1 = some r →
        (state.call maxMemoEntries env maxDepth budget n).1 = some r :=
    fun _ _ _ _ h => SubstState.call_follows maxMemoEntries hnil hexact hkeeps hn h
  refine ⟨hmeant, hfollows, ?_⟩
  rcases hplain : substitutePlain env.toSymEnv [] n.toExpr with _ | r
  · -- nothing is meant, so nothing is returned
    refine ⟨0, 0, fun left budget _ _ => Option.eq_none_iff_forall_ne_some.2 fun r hr => ?_⟩
    have hsome := hmeant left budget r hr
    rw [hplain] at hsome
    cases hsome
  · obtain ⟨levels, visits, hafford⟩ := substituteInner_affordable hplain
    refine ⟨levels, visits, fun left budget hleft hbudget => ?_⟩
    obtain ⟨rest, hrest, -⟩ := hafford left left 0 budget hleft (by omega) hbudget
    exact hfollows left left budget r (by rw [hrest])

/-! ### A cyclic environment -/

namespace Cyclic

def z : Node := .var 1 "z" .bool
def w : Node := .var 2 "w" .bool
def x : Node := .var 3 "x" .bool
def y : Node := .var 4 "y" .bool
def wValue : Node := .app 5 .not [z]
def xValue : Node := .app 6 .and [y, w]
def yValue : Node := .app 7 .or [x, w]

/-- `x = y ∧ w`, `y = x ∨ w` and `w = ¬ z`, with one node for both occurrences of `w`. -/
def env : NodeEnv := [("x", xValue), ("y", yValue), ("w", wValue)]

def live : Allocations env where
  nodes := {z, w, x, y, wValue, xValue, yValue}
  children_mem := by
    rintro n (rfl | rfl | rfl | rfl | rfl | rfl | rfl) c hc
    iterate 4 exact absurd hc List.not_mem_nil
    · obtain rfl := List.mem_singleton.1 hc
      simp
    all_goals
      obtain rfl | rfl := List.mem_pair.1 hc <;> simp
  value_mem := by
    intro p hp
    simp only [env, List.mem_cons, List.not_mem_nil, or_false] at hp
    rcases hp with rfl | rfl | rfl <;> simp
  injOn := by
    rintro n (rfl | rfl | rfl | rfl | rfl | rfl | rfl) m (rfl | rfl | rfl | rfl | rfl | rfl | rfl) h
      <;> first | rfl | cases h

/-- The state after `y` was substituted, on the way of which `y` was met again. -/
def afterY : SubstState := ((SubstState.start 0).call 200000 env 512 2000000 y).2

theorem keeps_start : live.Keeps (.start 0) := fun k n r h => by simp [SubstState.start] at h

theorem session_afterY : Session 200000 env afterY :=
  .next (.start 0) live keeps_start (by simp [live]) 512 2000000

theorem keeps_afterY : live.Keeps afterY := by
  have hspec := (show Session 200000 env (.start 0) from .start 0).spec
  exact (SubstState.call_runs 200000 hspec.1 hspec.2 keeps_start (n := y) (by simp [live]) 512
    2000000).sound.keeps

theorem substitutePlain_x : substitutePlain env.toSymEnv [] x.toExpr =
    some (.and [.or [.var "x" .bool, .not (.var "z" .bool)], .not (.var "z" .bool)]) := by
  simp [env, NodeEnv.toSymEnv, x, y, z, w, wValue, xValue, yValue, substitutePlain,
    List.lookup_cons, Option.filter_some, Op.resultSort]

/-- Of the nodes under `y`, the table holds `w` and its value; substituting `x` then meets `x`. -/
theorem substituteInner_exact_cyclic : afterY.memo.entries.length = 2 ∧
    ∃ levels visits, ∀ left budget, levels ≤ left → visits ≤ budget →
      (afterY.call 200000 env left budget x).1 =
        some (.and [.or [.var "x" .bool, .not (.var "z" .bool)], .not (.var "z" .bool)]) := by
  have hexact := substituteInner_exact session_afterY live keeps_afterY (n := x) (by simp [live])
  rw [substitutePlain_x] at hexact
  exact ⟨by decide +kernel, hexact.2.2⟩

end Cyclic

end Straightline

end TrustMc
