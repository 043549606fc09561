import TrustMc.Guards.ConstructorGuards
import Mathlib.Logic.Equiv.List

/-!
# When constructor guards prune executions

A guard is a fact about every execution of the rule, while the selector it is emitted for
may be evaluated on some executions only. This file says exactly which executions the
guards of a list of constraints remove.

* `Evaluated` is the order of evaluation: a conditional evaluates only the branch its
  condition chooses, an implication its conclusion only under its premise, a disjunct only
  after the earlier ones failed.
* `guards_hold_iff`: on an execution whose evaluated selectors are all applied to values
  of their own constructor, the guards hold if and only if the *skipped* guarded selectors
  are, too.
* `guards_hold_of_strict`: no execution is pruned when every guarded selector stands where
  every evaluation reaches it.
-/

namespace TrustMc

namespace ConstructorGuards

open TrustMc.Expr Carriers Carriers.Val

/-! ### The selector applications visited -/

/-- A selector application, with the node of its container. -/
structure Site where
  /-- The node of the container. -/
  path : Path
  /-- The datatype's name. -/
  datatype : String
  /-- The selector's name. -/
  selector : String
  /-- The sort of the field. -/
  sort : SmtSort
  /-- The term the selector is applied to. -/
  container : Expr

/-- The selector application of a site. -/
def Site.term (s : Site) : Expr := s.container.fieldSelect s.datatype s.selector s.sort

mutual

/-- The selector applications the collection visits, in order. -/
def guardSites (path : Path) : Expr → List Site
  | .var _ _ => []
  | .app (.datatypeSelector dt sel s) [container] =>
    ⟨0 :: path, dt, sel, s, container⟩ :: guardSites (0 :: path) container
  | .app .ite [c, a, b] =>
    guardSites (0 :: path) c ++
      ((if isTester c then [] else guardSites (1 :: path) a) ++ guardSites (2 :: path) b)
  | .app _ args => guardSitesList path 0 args
  | .quant _ _ b => guardSites (0 :: path) b

/-- The selector applications visited in the children from position `i` on. -/
def guardSitesList (path : Path) (i : ℕ) : List Expr → List Site
  | [] => []
  | e :: es => guardSites (i :: path) e ++ guardSitesList path (i + 1) es

end

/-- The selector applications visited in a list of constraints. -/
def sites (exprs : List Expr) : List Site :=
  (roots exprs).flatMap fun (p, e) => guardSites p e

/-- The selector arm on a site. -/
def visit (cx : Context) (st : Collected) (s : Site) : Collected :=
  visitSelector cx s.path s.datatype s.selector s.container st

theorem collectGuardsRecursive_eq (cx : Context) (path : Path) (e : Expr) (st : Collected) :
    collectGuardsRecursive cx path e st = (guardSites path e).foldl (visit cx) st := by
  induction path, e, st using collectGuardsRecursive.induct cx
    (motive_2 := fun path i es st =>
      collectGuardsList cx path i es st = (guardSitesList path i es).foldl (visit cx) st) with
  | case1 => simp [collectGuardsRecursive, guardSites]
  -- a selector is visited before its container
  | case2 _ _ _ _ _ _ ih => simp [collectGuardsRecursive, guardSites, visit, ih]
  | case3 path c a b st st₁ st₂ ihc iha ihb =>
    -- the first branch of a conditional is left out under a constructor test
    simp only [collectGuardsRecursive, guardSites, List.foldl_append, ← ihc]
    by_cases hc : isTester c = true
    · simpa [hc, st₁, st₂] using ihb
    · simpa [hc, st₁, st₂, ← iha] using ihb
  | case4 _ _ _ _ _ _ ih => simp [collectGuardsRecursive, guardSites, ih]
  | case5 _ _ _ _ _ ih => simp [collectGuardsRecursive, guardSites, ih]
  | case6 => simp [collectGuardsList, guardSitesList]
  | case7 _ _ _ _ _ ihe ihes =>
    rw [collectGuardsList, guardSitesList, List.foldl_append, ihes, ihe]

theorem collectConstructorGuards_eq {exprs : List Expr} (addrs : Addresses exprs) :
    collectConstructorGuards addrs =
      ((sites exprs).foldl (visit (context addrs)) ⟨[], []⟩).guards := by
  simp only [collectConstructorGuards, sites, List.foldl_flatMap, collectGuardsRecursive_eq]

/-- The constructor a guard is asked for at a site: the selector's owner on a container
whose constructor is not known, not data dependent and not variant-conflicted. -/
def guardedConstructor (cx : Context) (s : Site) : Option SmtConstructor :=
  if (resolvePinnedConstructor cx.pinned s.container).isSome || isIte s.container ||
      containerIdentity cx.addr s.path s.container ∈ cx.conflicted then none
  else selectorOwner s.container s.selector

theorem literalConstructorGuard_eq_none {container : Expr} {dt cons : String}
    (h : isIte container = false) : literalConstructorGuard container dt cons = none := by
  unfold literalConstructorGuard
  split
  · simp [isIte] at h
  · rfl

/-- One visit, in terms of the guarded constructor. -/
theorem visit_eq (cx : Context) (st : Collected) (s : Site) :
    visit cx st s =
      match guardedConstructor cx s with
      | none => st
      | some cons =>
        if (cx.addr s.path, cons.name) ∈ st.seen then st
        else ⟨st.guards ++ [s.container.isConstructor s.datatype cons.name],
          (cx.addr s.path, cons.name) :: st.seen⟩ := by
  unfold visit visitSelector guardedConstructor
  cases howner : selectorOwner s.container s.selector with
  | none => simp
  | some cons =>
    by_cases hpin : (resolvePinnedConstructor cx.pinned s.container).isSome = true
    · simp [hpin]
    by_cases hite : isIte s.container = true
    · simp [hpin, hite]
    by_cases hconf : containerIdentity cx.addr s.path s.container ∈ cx.conflicted
    · simp [hpin, hite, hconf]
    · have hlit : literalConstructorGuard s.container s.datatype cons.name = none :=
        literalConstructorGuard_eq_none (Bool.eq_false_iff.2 hite)
      simp [hpin, hite, hconf, hlit, peelBoolConst]

/-! ### The guards emitted

Repetitions are recognised by the container's address, and one address is one term, so
leaving them out loses no guard. -/

theorem nodeAt_child {exprs : List Expr} {path : Path} {e a : Expr} {i : ℕ}
    (he : nodeAt exprs path = some e) (ha : e.children[i]? = some a) :
    nodeAt exprs (i :: path) = some a := by
  cases path with
  | nil => cases he
  | cons j path => simp [nodeAt, he, ha]

theorem nodeAt_of_mem_guardSites {exprs : List Expr} {path : Path} {e : Expr} {s : Site}
    (he : nodeAt exprs path = some e) (hs : s ∈ guardSites path e) :
    nodeAt exprs s.path = some s.container := by
  induction path, e using guardSites.induct
    (motive_2 := fun path i es => (∀ j a, es[j]? = some a →
      nodeAt exprs ((i + j) :: path) = some a) → s ∈ guardSitesList path i es →
        nodeAt exprs s.path = some s.container) with
  | case1 => simp [guardSites] at hs
  | case2 path dt sel fs container ih =>
    -- a selector
    have hc : nodeAt exprs (0 :: path) = some container := nodeAt_child he rfl
    rcases List.mem_cons.1 (by simpa only [guardSites] using hs) with rfl | hs
    · exact hc
    · exact ih hc hs
  | case3 path c a b ihc iha ihb =>
    -- a conditional
    simp only [guardSites, List.mem_append] at hs
    rcases hs with hs | hs | hs
    · exact ihc (nodeAt_child he rfl) hs
    · split at hs
      · cases hs
      · exact iha (nodeAt_child he rfl) hs
    · exact ihb (nodeAt_child he rfl) hs
  | case4 path op args hsel hite ih =>
    -- any other application
    rw [guardSites.eq_4 path op args hsel hite] at hs
    exact ih (fun j a ha => nodeAt_child he (by simpa [children] using ha)) hs
  | case5 path q vs b ih => exact ih (nodeAt_child he rfl) (by simpa only [guardSites] using hs)
  | case6 _ _ _ hs => simp [guardSitesList] at hs
  | case7 path i e es ihe ihes hargs hs =>
    -- the first of a list of arguments, and the others
    rcases List.mem_append.1 (by simpa only [guardSitesList] using hs) with hs | hs
    · exact ihe (hargs 0 e rfl) hs
    · refine ihes (fun j a ha => ?_) hs
      have := hargs (j + 1) a (by simpa using ha)
      rwa [show i + (j + 1) = i + 1 + j by omega] at this

theorem nodeAt_of_mem_sites {exprs : List Expr} {s : Site} (hs : s ∈ sites exprs) :
    nodeAt exprs s.path = some s.container := by
  simp only [sites, roots, List.mem_flatMap, List.mem_map] at hs
  obtain ⟨-, ⟨⟨e, i⟩, he, rfl⟩, hs⟩ := hs
  exact nodeAt_of_mem_guardSites (by simpa [nodeAt] using List.mem_zipIdx_iff_getElem?.1 he) hs

/-- What holds of a collection after it has visited some sites. -/
structure Complete (cx : Context) (visited : List Site) (st : Collected) : Prop where
  /-- Every guard was asked for. -/
  sound : ∀ g ∈ st.guards, ∃ s ∈ visited, ∃ cons, guardedConstructor cx s = some cons ∧
    g = s.container.isConstructor s.datatype cons.name
  /-- Every guard asked for is recorded. -/
  recorded : ∀ s ∈ visited, ∀ cons, guardedConstructor cx s = some cons →
    (cx.addr s.path, cons.name) ∈ st.seen
  /-- What is recorded was emitted. -/
  emitted : ∀ k ∈ st.seen, ∃ s ∈ visited, cx.addr s.path = k.1 ∧
    s.container.isConstructor s.datatype k.2 ∈ st.guards

theorem Complete.visit {cx : Context} {visited : List Site} {st : Collected}
    (h : Complete cx visited st) (s : Site) :
    Complete cx (visited ++ [s]) (visit cx st s) := by
  rw [visit_eq]
  have hsound : ∀ g ∈ st.guards, ∃ s' ∈ visited ++ [s], ∃ cons,
      guardedConstructor cx s' = some cons ∧
        g = s'.container.isConstructor s'.datatype cons.name := by
    intro g hg
    obtain ⟨s', hs', hcons⟩ := h.sound g hg
    exact ⟨s', List.mem_append_left _ hs', hcons⟩
  have hemitted : ∀ k ∈ st.seen, ∃ s' ∈ visited ++ [s], cx.addr s'.path = k.1 ∧
      s'.container.isConstructor s'.datatype k.2 ∈ st.guards := by
    intro k hk
    obtain ⟨s', hs', hk⟩ := h.emitted k hk
    exact ⟨s', List.mem_append_left _ hs', hk⟩
  cases hcons : guardedConstructor cx s with
  | none =>
    refine ⟨hsound, fun s' hs' cons hc => ?_, hemitted⟩
    rcases List.mem_append.1 hs' with hs' | hs'
    · exact h.recorded s' hs' cons hc
    · obtain rfl := List.mem_singleton.1 hs'
      simp [hcons] at hc
  | some cons =>
    have hnew : ∀ s' ∈ visited ++ [s], ∀ c, guardedConstructor cx s' = some c →
        (cx.addr s'.path, c.name) ∈ (cx.addr s.path, cons.name) :: st.seen := by
      intro s' hs' c hc
      rcases List.mem_append.1 hs' with hs' | hs'
      · exact List.mem_cons_of_mem _ (h.recorded s' hs' c hc)
      · obtain rfl := List.mem_singleton.1 hs'
        obtain rfl := Option.some.inj (hcons.symm.trans hc)
        exact List.mem_cons_self
    by_cases hseen : (cx.addr s.path, cons.name) ∈ st.seen
    · simp only [hseen, if_true]
      refine ⟨hsound, fun s' hs' c hc => ?_, hemitted⟩
      rcases List.mem_cons.1 (hnew s' hs' c hc) with heq | hmem
      · exact heq ▸ hseen
      · exact hmem
    · simp only [hseen, if_false]
      refine ⟨fun g hg => ?_, hnew, fun k hk => ?_⟩
      · rcases List.mem_append.1 hg with hg | hg
        · exact hsound g hg
        · exact ⟨s, by simp, cons, hcons, List.mem_singleton.1 hg⟩
      · rcases List.mem_cons.1 hk with rfl | hk
        · exact ⟨s, by simp, rfl, by simp⟩
        · obtain ⟨s', hs', ha, hg⟩ := hemitted k hk
          exact ⟨s', hs', ha, List.mem_append_left _ hg⟩

theorem Complete.foldl {cx : Context} (todo : List Site) {visited : List Site} {st : Collected}
    (h : Complete cx visited st) :
    Complete cx (visited ++ todo) (todo.foldl (ConstructorGuards.visit cx) st) := by
  induction todo generalizing visited st with
  | nil => simpa using h
  | cons s todo ih => simpa using ih (h.visit s)

/-- The guards of a list of constraints hold exactly if every guarded container holds the
constructor its guard asks for. -/
theorem guards_hold_iff_sites {exprs : List Expr} (addrs : Addresses exprs) {T : Theory}
    {ρ : T.Env} :
    (∀ g ∈ collectConstructorGuards addrs, Holds ρ g) ↔
      ∀ s ∈ sites exprs, ∀ cons, guardedConstructor (context addrs) s = some cons →
        Holds ρ (s.container.isConstructor s.datatype cons.name) := by
  have hnil : Complete (context addrs) [] ⟨[], []⟩ := ⟨by simp, by simp, by simp⟩
  have hall : Complete (context addrs) (sites exprs)
      ((sites exprs).foldl (visit (context addrs)) ⟨[], []⟩) := by
    simpa using hnil.foldl (sites exprs)
  rw [collectConstructorGuards_eq]
  constructor
  · intro h s hs cons hcons
    obtain ⟨s', hs', haddr, hg⟩ := hall.emitted _ (hall.recorded s hs cons hcons)
    have hterm : s'.container = s.container :=
      addrs.same_term (nodeAt_of_mem_sites hs') (nodeAt_of_mem_sites hs) haddr
    have := h _ hg
    rw [hterm] at this
    exact holds_isConstructor.2 (holds_isConstructor.1 this)
  · intro h g hg
    obtain ⟨s, hs, cons, hcons, rfl⟩ := hall.sound g hg
    exact h s hs cons hcons

/-! ### Evaluation -/

section Evaluation

variable {T : Theory}

open Classical in
/-- The disjuncts evaluated: up to the first true one. -/
noncomputable def evaluatedDisjuncts (ρ : T.Env) : List Expr → List Expr
  | [] => []
  | e :: es => e :: if Holds ρ e then [] else evaluatedDisjuncts ρ es

open Classical in
/-- The arguments an evaluation of an application looks at. -/
noncomputable def evaluatedArgs (ρ : T.Env) : Op → List Expr → List Expr
  | .ite, [c, a, b] => [c, if Holds ρ c then a else b]
  | .implies, [a, b] => a :: if Holds ρ a then [b] else []
  | .or, es => evaluatedDisjuncts ρ es
  | _, args => args

/-- `Evaluated ρ e ρ' s`: evaluating `e` under `ρ` evaluates the subterm `s` under `ρ'`,
which differs from `ρ` on quantified names only. -/
inductive Evaluated : T.Env → Expr → T.Env → Expr → Prop
  | here (ρ : T.Env) (e : Expr) : Evaluated ρ e ρ e
  | arg {ρ ρ' : T.Env} {op : Op} {args : List Expr} {a s : Expr}
      (ha : a ∈ evaluatedArgs ρ op args) (h : Evaluated ρ a ρ' s) :
      Evaluated ρ (.app op args) ρ' s
  | body {ρ ρ₁ ρ' : T.Env} {q : Quantifier} {vs : List (String × SmtSort)} {b s : Expr}
      (hρ : Theory.AgreeOff (vs.map Prod.fst) ρ ρ₁) (h : Evaluated ρ₁ b ρ' s) :
      Evaluated ρ (.quant q vs b) ρ' s

theorem evaluated_var {ρ ρ' : T.Env} {n : String} {s : SmtSort} {e : Expr} :
    Evaluated ρ (.var n s) ρ' e ↔ ρ' = ρ ∧ e = .var n s := by
  constructor
  · rintro ⟨⟩
    exact ⟨rfl, rfl⟩
  · rintro ⟨rfl, rfl⟩
    exact .here _ _

theorem evaluated_app {ρ ρ' : T.Env} {op : Op} {args : List Expr} {e : Expr} :
    Evaluated ρ (.app op args) ρ' e ↔
      (ρ' = ρ ∧ e = .app op args) ∨ ∃ a ∈ evaluatedArgs ρ op args, Evaluated ρ a ρ' e := by
  constructor
  · rintro (⟨⟩ | ⟨ha, h⟩)
    · exact Or.inl ⟨rfl, rfl⟩
    · exact Or.inr ⟨_, ha, h⟩
  · rintro (⟨rfl, rfl⟩ | ⟨a, ha, h⟩)
    · exact .here _ _
    · exact .arg ha h

/-- The container's value was built by the constructor the selector belongs to. -/
def BuiltByOwn (ρ : T.Env) (container : Expr) (selector : String) : Prop :=
  ∀ cs cons, container.sort.constructors = some cs → cs.find? (·.hasField selector) = some cons →
    ∃ d, constructorOf (container.eval ρ) = some d ∧ d.name = cons.name

/-- The assignment satisfies the constraints, and every selector application evaluated is
applied to a value built by the selector's own constructor. -/
structure Execution (exprs : List Expr) (ρ : T.Env) : Prop where
  /-- The constraints hold. -/
  holds : ∀ e ∈ exprs, Holds ρ e
  /-- The selectors evaluated are applied to values of their own constructor. -/
  built : ∀ e ∈ exprs, ∀ ρ' container dt sel s,
    Evaluated ρ e ρ' (container.fieldSelect dt sel s) → BuiltByOwn ρ' container sel

/-- Some constraint's evaluation reaches the selector application. -/
def Reached (exprs : List Expr) (ρ : T.Env) (s : Site) : Prop :=
  ∃ e ∈ exprs, Evaluated ρ e ρ s.term

/-- The guarded selectors the evaluation skips are applied to values of their own
constructor all the same. -/
def SkippedBuiltByOwn {exprs : List Expr} (addrs : Addresses exprs) (ρ : T.Env) : Prop :=
  ∀ s ∈ sites exprs, (guardedConstructor (context addrs) s).isSome → ¬ Reached exprs ρ s →
    BuiltByOwn ρ s.container s.selector

theorem find?_of_guardedConstructor {cx : Context} {s : Site} {cons : SmtConstructor}
    (h : guardedConstructor cx s = some cons) :
    ∃ cs, s.container.sort.constructors = some cs ∧
      cs.find? (·.hasField s.selector) = some cons := by
  unfold guardedConstructor selectorOwner at h
  split at h
  · cases h
  · split at h
    · rename_i cs hcs
      split at h
      · exact ⟨cs, hcs, h⟩
      · cases h
    · cases h

/-- The guard of a site says that its container was built by the selector's constructor. -/
theorem holds_guard_iff {cx : Context} {s : Site} {cons : SmtConstructor} {ρ : T.Env}
    (h : guardedConstructor cx s = some cons) :
    Holds ρ (s.container.isConstructor s.datatype cons.name) ↔
      BuiltByOwn ρ s.container s.selector := by
  obtain ⟨cs, hcs, hfind⟩ := find?_of_guardedConstructor h
  rw [holds_isConstructor]
  constructor
  · intro hd cs' cons' hcs' hfind'
    obtain rfl := Option.some.inj (hcs.symm.trans hcs')
    obtain rfl := Option.some.inj (hfind.symm.trans hfind')
    exact hd
  · exact fun hb => hb cs cons hcs hfind

/-- **What the guards prune.** On an execution the guards hold if and only if the guarded
selectors that it skips are applied to values of their own constructor, too. -/
theorem guards_hold_iff {exprs : List Expr} (addrs : Addresses exprs) {ρ : T.Env}
    (hexec : Execution exprs ρ) :
    (∀ g ∈ collectConstructorGuards addrs, Holds ρ g) ↔ SkippedBuiltByOwn addrs ρ := by
  rw [guards_hold_iff_sites]
  constructor
  · intro h s hs hguarded _
    obtain ⟨cons, hcons⟩ := Option.isSome_iff_exists.1 hguarded
    exact (holds_guard_iff hcons).1 (h s hs cons hcons)
  · intro h s hs cons hcons
    refine (holds_guard_iff hcons).2 ?_
    by_cases hreached : Reached exprs ρ s
    · obtain ⟨e, he, heval⟩ := hreached
      exact hexec.built e he ρ _ _ _ _ heval
    · exact h s hs (by simp [hcons]) hreached

/-! ### Strict positions -/

/-- The arguments every evaluation of an application looks at. -/
def strictArgs : Op → List Expr → List Expr
  | .ite, [c, _, _] => [c]
  | .implies, [a, _] => [a]
  | .or, es => es.take 1
  | _, args => args

/-- The subterm stands where every evaluation of the term reaches it. -/
inductive Strict : Expr → Expr → Prop
  | here (e : Expr) : Strict e e
  | arg {op : Op} {args : List Expr} {a s : Expr} (ha : a ∈ strictArgs op args)
      (h : Strict a s) : Strict (.app op args) s
  | body {q : Quantifier} {vs : List (String × SmtSort)} {b s : Expr} (h : Strict b s) :
      Strict (.quant q vs b) s

theorem mem_evaluatedArgs_of_strict {ρ : T.Env} {op : Op} {args : List Expr} {a : Expr}
    (h : a ∈ strictArgs op args) : a ∈ evaluatedArgs ρ op args := by
  unfold strictArgs at h
  split at h
  · exact List.mem_singleton.1 h ▸ List.mem_cons_self
  · exact List.mem_singleton.1 h ▸ List.mem_cons_self
  · cases args with
    | nil => cases h
    | cons e es =>
      obtain rfl : a = e := by simpa using h
      exact List.mem_cons_self
  · rename_i hite himp hor
    rwa [evaluatedArgs.eq_4 ρ op args hite himp hor]

theorem Strict.evaluated {e s : Expr} (h : Strict e s) (ρ : T.Env) : Evaluated ρ e ρ s := by
  induction h with
  | here e => exact .here ρ e
  | arg ha _ ih => exact .arg (mem_evaluatedArgs_of_strict ha) ih
  | body _ ih => exact .body (Theory.AgreeOff.refl _ ρ) ih

/-- **No execution is pruned** when every guarded selector stands in a strict position. -/
theorem guards_hold_of_strict {exprs : List Expr} (addrs : Addresses exprs)
    (hstrict : ∀ s ∈ sites exprs, (guardedConstructor (context addrs) s).isSome →
      ∃ e ∈ exprs, Strict e s.term)
    {ρ : T.Env} (hexec : Execution exprs ρ) :
    ∀ g ∈ collectConstructorGuards addrs, Holds ρ g := by
  refine (guards_hold_iff addrs hexec).2 fun s hs hguarded hskipped => ?_
  obtain ⟨e, he, h⟩ := hstrict s hs hguarded
  exact absurd ⟨e, he, h.evaluated ρ⟩ hskipped

/-- The guards prune no execution if and only if every execution's skipped guarded
selectors are applied to values of their own constructor. -/
theorem guards_prune_nothing_iff {exprs : List Expr} (addrs : Addresses exprs) :
    (∀ ρ : T.Env, Execution exprs ρ → ∀ g ∈ collectConstructorGuards addrs, Holds ρ g) ↔
      ∀ ρ : T.Env, Execution exprs ρ → SkippedBuiltByOwn addrs ρ :=
  forall_congr' fun _ => forall_congr' fun hexec => guards_hold_iff addrs hexec

end Evaluation

/-! ### A pruned execution

`unwrap_or` on an option, tested the other way round: the selector stands in the
else-branch of a negated tester. -/

/-- Nodes at distinct positions at distinct addresses. -/
def Addresses.distinct (exprs : List Expr) : Addresses exprs where
  addr := Encodable.encode
  same_term hp hq h := by
    obtain rfl := Encodable.encode_injective h
    exact Option.some.inj (hp.symm.trans hq)

/-- The constructors of optional bytes. -/
def optionConstructors : List SmtConstructor :=
  [.mk "None" [], .mk "Some" [.mk "value" (.bitvec 8)]]

/-- An optional byte. -/
def optionVar : Expr := .var "v" (.datatype "Option" optionConstructors)

/-- `y = (if v is not Some then 0 else v.value)`. -/
def unwrapOrZero : Expr :=
  (Expr.var "y" (.bitvec 8)).eq
    (.ite (.not (optionVar.isConstructor "Option" "Some")) (.bitVecConst 0#8)
      (optionVar.fieldSelect "Option" "value" (.bitvec 8)))

theorem collectConstructorGuards_unwrapOrZero :
    collectConstructorGuards (.distinct [unwrapOrZero]) =
      [optionVar.isConstructor "Option" "Some"] := by
  decide +kernel

/-- The assignment `v = None`, `y = 0`. -/
noncomputable def noneEnv (T : Theory) : T.Env :=
  Theory.Env.ofVals fun n =>
    if n = "v" then ⟨.datatype "Option" optionConstructors, buildConstructor _ "None" []⟩
    else ofBV 0#8

variable {T : Theory}

theorem constructorOf_noneEnv :
    constructorOf (optionVar.eval (noneEnv T)) = some (.mk "None" []) := by
  have hnone : destruct optionConstructors
      (buildConstructor (C := T.toCarriers) _ "None" []) = some (.mk "None" [], []) :=
    destruct_buildConstructor rfl rfl
  rw [noneEnv, optionVar, eval_var_ofVals (by rfl), if_pos rfl]
  exact congrArg (Option.map Prod.fst) hnone

theorem not_holds_isSome_noneEnv :
    ¬ Holds (noneEnv T) (optionVar.isConstructor "Option" "Some") := by
  rw [holds_isConstructor, constructorOf_noneEnv]
  rintro ⟨d, hd, hname⟩
  obtain rfl := Option.some.inj hd
  exact absurd hname (by decide)

theorem holds_unwrapOrZero : Holds (noneEnv T) unwrapOrZero := by
  have hy : (Expr.var "y" (.bitvec 8)).eval (noneEnv T) = ofBV 0#8 := eval_var_ofVals rfl
  rw [unwrapOrZero, holds_eq, eval_ite (by rfl), if_pos (holds_not.2 not_holds_isSome_noneEnv),
    hy]
  simp [Op.interp]

/-- On `None` no selector of `unwrapOrZero` is evaluated. -/
theorem not_evaluated_unwrapOrZero {ρ' : T.Env} {container : Expr} {dt sel : String}
    {s : SmtSort} :
    ¬ Evaluated (noneEnv T) unwrapOrZero ρ' (container.fieldSelect dt sel s) := by
  have hcond : ¬ Holds (noneEnv T) (optionVar.isConstructor "Option" "Some") :=
    not_holds_isSome_noneEnv
  unfold optionVar at hcond
  simp [unwrapOrZero, optionVar, evaluated_app, evaluated_var, evaluatedArgs, hcond]

/-- The guard of `unwrapOrZero` prunes the execution on `None`, which evaluates no
selector. -/
theorem guard_prunes_unwrapOrZero :
    Execution [unwrapOrZero] (noneEnv default) ∧
      ¬ ∀ g ∈ collectConstructorGuards (.distinct [unwrapOrZero]), Holds (noneEnv default) g := by
  refine ⟨⟨?_, ?_⟩, ?_⟩
  · intro e he
    exact List.mem_singleton.1 he ▸ holds_unwrapOrZero
  · intro e he ρ' container dt sel s h
    exact absurd (List.mem_singleton.1 he ▸ h) not_evaluated_unwrapOrZero
  · rw [collectConstructorGuards_unwrapOrZero]
    exact fun h => not_holds_isSome_noneEnv (h _ (by simp))

end ConstructorGuards

end TrustMc
