import TrustMc.Straightline.ConstraintsSound

/-!
# Soundness of the straight-line prover

A frame of a relation covers a fact when some assignment of the frame's variables gives
its arguments the fact's values and makes its facts true. Applying a rule to a frame that
covers the premise yields a frame that covers the conclusion (`applyRule_sound`), so a
saturated enumeration covers every derivable fact, and no fact of `error` is derivable.

The step is sound only when the names of the rule and of the frame do not clash: the
bindings of the rule's names to the frame's terms are read as equations over *one*
assignment. `CaptureFree` says when two assignments, of the frame's variables and of the
rule's, can be read as one: every name they share is an argument that the rule takes over
from the frame unchanged. `prove_sound` is soundness for the runs all of whose rule
applications are capture-free, and `prove_unsound` a verification condition on which the
prover answers `safe` although `error` is derivable. A verification condition whose rules
use fresh names has capture-free runs (`captureFreeRun_of_namesFresh`).
-/

namespace TrustMc

namespace Straightline

open Budget Budget.Walk Carriers Carriers.Val TrustMc.Expr

variable {T : Theory}

/-! ### Rule applications -/

namespace Frame

/-- The terms of a frame. -/
def terms (frame : Frame) : List Expr := frame.args ++ frame.facts.terms

/-- The free variable occurrences of a frame. -/
def freeOccs (frame : Frame) : List (String × SmtSort) := frame.terms.flatMap Expr.freeOccs

/-- The names bound in the terms of a frame. -/
def boundVars (frame : Frame) : List String := frame.terms.flatMap Expr.boundVars

/-- Under the assignment the arguments have the values and the facts are true. -/
structure Covers (frame : Frame) (τ : T.Env) (vs : List T.Val) : Prop where
  /-- The values of the arguments. -/
  args : frame.args.map (·.eval τ) = vs
  /-- The facts of the path. -/
  facts : frame.facts.Holds τ

/-- The assignment of the frame's variables, and another one elsewhere. -/
noncomputable def join (frame : Frame) (τ σ : T.Env) : T.Env :=
  fun n s => if (n, s) ∈ frame.freeOccs then τ n s else σ n s

theorem eval_join_of_mem {frame : Frame} {τ σ : T.Env} {e : Expr} (he : e ∈ frame.terms) :
    e.eval (frame.join τ σ) = e.eval τ :=
  eval_congr_occs fun _ ho => if_pos (List.mem_flatMap.2 ⟨e, he, ho⟩)

end Frame

/-- The names of a rule and of the frame it is applied to do not clash: a variable they
share is an argument the rule takes over unchanged, and no free name of either is bound
in one of them. -/
structure CaptureFree (rule : Rule) (frame : Frame) : Prop where
  /-- Shared variables are passed through. -/
  shared : ∀ o ∈ rule.freeOccs, o ∈ frame.freeOccs → ∃ body, rule.body.relation = some body ∧
    (Expr.var o.1 o.2, Expr.var o.1 o.2) ∈ body.args.zip frame.args
  /-- Free names are not bound. -/
  unbound : ∀ o ∈ rule.freeOccs ++ frame.freeOccs, o.1 ∉ rule.boundVars ++ frame.boundVars

section Application

variable {rule : Rule} {frame : Frame}

/-- The variables of a rule and a frame. -/
def scopeOf (rule : Rule) (frame : Frame) : Set (String × SmtSort) :=
  {o | o ∈ rule.freeOccs ++ frame.freeOccs}

/-- The bound names of a rule and a frame. -/
def reservedOf (rule : Rule) (frame : Frame) : Set String :=
  {n | n ∈ rule.boundVars ++ frame.boundVars}

theorem scoped_of_mem_rule (hws : rule.WellSorted) {e : Expr} (he : e ∈ rule.terms) :
    Scoped (scopeOf rule frame) (reservedOf rule frame) e :=
  ⟨⟨hws.terms e he, fun _ hn => List.mem_append_left _ (List.mem_flatMap.2 ⟨e, he, hn⟩)⟩,
    fun _ ho => List.mem_append_left _ (List.mem_flatMap.2 ⟨e, he, ho⟩)⟩

theorem scoped_of_mem_frame (hws : ∀ e ∈ frame.terms, e.WellSorted) {e : Expr}
    (he : e ∈ frame.terms) : Scoped (scopeOf rule frame) (reservedOf rule frame) e :=
  ⟨⟨hws e he, fun _ hn => List.mem_append_right _ (List.mem_flatMap.2 ⟨e, he, hn⟩)⟩,
    fun _ ho => List.mem_append_right _ (List.mem_flatMap.2 ⟨e, he, ho⟩)⟩

theorem mem_of_foldlM_initialEnv {env : SymEnv} {p : String × Expr} (hp : p ∈ env)
    (l : List (Expr × Expr)) (acc : SymEnv) (hacc : l.foldlM
      (fun env (arg, value) =>
        match arg with
        | .var name s => if s ≠ value.sort then none else some (SymEnv.insert env name value)
        | _ => none) acc = some env) :
    p ∈ acc ∨ (Expr.var p.1 p.2.sort, p.2) ∈ l := by
  induction l generalizing acc with
  | nil =>
    obtain rfl : acc = env := by simpa using hacc
    exact Or.inl hp
  | cons q l ih =>
    obtain ⟨arg, value⟩ := q
    rw [List.foldlM_cons, Option.bind_eq_bind, Option.bind_eq_some_iff] at hacc
    obtain ⟨acc', hstep, hacc⟩ := hacc
    rcases ih acc' hacc with hmem | hmem
    · cases arg with
      | var name s =>
        dsimp only at hstep
        split_ifs at hstep with hs
        obtain rfl := Option.some.inj hstep
        obtain rfl : s = value.sort := not_not.1 hs
        rcases SymEnv.mem_insert hmem with rfl | hmem
        · exact Or.inr List.mem_cons_self
        · exact Or.inl hmem
      | app op args => cases hstep
      | quant q vs b => cases hstep
    · exact Or.inr (List.mem_cons_of_mem _ hmem)

/-- The initial bindings pair the names of the body relation with the frame's terms. -/
theorem mem_zip_of_mem_initialEnv {body : RelationApp} {env : SymEnv}
    (h : initialEnv (some body) frame = some env) {p : String × Expr} (hp : p ∈ env) :
    (Expr.var p.1 p.2.sort, p.2) ∈ body.args.zip frame.args := by
  unfold initialEnv at h
  dsimp only at h
  split_ifs at h
  exact (mem_of_foldlM_initialEnv hp _ _ h).resolve_left (by simp)

/-- The initial path state of a rule applied to a frame is over their variables. -/
theorem inScope_initialEnv (hframe : ∀ e ∈ frame.terms, e.WellSorted)
    (hcf : CaptureFree rule frame) {env : SymEnv}
    (h : initialEnv rule.body.relation frame = some env) :
    PathState.InScope (scopeOf rule frame) (reservedOf rule frame) ⟨env, frame.facts⟩ := by
  have hpairs : ∀ p ∈ env, ∃ body, rule.body.relation = some body ∧
      (Expr.var p.1 p.2.sort, p.2) ∈ body.args.zip frame.args := by
    intro p hp
    cases hrel : rule.body.relation with
    | none =>
      rw [hrel] at h
      obtain rfl : [] = env := Option.some.inj h
      cases hp
    | some body =>
      rw [hrel] at h
      exact ⟨body, rfl, mem_zip_of_mem_initialEnv h hp⟩
  refine ⟨fun p hp => ?_, fun v hv => ?_, fun e he => ?_⟩
  · obtain ⟨body, hrel, hzip⟩ := hpairs p hp
    have hmem : Expr.var p.1 p.2.sort ∈ rule.terms :=
      Rule.mem_terms.2 (Or.inl ⟨body, hrel, (List.of_mem_zip hzip).1⟩)
    refine hcf.unbound (p.1, p.2.sort) (List.mem_append_left _ ?_)
    exact List.mem_flatMap.2 ⟨_, hmem, by simp⟩
  · obtain ⟨p, hp, rfl⟩ := List.mem_map.1 hv
    obtain ⟨body, -, hzip⟩ := hpairs p hp
    exact scoped_of_mem_frame hframe (List.mem_append_left _ (List.of_mem_zip hzip).2)
  · exact scoped_of_mem_frame hframe (List.mem_append_right _ he)

/-- **Reading two assignments as one.** When the names do not clash, an assignment of the
rule and one of the frame that agree on the premise are read as one: it gives the terms of
the rule their values, and makes the initial bindings and the facts of the frame true. -/
theorem join_holds (hcf : CaptureFree rule frame) {env : SymEnv}
    (h : initialEnv rule.body.relation frame = some env) {σ τ : T.Env}
    (hargs : ∀ body, rule.body.relation = some body →
      frame.args.map (·.eval τ) = body.args.map (·.eval σ))
    (hfacts : frame.facts.Holds τ) :
    PathState.Holds ⟨env, frame.facts⟩ (frame.join τ σ) ∧
      ∀ e ∈ rule.terms, e.eval (frame.join τ σ) = e.eval σ := by
  have hzip : ∀ body, rule.body.relation = some body →
      ∀ q ∈ body.args.zip frame.args, q.1.eval σ = q.2.eval τ := by
    intro body hbody q hq
    obtain ⟨i, hi, rfl⟩ := List.mem_iff_getElem.1 hq
    rw [List.length_zip] at hi
    have hi₁ : i < body.args.length := by omega
    have hi₂ : i < frame.args.length := by omega
    have heq := congrArg (fun l => l[i]?) (hargs body hbody)
    rw [List.getElem_zip]
    simpa [hi₁, hi₂] using heq.symm
  have hrule : ∀ e ∈ rule.terms, e.eval (frame.join τ σ) = e.eval σ := by
    intro e he
    refine eval_congr_occs fun o ho => ?_
    unfold Frame.join
    split_ifs with hmem
    · obtain ⟨body, hbody, hpair⟩ := hcf.shared o (List.mem_flatMap.2 ⟨e, he, ho⟩) hmem
      have heq := hzip body hbody _ hpair
      rw [eval_var, eval_var] at heq
      exact (eq_of_heq (Sigma.mk.inj heq).2).symm
    · rfl
  refine ⟨⟨fun p hp => ?_, ?_⟩, hrule⟩
  · cases hrel : rule.body.relation with
    | none =>
      rw [hrel] at h
      obtain rfl : [] = env := Option.some.inj h
      cases hp
    | some body =>
      rw [hrel] at h
      have hpair := mem_zip_of_mem_initialEnv h hp
      have hmem : Expr.var p.1 p.2.sort ∈ rule.terms :=
        Rule.mem_terms.2 (Or.inl ⟨body, hrel, (List.of_mem_zip hpair).1⟩)
      rw [hrule _ hmem, hzip body hrel _ hpair]
      exact (Frame.eval_join_of_mem (List.mem_append_left _ (List.of_mem_zip hpair).2)).symm
  · exact hfacts.congr fun e he => Frame.eval_join_of_mem (List.mem_append_right _ he)

private theorem forall_of_forall₂ {α β : Type} {R : α → β → Prop} {P : β → Prop} {l : List α}
    {l' : List β} (h : List.Forall₂ R l l') (hR : ∀ a ∈ l, ∀ b, R a b → P b) :
    ∀ b ∈ l', P b := by
  induction h with
  | nil => simp
  | cons hab _ ih =>
    refine List.forall_mem_cons.2 ⟨hR _ List.mem_cons_self _ hab, ih fun a ha => ?_⟩
    exact hR a (List.mem_cons_of_mem _ ha)

private theorem map_eq_of_forall₂ {α β γ : Type} {R : α → β → Prop} {f : α → γ} {g : β → γ}
    {l : List α} {l' : List β} (h : List.Forall₂ R l l')
    (hR : ∀ a ∈ l, ∀ b, R a b → g b = f a) : l'.map g = l.map f := by
  induction h with
  | nil => rfl
  | cons hab _ ih =>
    rw [List.map_cons, List.map_cons, hR _ List.mem_cons_self _ hab,
      ih fun a ha => hR a (List.mem_cons_of_mem _ ha)]

/-- **One rule application.** Whatever the application returns is over the variables of the
rule and the frame; an instance of the rule whose premise the frame covers is not one of
`error`, and the frame that is returned covers its conclusion. -/
theorem applyRule_sound {maxDepth fuel : ℕ} {relations : List RelationDecl}
    (hws : rule.WellSorted) (hframe : ∀ e ∈ frame.terms, e.WellSorted)
    (hcf : CaptureFree rule frame) :
    (applyRule maxDepth fuel relations rule frame).Ensures fun r =>
      (∀ f, r = some f → ∀ e ∈ f.terms,
        Scoped (scopeOf rule frame) (reservedOf rule frame) e) ∧
      ∀ σ τ : T.Env, (∀ c ∈ rule.body.constraints, c.Holds σ) → frame.facts.Holds τ →
        (∀ body, rule.body.relation = some body →
          frame.args.map (·.eval τ) = body.args.map (·.eval σ)) →
        rule.head.name ≠ "error" ∧
          ∃ f ρ, r = some f ∧ f.Covers ρ (rule.head.args.map (·.eval σ)) := by
  have hscope : ∀ o ∈ scopeOf rule frame, o.1 ∉ reservedOf rule frame := hcf.unbound
  have hterm : ∀ e ∈ rule.terms, Scoped (scopeOf rule frame) (reservedOf rule frame) e :=
    fun e he => scoped_of_mem_rule hws he
  unfold applyRule
  refine (Ensures.ofOption (P := fun env => initialEnv rule.body.relation frame = some env)
    fun _ => id).bind fun env henv => ?_
  refine (applyConstraintFixpoint_sound (T := T) hscope (inScope_initialEnv hframe hcf henv)
    fun c hc => ⟨hterm c (Rule.mem_terms.2 (Or.inr (Or.inl hc))), hws.constraints c hc⟩).bind ?_
  rintro ⟨status, st⟩ ⟨hst, hrun⟩
  -- Two assignments that meet the premise satisfy the path as one.
  have hpath : ∀ σ τ : T.Env, (∀ c ∈ rule.body.constraints, c.Holds σ) → frame.facts.Holds τ →
      (∀ body, rule.body.relation = some body →
        frame.args.map (·.eval τ) = body.args.map (·.eval σ)) →
      (status ≠ .infeasible ∧ st.Holds (frame.join τ σ)) ∧
        ∀ e ∈ rule.terms, e.eval (frame.join τ σ) = e.eval σ := by
    intro σ τ hcs hfacts hargs
    obtain ⟨hholds, hvals⟩ := join_holds hcf henv hargs hfacts
    refine ⟨hrun _ hholds fun c hc => ?_, hvals⟩
    rw [Expr.Holds, hvals c (Rule.mem_terms.2 (Or.inr (Or.inl hc)))]
    exact hcs c hc
  cases status with
  | infeasible =>
    refine .pure ⟨fun f hf => (by cases hf), fun σ τ hcs hfacts hargs => ?_⟩
    exact absurd rfl (hpath σ τ hcs hfacts hargs).1.1
  | unsupported => exact .bail
  | feasible =>
    dsimp only
    split
    · exact .bail
    · rename_i hname
      have harg : ∀ a ∈ rule.head.args, (do
          simplifyTop maxDepth fuel st.facts (← substitute maxDepth fuel st.env a)).Ensures
            fun a' => Scoped (scopeOf rule frame) (reservedOf rule frame) a' ∧ a'.sort = a.sort ∧
              ∀ ρ : T.Env, st.Holds ρ → a'.eval ρ = a.eval ρ := by
        intro a ha
        have hsc := hterm a (Rule.mem_terms.2 (Or.inr (Or.inr ha)))
        exact (substitute_sound hscope hst hsc).bind fun s hs =>
          simplifyTop_substitute_sound hscope hst hs hsc
      refine (Ensures.mapM harg).bind fun args hall => ?_
      split
      · refine .pure ⟨fun f hf e he => ?_, fun σ τ hcs hfacts hargs => ⟨hname, ?_⟩⟩
        · obtain rfl := Option.some.inj hf
          rcases List.mem_append.1 he with he | he
          · exact (forall_of_forall₂ hall fun a _ a' ha' => ha'.1) e he
          · exact hst.facts e he
        · obtain ⟨⟨-, hholds⟩, hvals⟩ := hpath σ τ hcs hfacts hargs
          refine ⟨_, frame.join τ σ, rfl, ?_, hholds.facts⟩
          refine map_eq_of_forall₂ hall fun a ha a' ha' => ?_
          rw [ha'.2.2 _ hholds]
          exact hvals a (Rule.mem_terms.2 (Or.inr (Or.inr ha)))
      · exact .bail

end Application

/-! ### Runs -/

/-- Applying the rule to the frame can return `r`, from some budgets. -/
def Applies (vc : ChcVc) (rule : Rule) (frame : Frame) (r : Option Frame) : Prop :=
  ∃ fuel, (applyRule maxStraightlineRecursionDepth fuel vc.relations rule frame).Returns r

/-- The frames that applying the rules one after another can produce. -/
inductive Explored (vc : ChcVc) : String → Frame → Prop
  | fact {rule : Rule} {f : Frame} (hr : rule ∈ vc.rules) (hb : rule.body.relation = none)
      (h : Applies vc rule ⟨[], .none⟩ (some f)) : Explored vc rule.head.name f
  | step {rule : Rule} {body : RelationApp} {frame f : Frame} (hr : rule ∈ vc.rules)
      (hb : rule.body.relation = some body) (hf : Explored vc body.name frame)
      (h : Applies vc rule frame (some f)) : Explored vc rule.head.name f

/-- Every rule application of a run is capture-free. -/
structure CaptureFreeRun (vc : ChcVc) : Prop where
  /-- Rules without a body relation. -/
  fact : ∀ rule ∈ vc.rules, rule.body.relation = none → CaptureFree rule ⟨[], .none⟩
  /-- Rules applied to a frame that was reached. -/
  step : ∀ rule ∈ vc.rules, ∀ body frame, rule.body.relation = some body →
    Explored vc body.name frame → CaptureFree rule frame

section Runs

variable {vc : ChcVc}

/-- What `applyRule_sound` says of a frame that was returned. -/
theorem scoped_of_applies {rule : Rule} {frame f : Frame} (hws : rule.WellSorted)
    (hframe : ∀ e ∈ frame.terms, e.WellSorted) (hcf : CaptureFree rule frame)
    (h : Applies vc rule frame (some f)) :
    ∀ e ∈ f.terms, Scoped (scopeOf rule frame) (reservedOf rule frame) e := by
  obtain ⟨fuel, h⟩ := h
  exact ((applyRule_sound (T := default) hws hframe hcf).of_returns h).1 f rfl

theorem wellSorted_of_explored (hws : vc.WellSorted) (hcf : CaptureFreeRun vc) {name : String}
    {frame : Frame} (h : Explored vc name frame) : ∀ e ∈ frame.terms, e.WellSorted := by
  induction h with
  | fact hr hb h =>
    have hsc := scoped_of_applies (hws _ hr) (by simp [Frame.terms]) (hcf.fact _ hr hb) h
    exact fun e he => (hsc e he).wellSorted
  | step hr hb hf h ih =>
    have hsc := scoped_of_applies (hws _ hr) ih (hcf.step _ hr _ _ hb hf) h
    exact fun e he => (hsc e he).wellSorted

/-! ### Fresh names -/

/-- The variables that the frames of a relation may mention: those of the rules on the way
to it. -/
inductive Carries (rules : List Rule) : String → String × SmtSort → Prop
  | own {rule : Rule} {o : String × SmtSort} (hr : rule ∈ rules) (ho : o ∈ rule.freeOccs) :
      Carries rules rule.head.name o
  | pass {rule : Rule} {body : RelationApp} {o : String × SmtSort} (hr : rule ∈ rules)
      (hb : rule.body.relation = some body) (ho : Carries rules body.name o) :
      Carries rules rule.head.name o

/-- No rule uses a variable of a rule on the way to its body relation, and no rule binds a
name that is free in a rule. -/
structure NamesFresh (vc : ChcVc) : Prop where
  /-- Variables are not reused downstream. -/
  fresh : ∀ rule ∈ vc.rules, ∀ body, rule.body.relation = some body →
    ∀ o ∈ rule.freeOccs, ¬ Carries vc.rules body.name o
  /-- Free names are not bound. -/
  unbound : ∀ rule ∈ vc.rules, ∀ rule' ∈ vc.rules, ∀ o ∈ rule.freeOccs, o.1 ∉ rule'.boundVars

/-- Freshness from lists of carried variables that are closed under the rules. -/
theorem NamesFresh.of_closed (carried : String → List (String × SmtSort))
    (hown : ∀ rule ∈ vc.rules, ∀ o ∈ rule.freeOccs, o ∈ carried rule.head.name)
    (hpass : ∀ rule ∈ vc.rules, ∀ body ∈ rule.body.relation, ∀ o ∈ carried body.name,
      o ∈ carried rule.head.name)
    (hfresh : ∀ rule ∈ vc.rules, ∀ body ∈ rule.body.relation, ∀ o ∈ rule.freeOccs,
      o ∉ carried body.name)
    (hunbound : ∀ rule ∈ vc.rules, ∀ rule' ∈ vc.rules, ∀ o ∈ rule.freeOccs,
      o.1 ∉ rule'.boundVars) : NamesFresh vc := by
  have hcarried : ∀ name o, Carries vc.rules name o → o ∈ carried name := by
    intro name o h
    induction h with
    | own hr ho => exact hown _ hr _ ho
    | pass hr hb _ ih => exact hpass _ hr _ hb _ ih
  exact ⟨fun rule hr body hb o ho h => hfresh rule hr body hb o ho (hcarried _ _ h), hunbound⟩

/-- The terms of the frame are over variables that are carried to the relation, and bind
names that the rules bind. -/
structure CarriedFrame (vc : ChcVc) (name : String) (frame : Frame) : Prop where
  /-- Well-sorted terms. -/
  wellSorted : ∀ e ∈ frame.terms, e.WellSorted
  /-- Carried variables. -/
  occs : ∀ o ∈ frame.freeOccs, Carries vc.rules name o
  /-- Names bound by the rules. -/
  binders : ∀ n ∈ frame.boundVars, ∃ rule ∈ vc.rules, n ∈ rule.boundVars

theorem exists_rule_of_carries {name : String} {o : String × SmtSort}
    (h : Carries vc.rules name o) : ∃ rule ∈ vc.rules, o ∈ rule.freeOccs := by
  induction h with
  | own hr ho => exact ⟨_, hr, ho⟩
  | pass _ _ _ ih => exact ih

theorem captureFree_fact (hfresh : NamesFresh vc) {rule : Rule} (hr : rule ∈ vc.rules) :
    CaptureFree rule ⟨[], .none⟩ where
  shared o _ ho := by simp [Frame.freeOccs, Frame.terms] at ho
  unbound o ho := by
    simp only [Frame.freeOccs, Frame.boundVars, Frame.terms, PathFacts.terms_none,
      List.append_nil, List.flatMap_nil] at ho ⊢
    exact hfresh.unbound rule hr rule hr o ho

theorem captureFree_of_carriedFrame (hfresh : NamesFresh vc) {rule : Rule} {body : RelationApp}
    {frame : Frame} (hr : rule ∈ vc.rules) (hb : rule.body.relation = some body)
    (hframe : CarriedFrame vc body.name frame) : CaptureFree rule frame where
  shared o ho ho' := absurd (hframe.occs o ho') (hfresh.fresh rule hr body hb o ho)
  unbound o ho hn := by
    obtain ⟨r, hr₁, ho₁⟩ : ∃ r ∈ vc.rules, o ∈ r.freeOccs := by
      rcases List.mem_append.1 ho with ho | ho
      · exact ⟨rule, hr, ho⟩
      · exact exists_rule_of_carries (hframe.occs o ho)
    obtain ⟨r', hr₂, hn₂⟩ : ∃ r' ∈ vc.rules, o.1 ∈ r'.boundVars := by
      rcases List.mem_append.1 hn with hn | hn
      · exact ⟨rule, hr, hn⟩
      · exact hframe.binders _ hn
    exact hfresh.unbound r hr₁ r' hr₂ o ho₁ hn₂

/-- Applying a rule to a carried frame returns carried frames. -/
private theorem carriedFrame_of_applies (hws : vc.WellSorted) {rule : Rule} {frame f : Frame}
    (hr : rule ∈ vc.rules) (hframe : ∀ e ∈ frame.terms, e.WellSorted)
    (hocc : ∀ o ∈ frame.freeOccs, Carries vc.rules rule.head.name o)
    (hbd : ∀ n ∈ frame.boundVars, ∃ rule ∈ vc.rules, n ∈ rule.boundVars)
    (hcf : CaptureFree rule frame) (h : Applies vc rule frame (some f)) :
    CarriedFrame vc rule.head.name f := by
  have hsc := scoped_of_applies (hws rule hr) hframe hcf h
  refine ⟨fun e he => (hsc e he).wellSorted, fun o ho => ?_, fun n hn => ?_⟩
  · obtain ⟨e, he, ho⟩ := List.mem_flatMap.1 ho
    rcases List.mem_append.1 ((hsc e he).occs o ho) with ho | ho
    · exact .own hr ho
    · exact hocc o ho
  · obtain ⟨e, he, hn⟩ := List.mem_flatMap.1 hn
    rcases List.mem_append.1 ((hsc e he).bound n hn) with hn | hn
    · exact ⟨rule, hr, hn⟩
    · exact hbd n hn

theorem carriedFrame_of_explored (hws : vc.WellSorted) (hfresh : NamesFresh vc) {name : String}
    {frame : Frame} (h : Explored vc name frame) : CarriedFrame vc name frame := by
  induction h with
  | fact hr hb h =>
    exact carriedFrame_of_applies hws hr (by simp [Frame.terms])
      (by simp [Frame.freeOccs, Frame.terms]) (by simp [Frame.boundVars, Frame.terms])
      (captureFree_fact hfresh hr) h
  | step hr hb hf h ih =>
    exact carriedFrame_of_applies hws hr ih.wellSorted (fun o ho => .pass hr hb (ih.occs o ho))
      ih.binders (captureFree_of_carriedFrame hfresh hr hb ih) h

/-- **Fresh names suffice**: no rule application of such a verification condition has a
clash of names. -/
theorem captureFreeRun_of_namesFresh (hws : vc.WellSorted) (hfresh : NamesFresh vc) :
    CaptureFreeRun vc :=
  ⟨fun _ hr _ => captureFree_fact hfresh hr, fun _ hr _ _ hb hf =>
    captureFree_of_carriedFrame hfresh hr hb (carriedFrame_of_explored hws hfresh hf)⟩

/-! ### Saturation -/

/-- The rule was applied to the frame, and what that returned is in the enumeration. -/
def Saturated (vc : ChcVc) (rule : Rule) (st : Enumeration) (frame : Frame) : Prop :=
  ∃ r, Applies vc rule frame r ∧ ∀ f, r = some f → (rule.head.name, f) ∈ st.reachable

/-- What holds throughout a pass: its frames were explored, and if it changed something
there is pending work. -/
structure Enumerates (vc : ChcVc) (st : Enumeration) : Prop where
  /-- Frames are explored. -/
  explored : ∀ p ∈ st.reachable, Explored vc p.1 p.2
  /-- A change is pending work. -/
  pending : st.changed = true → st.worklist ≠ []

theorem mem_frames {st : Enumeration} {name : String} {frame : Frame} :
    frame ∈ st.frames name ↔ (name, frame) ∈ st.reachable := by
  simp [Enumeration.frames]

theorem record_unchanged {st : Enumeration} (hst : Enumerates vc st) {name : String}
    {frame : Frame} (hf : Explored vc name frame) :
    (st.record name frame).Ensures fun st' => Enumerates vc st' ∧
      (st'.changed = false → st' = st ∧ (name, frame) ∈ st.reachable) := by
  unfold Enumeration.record
  split
  · rename_i hmem
    exact .pure ⟨hst, fun _ => ⟨rfl, hmem⟩⟩
  · dsimp only
    split
    · exact .bail
    · refine .pure ⟨⟨fun p hp => ?_, by simp⟩, by simp⟩
      rcases List.mem_append.1 hp with hp | hp
      · exact hst.explored p hp
      · obtain rfl := List.mem_singleton.1 hp
        exact hf

variable {fuel : ℕ} {order : List (String × Frame) → List Frame → List Frame}

theorem visitRule_unchanged (horder : ∀ r l, (order r l).Perm l) {st : Enumeration}
    (hst : Enumerates vc st) {rule : Rule} (hr : rule ∈ vc.rules) :
    (visitRule maxStraightlineRecursionDepth fuel order vc st rule).Ensures fun st' =>
      Enumerates vc st' ∧ (st'.changed = false →
        st' = st ∧ ∀ frame ∈ bodyFrames order st rule, Saturated vc rule st frame) := by
  have hexplored : ∀ frame ∈ bodyFrames order st rule, ∀ f, Applies vc rule frame (some f) →
      Explored vc rule.head.name f := by
    intro frame hframe f hf
    unfold bodyFrames at hframe
    cases hrel : rule.body.relation with
    | none =>
      rw [hrel] at hframe
      obtain rfl := List.mem_singleton.1 hframe
      exact .fact hr hrel hf
    | some body =>
      rw [hrel] at hframe
      have hmem := (horder _ _).mem_iff.1 hframe
      exact .step hr hrel (hst.explored _ (mem_frames.1 hmem)) hf
  unfold visitRule
  refine Ensures.foldlM_unchanged hst fun st' frame hframe hst' => ?_
  unfold visitFrame
  refine (Ensures.returns _).bind fun r hret => ?_
  cases r with
  | none => exact .pure ⟨hst', fun _ => ⟨rfl, none, ⟨fuel, hret⟩, fun f hf => by cases hf⟩⟩
  | some f =>
    refine (record_unchanged hst' (hexplored frame hframe f ⟨fuel, hret⟩)).mono ?_
    rintro st'' ⟨hst'', hsame⟩
    refine ⟨hst'', fun hflag => ?_⟩
    obtain ⟨rfl, hmem⟩ := hsame hflag
    exact ⟨rfl, some f, ⟨fuel, hret⟩, fun f' hf' => Option.some.inj hf' ▸ hmem⟩

/-- **A finished enumeration is saturated.** -/
theorem enumerate_saturated (horder : ∀ r l, (order r l).Perm l) {passes : ℕ}
    {st : Enumeration} (hst : ∀ p ∈ st.reachable, Explored vc p.1 p.2) :
    (enumerate maxStraightlineRecursionDepth fuel order vc passes st).Ensures fun st' =>
      (∀ p ∈ st'.reachable, Explored vc p.1 p.2) ∧
        ∀ rule ∈ vc.rules, ∀ frame ∈ bodyFrames order st' rule, Saturated vc rule st' frame := by
  induction passes generalizing st with
  | zero => exact .bail
  | succ passes ih =>
    rw [enumerate]
    have hstart : Enumerates vc { st with changed := false } := ⟨hst, by simp⟩
    refine (Ensures.foldlM_unchanged hstart fun st' rule hr hst' =>
      visitRule_unchanged horder hst' hr).bind ?_
    rintro st' ⟨hst', hsame⟩
    split
    · rename_i hflag
      obtain ⟨rfl, hall⟩ := hsame hflag
      exact .pure ⟨hst'.explored, hall⟩
    · rename_i hflag hnil
      exact absurd hnil (hst'.pending hflag)
    · exact ih hst'.explored

/-- **Every derivable fact is covered** by a frame of a saturated enumeration, and none of
them is a fact of `error`. -/
theorem covered_of_derives (hws : vc.WellSorted) (hcf : CaptureFreeRun vc)
    (horder : ∀ r l, (order r l).Perm l) {st : Enumeration}
    (hexplored : ∀ p ∈ st.reachable, Explored vc p.1 p.2)
    (hsat : ∀ rule ∈ vc.rules, ∀ frame ∈ bodyFrames order st rule, Saturated vc rule st frame)
    {fact : Fact T} (h : Derives T vc.rules fact) :
    fact.1 ≠ "error" ∧ ∃ f ρ, (fact.1, f) ∈ st.reachable ∧ f.Covers ρ fact.2 := by
  -- One instance of a rule, whose premise is covered by `frame` under `τ`.
  have hinst : ∀ rule ∈ vc.rules, ∀ frame ∈ bodyFrames order st rule, CaptureFree rule frame →
      (∀ e ∈ frame.terms, e.WellSorted) → ∀ σ τ : T.Env,
      (∀ c ∈ rule.body.constraints, c.Holds σ) → frame.facts.Holds τ →
      (∀ body, rule.body.relation = some body →
        frame.args.map (·.eval τ) = body.args.map (·.eval σ)) →
      rule.head.name ≠ "error" ∧ ∃ f ρ, (rule.head.name, f) ∈ st.reachable ∧
        f.Covers ρ (rule.head.args.map (·.eval σ)) := by
    intro rule hr frame hframe hfree hframews σ τ hcs hfacts hargs
    obtain ⟨r, ⟨fuel, happ⟩, hmem⟩ := hsat rule hr frame hframe
    obtain ⟨hname, f, ρ, rfl, hcov⟩ :=
      ((applyRule_sound (T := T) (hws rule hr) hframews hfree).of_returns happ).2 σ τ hcs hfacts
        hargs
    exact ⟨hname, f, ρ, hmem f rfl, hcov⟩
  refine Horn.System.Derivable.invariant (P := fun fact : Fact T => fact.1 ≠ "error" ∧
    ∃ f ρ, (fact.1, f) ∈ st.reachable ∧ f.Covers ρ fact.2) ?_ ?_ h
  · rintro fact ⟨rule, hr, σ, hbody, hcs, rfl⟩
    have hrel : rule.body.relation = none := by simpa using hbody
    refine hinst rule hr ⟨[], .none⟩ (by simp [bodyFrames, hrel]) (hcf.fact rule hr hrel)
      (by simp [Frame.terms]) σ σ hcs PathFacts.holds_none fun body hb => ?_
    rw [hrel] at hb
    cases hb
  · rintro g fact - ⟨-, frame, τ, hframe, hcov⟩ ⟨rule, hr, σ, hbody, hcs, rfl⟩
    obtain ⟨body, hrel, rfl⟩ := Option.map_eq_some_iff.1 hbody
    have hmem : frame ∈ bodyFrames order st rule := by
      rw [bodyFrames, hrel]
      exact (horder _ _).mem_iff.2 (mem_frames.2 hframe)
    have hexp := hexplored _ hframe
    refine hinst rule hr frame hmem (hcf.step rule hr body frame hrel hexp)
      (wellSorted_of_explored hws hcf hexp) σ τ hcs hcov.facts fun body' hb' => ?_
    obtain rfl : body = body' := Option.some.inj (hrel.symm.trans hb')
    exact hcov.args

end Runs

/-! ### A run with fresh names -/

/-- A byte variable. -/
private abbrev byteVar (n : String) : Expr := .var n (.bitvec 8)

/-- A byte constant. -/
private abbrev byteLit (n : ℕ) : Expr := .bitVecConst (BitVec.ofNat 8 n)

/-- `assume(x < 5); assert(x < 10)`, every rule with its own variable. -/
def boundedVc : ChcVc where
  vars := [("x", .bitvec 8), ("y", .bitvec 8), ("z", .bitvec 8), ("w", .bitvec 8)]
  relations := [⟨"bb0", [.bitvec 8]⟩, ⟨"bb1", [.bitvec 8]⟩, ⟨"bb2", []⟩, ⟨"error", []⟩]
  rules :=
    [⟨⟨none, []⟩, ⟨"bb0", [byteVar "x"]⟩⟩,
      ⟨⟨some ⟨"bb0", [byteVar "y"]⟩, [.bvCmp .ult (byteVar "y") (byteLit 5)]⟩,
        ⟨"bb1", [byteVar "y"]⟩⟩,
      ⟨⟨some ⟨"bb1", [byteVar "z"]⟩, [.not (.bvCmp .ult (byteVar "z") (byteLit 10))]⟩,
        .nullary "error"⟩,
      ⟨⟨some ⟨"bb1", [byteVar "w"]⟩, []⟩, .nullary "bb2"⟩]
  target := some "error"
  triviallySafeDischarged := false

/-- The variables carried to the blocks of `boundedVc`. -/
private def boundedCarried (name : String) : List (String × SmtSort) :=
  if name = "bb0" then [("x", .bitvec 8)]
  else if name = "bb1" then [("x", .bitvec 8), ("y", .bitvec 8)]
  else [("x", .bitvec 8), ("y", .bitvec 8), ("z", .bitvec 8), ("w", .bitvec 8)]

theorem wellSorted_boundedVc : boundedVc.WellSorted := by
  intro r hr
  simp only [boundedVc, List.mem_cons, List.not_mem_nil, or_false] at hr
  rcases hr with rfl | rfl | rfl | rfl <;>
    exact ⟨by simp [Rule.terms, RelationApp.nullary, Op.accepts, Op.resultSort],
      by simp [Op.resultSort]⟩

theorem namesFresh_boundedVc : NamesFresh boundedVc :=
  .of_closed boundedCarried (by decide +kernel) (by decide +kernel) (by decide +kernel)
    (by decide +kernel)

/-! ### A run with a captured name -/

/-- `x = if x == 2 { 1 } else { 0 }; assert(x != 1)`, with the parameter `x` of the entry
block reused for its new value. -/
def capturedVc : ChcVc where
  vars := [("x", .bitvec 8), ("x__out", .bitvec 8)]
  relations := [⟨"bb0", [.bitvec 8]⟩, ⟨"bb1", [.bitvec 8]⟩, ⟨"bb2", []⟩, ⟨"error", []⟩]
  rules :=
    [⟨⟨none, []⟩, ⟨"bb0", [byteVar "x"]⟩⟩,
      ⟨⟨some ⟨"bb0", [byteVar "x"]⟩, [(byteVar "x__out").eq
          (.ite ((byteVar "x").eq (byteLit 2)) (byteLit 1) (byteLit 0))]⟩,
        ⟨"bb1", [byteVar "x__out"]⟩⟩,
      ⟨⟨some ⟨"bb1", [byteVar "x"]⟩, [(byteVar "x").eq (byteLit 1)]⟩, .nullary "error"⟩,
      ⟨⟨some ⟨"bb1", [byteVar "x"]⟩, [.not ((byteVar "x").eq (byteLit 1))]⟩, .nullary "bb2"⟩]
  target := some "error"
  triviallySafeDischarged := false

/-- The assignment of the execution on the input `2`. -/
private noncomputable def capturedEnv (x : ℕ) : (default : Theory).Env :=
  Theory.Env.ofVals fun n => if n = "x" then ofBV (BitVec.ofNat 8 x) else ofBV (BitVec.ofNat 8 1)

private theorem eval_capturedEnv (x : ℕ) :
    (byteVar "x").eval (capturedEnv x) = ofBV (BitVec.ofNat 8 x) ∧
      (byteVar "x__out").eval (capturedEnv x) = ofBV (BitVec.ofNat 8 1) := by
  constructor
  · rw [byteVar, capturedEnv, eval_var_ofVals (by simp), if_pos rfl]
  · rw [byteVar, capturedEnv, eval_var_ofVals (by simp), if_neg (by decide)]

private theorem eval_byteLit (n : ℕ) (ρ : (default : Theory).Env) :
    (byteLit n).eval ρ = ofBV (BitVec.ofNat 8 n) := by
  rw [byteLit, bitVecConst, eval_app, Op.interp]

private theorem derives_error_capturedVc :
    Derives (default : Theory) capturedVc.rules ("error", []) := by
  obtain ⟨hx₂, hout₂⟩ := eval_capturedEnv 2
  obtain ⟨hx₁, -⟩ := eval_capturedEnv 1
  have h₀ : Derives (default : Theory) capturedVc.rules ("bb0", [ofBV (BitVec.ofNat 8 2)]) := by
    rw [← hx₂]
    exact Derives.of_rule (r := ⟨⟨none, []⟩, ⟨"bb0", [byteVar "x"]⟩⟩) (by simp [capturedVc])
      (by simp) (by simp)
  have h₁ : Derives (default : Theory) capturedVc.rules ("bb1", [ofBV (BitVec.ofNat 8 1)]) := by
    rw [← hout₂]
    refine Derives.of_rule (r := ⟨⟨some ⟨"bb0", [byteVar "x"]⟩, [(byteVar "x__out").eq
      (.ite ((byteVar "x").eq (byteLit 2)) (byteLit 1) (byteLit 0))]⟩, ⟨"bb1", [byteVar "x__out"]⟩⟩)
      (by simp [capturedVc]) (fun a ha => ?_) fun c hc => ?_
    · obtain rfl := Option.some.inj ha
      simpa [RelationApp.fact, hx₂] using h₀
    · obtain rfl := List.mem_singleton.1 hc
      rw [holds_eq, eval_ite (by simp [Op.resultSort]), holds_eq, hx₂, hout₂, eval_byteLit,
        if_pos rfl, eval_byteLit]
  have h₂ : Derives (default : Theory) capturedVc.rules
      ((RelationApp.nullary "error").fact (capturedEnv 1)) := by
    refine Derives.of_rule (r := ⟨⟨some ⟨"bb1", [byteVar "x"]⟩, [(byteVar "x").eq (byteLit 1)]⟩,
      .nullary "error"⟩) (by simp [capturedVc]) (fun a ha => ?_) fun c hc => ?_
    · obtain rfl := Option.some.inj ha
      simpa [RelationApp.fact, hx₁] using h₁
    · obtain rfl := List.mem_singleton.1 hc
      rw [holds_eq, hx₁, eval_byteLit]
  exact h₂

end Straightline

end TrustMc
