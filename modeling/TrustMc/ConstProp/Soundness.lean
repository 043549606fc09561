import TrustMc.ConstProp.PropagateSound
import TrustMc.ConstProp.Pass

/-!
# Constant propagation loses no bug

When every round of `propagateConstants` is clean, an unsafe verification condition stays
unsafe (`propagateConstants_unsafe`).

* **Invariant.** In every derivable fact, the positions of `identifyConstantPositions` hold
  their constants (`agrees_of_derives`): each rule either gives the position its constant or
  hands it on from its premise.
* **Simulation.** Stripping the constant positions maps every instance of a rule, read where
  the invariant holds of its premise, to an instance of the propagated rule under the same
  assignment (`derives_applyConstantPropagation`).
* A round that is not clean can narrow the rules: `propagateConstants_loses_havoc`.
-/

namespace TrustMc

/-- A verification condition that is a well-formed problem: relations and variables are
declared once, and every application and every variable occurrence matches its declaration. -/
structure ChcVc.WellFormed (vc : ChcVc) : Prop where
  /-- Terms are well sorted and constraints Boolean. -/
  wellSorted : vc.WellSorted
  /-- Applications match the declared arities and sorts. -/
  declared : ∀ r ∈ vc.rules, ∀ a ∈ r.apps, ∃ d ∈ vc.relations,
    d.name = a.name ∧ a.args.map Expr.sort = d.argSorts
  /-- Relations are declared once. -/
  relations_nodup : (vc.relations.map (·.name)).Nodup
  /-- Variables are declared with their sorts. -/
  vars : ∀ r ∈ vc.rules, ∀ o ∈ r.freeOccs, o ∈ vc.vars
  /-- Variables are declared once. -/
  vars_nodup : (vc.vars.map Prod.fst).Nodup

namespace ConstProp

open Carriers Carriers.Val TrustMc.Expr

/-- Constant evaluation misreads no term of the verification condition. -/
def RegularVc (vc : ChcVc) : Prop := ∀ r ∈ vc.rules, ∀ e ∈ r.terms, Regular e

instance (vc : ChcVc) : Decidable (RegularVc vc) :=
  inferInstanceAs (Decidable (∀ r ∈ _, ∀ e ∈ _, _))

variable {T : Theory} {Γ : String → SmtSort} {sig : String → List SmtSort}

/-- Where names are unique, every entry is looked up. -/
theorem lookup_of_mem {β : Type} {l : List (String × β)} (h : (l.map Prod.fst).Nodup)
    {n : String} {s : β} (hm : (n, s) ∈ l) : l.lookup n = some s := by
  induction l with
  | nil => simp at hm
  | cons p l ih =>
    obtain ⟨hp, hl⟩ := List.nodup_cons.1 h
    rw [List.lookup_cons]
    rcases List.mem_cons.1 hm with rfl | hm
    · simp
    · have hne : n ≠ p.1 := fun heq => hp (heq ▸ List.mem_map_of_mem hm)
      rw [beq_eq_false_iff_ne.2 hne]
      exact ih hl hm

/-! ### Stripping -/

theorem map_stripPositions {α β : Type} (f : α → β) (cs : List (Option Expr)) (l : List α) :
    (stripPositions cs l).map f = stripPositions cs (l.map f) := by
  induction cs generalizing l with
  | nil => cases l <;> rfl
  | cons c cs ih =>
    cases l with
    | nil => cases c <;> rfl
    | cons a l => cases c <;> simp [stripPositions, ih]

theorem mem_of_mem_stripPositions {α : Type} {cs : List (Option Expr)} {l : List α} {a : α}
    (h : a ∈ stripPositions cs l) : a ∈ l := by
  induction cs generalizing l with
  | nil => cases l <;> exact h
  | cons c cs ih =>
    cases l with
    | nil => cases c <;> exact h
    | cons b l =>
      cases c with
      | none =>
        rcases List.mem_cons.1 h with rfl | h
        · exact List.mem_cons_self
        · exact List.mem_cons_of_mem _ (ih h)
      | some c => exact List.mem_cons_of_mem _ (ih h)

/-- Drops the constant positions of a fact. -/
def stripFact (constants : Constants) (f : Fact T) : Fact T :=
  match constants f.1 with
  | none => f
  | some cs => (f.1, stripPositions cs f.2)

/-! ### What the rounds preserve -/

/-- Rules over the variable sorts `Γ` and the relation signatures `sig`. -/
structure Good (Γ : String → SmtSort) (sig : String → List SmtSort) (rules : List Rule) : Prop where
  /-- Every term is sane. -/
  sane : ∀ r ∈ rules, ∀ e ∈ r.terms, Sane Γ e
  /-- Constraints are Boolean. -/
  bool : ∀ r ∈ rules, ∀ c ∈ r.body.constraints, c.sort = .bool
  /-- Applications match the signatures. -/
  apps : ∀ r ∈ rules, ∀ a ∈ r.apps, a.args.map Expr.sort = sig a.name

/-- Rules over the variable sorts `Γ` whose heads match the relation signatures `sig`, and whose
premises have at least as many arguments: a rule that a round skipped keeps more. -/
structure Formed (Γ : String → SmtSort) (sig : String → List SmtSort) (rules : List Rule) :
    Prop where
  /-- Every term is sane. -/
  sane : ∀ r ∈ rules, ∀ e ∈ r.terms, Sane Γ e
  /-- Constraints are Boolean. -/
  bool : ∀ r ∈ rules, ∀ c ∈ r.body.constraints, c.sort = .bool
  /-- Heads match the signatures. -/
  head : ∀ r ∈ rules, r.head.args.map Expr.sort = sig r.head.name
  /-- Premises have the arguments of the signatures, and perhaps more. -/
  body : ∀ r ∈ rules, ∀ a, r.body.relation = some a → (sig a.name).length ≤ a.args.length

namespace Formed

variable {rules : List Rule}

theorem head_sane (h : Formed Γ sig rules) {r : Rule} (hr : r ∈ rules) {e : Expr}
    (he : e ∈ r.head.args) : Sane Γ e :=
  h.sane r hr e (Rule.mem_terms.2 (Or.inr (Or.inr he)))

theorem body_sane (h : Formed Γ sig rules) {r : Rule} (hr : r ∈ rules) {a : RelationApp}
    (ha : r.body.relation = some a) {e : Expr} (he : e ∈ a.args) : Sane Γ e :=
  h.sane r hr e (Rule.mem_terms.2 (Or.inl ⟨a, ha, he⟩))

theorem constraint_sane (h : Formed Γ sig rules) {r : Rule} (hr : r ∈ rules) {c : Expr}
    (hc : c ∈ r.body.constraints) : Sane Γ c :=
  h.sane r hr c (Rule.mem_terms.2 (Or.inr (Or.inl hc)))

theorem constrained (h : Formed Γ sig rules) {r : Rule} (hr : r ∈ rules) {H : T.Env → Prop}
    (hH : ∀ ρ, H ρ → ∀ c ∈ r.body.constraints, Holds ρ c) :
    ∀ c ∈ r.body.constraints, Constrained Γ H c := fun c hc =>
  ⟨h.constraint_sane hr hc, h.bool r hr c hc, fun ρ hρ => hH ρ hρ c hc⟩

theorem head_sort (h : Formed Γ sig rules) {r : Rule} (hr : r ∈ rules) {i : ℕ} {e : Expr}
    (he : r.head.args[i]? = some e) : (sig r.head.name)[i]? = some e.sort := by
  rw [← h.head r hr, List.getElem?_map, he, Option.map_some]

end Formed

theorem Good.formed {rules : List Rule} (h : Good Γ sig rules) : Formed Γ sig rules where
  sane := h.sane
  bool := h.bool
  head := fun r hr => h.apps r hr r.head (by simp [Rule.apps])
  body := fun r hr a ha => by
    rw [← h.apps r hr a (by simp [Rule.apps, ha]), List.length_map]

/-! ### Constant positions -/

/-- The values at the constant positions are the constants. -/
def Agrees (cs : List (Option Expr)) (vs : List T.Val) : Prop :=
  ∀ (i : ℕ) (c : Expr) (v : T.Val), cs[i]? = some (some c) → vs[i]? = some v →
    ∀ ρ : T.Env, v = c.eval ρ

theorem eq_of_uniqueConstant {l : List Expr} {c : Expr} (h : uniqueConstant l = some c) :
    c ∈ l ∧ isConstant c = true ∧ ∀ v ∈ l, v = c := by
  cases l with
  | nil => cases h
  | cons first rest =>
    obtain ⟨⟨hc, hrest⟩, h⟩ := Option.ite_none_right_eq_some.1 h
    obtain rfl := Option.some.inj h
    exact ⟨List.mem_cons_self, hc, List.forall_mem_cons.2 ⟨rfl, hrest⟩⟩

/-- A constant position: every rule gives it the constant or hands it on. -/
theorem identifyConstantPositions_spec {vc : ChcVc} {name : String} {cs : List (Option Expr)}
    (h : identifyConstantPositions vc name = some cs) {i : ℕ} {c : Expr}
    (hi : cs[i]? = some (some c)) :
    isConstant c = true ∧
      (∃ r ∈ vc.rules, r.head.name = name ∧ (resolveHeadArgs r)[i]? = some c) ∧
      ∀ r ∈ vc.rules, r.head.name = name → ∀ e, (resolveHeadArgs r)[i]? = some e →
        i ∈ detectIdentityPositions r ∨ e = c := by
  unfold identifyConstantPositions at h
  obtain ⟨-, h⟩ := Option.ite_none_right_eq_some.1 h
  obtain rfl := Option.some.inj h
  rw [List.getElem?_map, Option.map_eq_some_iff] at hi
  obtain ⟨k, hk, hi⟩ := hi
  obtain rfl : k = i := by
    rw [List.getElem?_eq_some_iff] at hk
    obtain ⟨hlt, hk⟩ := hk
    simpa using hk.symm
  obtain ⟨-, hi⟩ := Option.ite_none_left_eq_some.1 hi
  obtain ⟨hmem, hconst, hall⟩ := eq_of_uniqueConstant hi
  refine ⟨hconst, ?_, fun r hr hname e he => ?_⟩
  · obtain ⟨r, hr, hrc⟩ := List.mem_filterMap.1 hmem
    obtain ⟨hr, hname⟩ := List.mem_filter.1 hr
    exact ⟨r, hr, beq_iff_eq.1 hname, (Option.ite_none_left_eq_some.1 hrc).2⟩
  · by_cases hid : k ∈ detectIdentityPositions r
    · exact Or.inl hid
    · refine Or.inr (hall e (List.mem_filterMap.2 ⟨r, ?_, by rw [if_neg hid, he]⟩))
      exact List.mem_filter.2 ⟨hr, beq_iff_eq.2 hname⟩

section Round

variable {vc : ChcVc}

/-- A constant position has a constant of its sort. -/
theorem sane_of_constant (hg : Formed Γ sig vc.rules) {name : String} {cs : List (Option Expr)}
    (h : identifyConstantPositions vc name = some cs) {i : ℕ} {c : Expr}
    (hi : cs[i]? = some (some c)) :
    isConstant c = true ∧ Sane Γ c ∧ (sig name)[i]? = some c.sort := by
  obtain ⟨hconst, ⟨r, hr, rfl, hrc⟩, -⟩ := identifyConstantPositions_spec h hi
  rw [resolveHeadArgs, List.getElem?_map, Option.map_eq_some_iff] at hrc
  obtain ⟨arg, harg, rfl⟩ := hrc
  have hl : Learned Γ (fun ρ : (default : Theory).Env => ∀ c ∈ r.body.constraints, Holds ρ c)
      (propagateThroughEqualities r.body.constraints []) :=
    propagateThroughEqualities_sound (hg.constrained hr fun _ h => h) .nil
  obtain ⟨hsane, hsort, -⟩ := hl.resolveArg (hg.head_sane hr (List.mem_of_getElem? harg))
  exact ⟨hconst, hsane, by rw [hsort, hg.head_sort hr harg]⟩

/-- **Invariant.** Derivable facts have the constants at the constant positions. -/
theorem agrees_of_derives (hg : Formed Γ sig vc.rules) {f : Fact T} (hf : Derives T vc.rules f)
    {cs : List (Option Expr)} (hcs : identifyConstantPositions vc f.1 = some cs) :
    Agrees cs f.2 := by
  suffices key : ∀ cs, identifyConstantPositions vc f.1 = some cs → Agrees cs f.2 from key cs hcs
  -- one rule keeps the invariant
  have hrule : ∀ (p : Option (Fact T)) f, (system T vc.rules).fires p f →
      (∀ g, p = some g → ∀ cs, identifyConstantPositions vc g.1 = some cs → Agrees cs g.2) →
      ∀ cs, identifyConstantPositions vc f.1 = some cs → Agrees cs f.2 := by
    rintro p f ⟨r, hr, ρ, hp, hc, rfl⟩ hprem cs hcs i c v hi hv ρ'
    obtain ⟨hconst, -, hall⟩ := identifyConstantPositions_spec hcs hi
    obtain ⟨-, hsane, -⟩ := sane_of_constant hg hcs hi
    rw [eval_isConstant hconst hsane.wellSorted ρ' ρ]
    have hcons := hg.constrained hr (T := T) (H := fun ρ => ∀ c ∈ r.body.constraints, Holds ρ c)
      fun _ h => h
    simp only [RelationApp.fact, List.getElem?_map, Option.map_eq_some_iff] at hv
    obtain ⟨arg, harg, rfl⟩ := hv
    have hl := propagateThroughEqualities_sound hcons .nil
    obtain ⟨-, -, heval⟩ := hl.resolveArg (hg.head_sane hr (List.mem_of_getElem? harg))
    have hres : (resolveHeadArgs r)[i]? =
        some (resolveArg (propagateThroughEqualities r.body.constraints []) arg) := by
      rw [resolveHeadArgs, List.getElem?_map, harg, Option.map_some]
    rcases hall r hr rfl _ hres with hid | heq
    · obtain ⟨bodyRel, h, b, hrel, hname, hh, hb, hev⟩ :=
        detectIdentityPositions_sound hcons (hg.sane r hr) hid
      obtain rfl : h = arg := Option.some.inj (hh.symm.trans harg)
      rw [hev ρ hc]
      rw [hrel, Option.map_some] at hp
      refine hprem _ hp.symm cs (by rw [← hcs]; exact congrArg _ hname) i c _ hi ?_ ρ
      simp [RelationApp.fact, hb]
    · rw [← heval ρ hc, heq]
  exact Horn.System.Derivable.invariant
    (P := fun f => ∀ cs, identifyConstantPositions vc f.1 = some cs → Agrees cs f.2)
    (fun f hf => hrule none f hf (by simp))
    (fun g f _ hg hf => hrule (some g) f hf fun g' hg' => Option.some.inj hg' ▸ hg) hf

/-! ### One round -/

/-- The premise of a rule has the constants at its constant positions. -/
def PremiseAgrees (constants : Constants) (r : Rule) (ρ : T.Env) : Prop :=
  ∀ a, r.body.relation = some a → ∀ cs, constants a.name = some cs →
    Agrees cs (a.args.map (·.eval ρ))

/-- What a rule of the verification condition is read under. -/
def RuleHyp (vc : ChcVc) (r : Rule) (ρ : T.Env) : Prop :=
  (∀ c ∈ r.body.constraints, Holds ρ c) ∧ PremiseAgrees (identifyConstantPositions vc) r ρ

theorem initialKnown_sound (hg : Good Γ sig vc.rules) {r : Rule} (hr : r ∈ vc.rules)
    {a : RelationApp} (ha : r.body.relation = some a) {cs : List (Option Expr)}
    (hcs : identifyConstantPositions vc a.name = some cs) :
    Learned (T := T) Γ (RuleHyp vc r) (initialKnown cs a.args) := by
  refine foldl_preserves (fun known p hp hk => ?_) .nil
  split
  · rename_i c n s
    obtain ⟨i, hi⟩ := List.mem_iff_getElem?.1 hp
    obtain ⟨hci, hai⟩ := List.getElem?_zip_eq_some.1 hi
    obtain ⟨hconst, hsane, hsort⟩ := sane_of_constant hg.formed hcs hci
    have hvar : Sane Γ (.var n s) := hg.formed.body_sane hr ha (List.mem_of_getElem? hai)
    have hs : c.sort = s := by
      have happ := hg.apps r hr a (by simp [Rule.apps, ha])
      rw [← happ, List.getElem?_map, hai, Option.map_some] at hsort
      exact (Option.some.inj hsort).symm
    refine hk.insert (.of_eq hvar hsane hs fun ρ hρ => ?_) hconst
    exact hρ.2 a ha cs hcs i c _ hci (by rw [List.getElem?_map, hai, Option.map_some]) ρ
  · exact hk

/-- Everything known in a clean rule holds wherever the rule is read. -/
theorem knownOf_sound (hg : Good Γ sig vc.rules) {r : Rule} (hr : r ∈ vc.rules)
    {a : RelationApp} (ha : r.body.relation = some a) {cs : List (Option Expr)}
    (hcs : identifyConstantPositions vc a.name = some cs) :
    Learned (T := T) Γ (RuleHyp vc r) (knownOf r a cs) :=
  propagateThroughEqualities_sound (hg.formed.constrained hr fun _ h => h.1)
    (initialKnown_sound hg hr ha hcs)

/-- The rule with the known constants substituted and the constant positions dropped. -/
def rewriteRule (r : Rule) (a : RelationApp) (cs : List (Option Expr)) (known : Known) : Rule where
  body :=
    { relation := some ⟨a.name, stripPositions cs a.args⟩
      constraints := r.body.constraints.map (substituteVars · known) ++
        (known.filter fun p => p.1 ∈ argVarNames a.args).map fun p =>
          (Expr.var p.1 p.2.sort).eq p.2 }
  head := ⟨r.head.name, r.head.args.map (resolveArg known)⟩

/-- What `propagateRule` makes of a clean rule. -/
theorem propagateRule_eq {r : Rule} {constants : Constants}
    (hskip : skipsRule constants r = false) (hout : copiesOutVar constants r = false)
    {a : RelationApp} (ha : r.body.relation = some a) {cs : List (Option Expr)}
    (hcs : constants a.name = some cs) :
    propagateRule constants r = rewriteRule r a cs (knownOf r a cs) := by
  have hempty : (initialKnown cs a.args).isEmpty = false := by
    simpa only [skipsRule, ha, hcs] using hskip
  have hknown : propagateToUnconstrainedOutVars r.head.args r.body.constraints (knownOf r a cs) =
      knownOf r a cs := by
    simpa [copiesOutVar, ha, hcs] using hout
  simp only [propagateRule, ha, hcs, hempty, hknown, Bool.false_eq_true, if_false]
  rfl

/-- A rule whose premise loses no position is left as it is. -/
theorem propagateRule_of_none {r : Rule} {constants : Constants}
    (h : ∀ a, r.body.relation = some a → constants a.name = none) :
    propagateRule constants r = r := by
  unfold propagateRule
  split
  · rfl
  · rename_i a ha
    rw [h a ha]

theorem stripFact_head (constants : Constants) (r : Rule) (ρ : T.Env) :
    (stripHead constants r).head.fact ρ = stripFact constants (r.head.fact ρ) := by
  unfold stripHead stripFact
  cases h : constants r.head.name with
  | none => simp only [RelationApp.fact, h]
  | some cs => simp only [RelationApp.fact, h, map_stripPositions]

@[simp]
theorem body_stripHead (constants : Constants) (r : Rule) :
    (stripHead constants r).body = r.body := by
  unfold stripHead
  split <;> rfl

/-- **Simulation of one instance.** A rule read where the invariant holds of its premise
fires on the stripped premise, under the same assignment. -/
theorem fires_propagateRule (hg : Good Γ sig vc.rules) {r : Rule} (hr : r ∈ vc.rules)
    (hskip : skipsRule (identifyConstantPositions vc) r = false)
    (hout : copiesOutVar (identifyConstantPositions vc) r = false) {ρ : T.Env}
    (hρ : RuleHyp vc r ρ) :
    (stripHead (identifyConstantPositions vc)
      (propagateRule (identifyConstantPositions vc) r)).Fires
        ((r.body.relation.map (·.fact ρ)).map (stripFact (identifyConstantPositions vc)))
        (stripFact (identifyConstantPositions vc) (r.head.fact ρ)) := by
  by_cases hnone : ∀ a, r.body.relation = some a → identifyConstantPositions vc a.name = none
  · -- the premise loses no position
    rw [propagateRule_of_none hnone]
    refine ⟨ρ, ?_, by rw [body_stripHead]; exact hρ.1, stripFact_head _ _ _⟩
    rw [body_stripHead]
    cases hrel : r.body.relation with
    | none => rfl
    | some a => simp only [Option.map_some, RelationApp.fact, stripFact, hnone a hrel]
  · push Not at hnone
    obtain ⟨a, ha, hcs⟩ := hnone
    obtain ⟨cs, hcs⟩ := Option.ne_none_iff_exists'.1 hcs
    have hk : Learned (T := T) Γ (RuleHyp vc r) (knownOf r a cs) := knownOf_sound hg hr ha hcs
    rw [propagateRule_eq hskip hout ha hcs]
    refine ⟨ρ, ?_, ?_, ?_⟩
    · simp only [rewriteRule, body_stripHead, ha, Option.map_some, RelationApp.fact, stripFact,
        hcs, map_stripPositions]
    · rw [body_stripHead]
      intro c hc
      rcases List.mem_append.1 hc with hc | hc
      · obtain ⟨c₀, hc₀, rfl⟩ := List.mem_map.1 hc
        obtain ⟨-, -, heval⟩ := hk.substitute
          (hg.formed.constraint_sane hr hc₀)
        rw [Holds, heval ρ hρ]
        exact hρ.1 c₀ hc₀
      · obtain ⟨p, hp, rfl⟩ := List.mem_map.1 hc
        have hm := hk.tracked p (List.mem_filter.1 hp).1
        rw [holds_eq, hm.sort]
        exact hm.eval ρ hρ
    · rw [stripFact_head]
      refine congrArg _ (Prod.ext rfl ?_)
      simp only [rewriteRule, RelationApp.fact, List.map_map]
      refine List.map_congr_left fun arg harg => ?_
      exact (hk.resolveArg (hg.formed.head_sane hr harg)).2.2 ρ hρ

/-- **One round.** Derivable facts stay derivable, without their constant positions. -/
theorem derives_applyConstantPropagation (hg : Good Γ sig vc.rules) (hclean : CleanRound vc)
    {f : Fact T} (hf : Derives T vc.rules f) :
    Derives T (applyConstantPropagation vc (identifyConstantPositions vc)).1.rules
      (stripFact (identifyConstantPositions vc) f) := by
  have hstep : ∀ (p : Option (Fact T)) f, (∀ g, p = some g → Derives T vc.rules g) →
      (system T vc.rules).fires p f →
      (system T (applyConstantPropagation vc (identifyConstantPositions vc)).1.rules).fires
        (p.map (stripFact (identifyConstantPositions vc)))
        (stripFact (identifyConstantPositions vc) f) := by
    rintro p f hprem ⟨r, hr, ρ, rfl, hc, rfl⟩
    refine ⟨_, List.mem_map_of_mem hr, fires_propagateRule hg hr (hclean r hr).1 (hclean r hr).2
      ⟨hc, fun a ha cs hcs => ?_⟩⟩
    exact agrees_of_derives hg.formed (hprem (a.fact ρ) (by rw [ha, Option.map_some])) hcs
  exact Horn.System.Derivable.map _ (fun f hf => .fact (hstep none f (by simp) hf))
    (fun g f hg' hg'' hf => .step hg'' (hstep (some g) f
      (fun g' h => Option.some.inj h ▸ hg') hf)) hf

/-- The signatures after a round. -/
def stripSig (constants : Constants) (sig : String → List SmtSort) (name : String) :
    List SmtSort :=
  match constants name with
  | none => sig name
  | some cs => stripPositions cs (sig name)

/-- An equation of a variable with its constant is sane. -/
theorem Means.sane_eq {H : T.Env → Prop} {n : String} {c : Expr} (h : Means Γ H n c) :
    Sane Γ ((Expr.var n c.sort).eq c) := by
  refine ⟨wellSorted_app.2 ⟨by simp [Op.accepts], ?_⟩, regular_app.2 ⟨rfl, ?_⟩, ?_⟩
  · simpa using h.sane.wellSorted
  · simpa using h.sane.regular
  · intro m s hm
    simp only [freeOccs_app, List.flatMap_cons, List.flatMap_nil, List.append_nil, freeOccs_var,
      List.cons_append, List.nil_append, List.mem_cons, Prod.mk.injEq] at hm
    rcases hm with ⟨rfl, rfl⟩ | hm
    · exact h.sort
    · exact h.sane.typed m s hm

/-- A rewritten rule is over the same variables, and its head over the same signature. -/
theorem formed_rewriteRule (hg : Formed Γ sig vc.rules) {r : Rule} (hr : r ∈ vc.rules)
    {a : RelationApp} (ha : r.body.relation = some a) (cs : List (Option Expr)) {known : Known}
    {H : T.Env → Prop} (hk : Learned Γ H known) :
    (∀ e ∈ (rewriteRule r a cs known).terms, Sane Γ e) ∧
      (∀ c ∈ (rewriteRule r a cs known).body.constraints, c.sort = .bool) ∧
      (rewriteRule r a cs known).head.args.map Expr.sort =
        sig (rewriteRule r a cs known).head.name := by
  refine ⟨fun e he => ?_, fun c hc => ?_, ?_⟩
  · rcases Rule.mem_terms.1 he with ⟨b, hb, he⟩ | he | he
    · obtain rfl := Option.some.inj hb
      exact hg.body_sane hr ha (mem_of_mem_stripPositions he)
    · rcases List.mem_append.1 he with he | he
      · obtain ⟨c, hc, rfl⟩ := List.mem_map.1 he
        exact (hk.substitute (hg.constraint_sane hr hc)).1
      · obtain ⟨p, hp, rfl⟩ := List.mem_map.1 he
        exact (hk.tracked p (List.mem_filter.1 hp).1).sane_eq
    · obtain ⟨arg, harg, rfl⟩ := List.mem_map.1 he
      exact (hk.resolveArg (hg.head_sane hr harg)).1
  · rcases List.mem_append.1 hc with hc | hc
    · obtain ⟨c₀, hc₀, rfl⟩ := List.mem_map.1 hc
      rw [(hk.substitute (hg.constraint_sane hr hc₀)).2.1, hg.bool r hr c₀ hc₀]
    · obtain ⟨p, hp, rfl⟩ := List.mem_map.1 hc
      simp [Op.resultSort]
  · refine Eq.trans ?_ (hg.head r hr)
    rw [rewriteRule, List.map_map]
    exact List.map_congr_left fun arg harg => (hk.resolveArg (hg.head_sane hr harg)).2.1

/-- The rule of a clean round is over the same variables, its premise over the stripped
signatures and its head still over the old ones. -/
theorem good_propagateRule (hg : Good Γ sig vc.rules) {r : Rule} (hr : r ∈ vc.rules)
    (hskip : skipsRule (identifyConstantPositions vc) r = false)
    (hout : copiesOutVar (identifyConstantPositions vc) r = false) {r' : Rule}
    (hr' : r' = propagateRule (identifyConstantPositions vc) r) :
    (∀ e ∈ r'.terms, Sane Γ e) ∧ (∀ c ∈ r'.body.constraints, c.sort = .bool) ∧
      (∀ a, r'.body.relation = some a →
        a.args.map Expr.sort = stripSig (identifyConstantPositions vc) sig a.name) ∧
      r'.head.args.map Expr.sort = sig r'.head.name := by
  by_cases hnone : ∀ a, r.body.relation = some a → identifyConstantPositions vc a.name = none
  · rw [propagateRule_of_none hnone] at hr'
    subst hr'
    refine ⟨hg.sane r' hr, hg.bool r' hr, fun a ha => ?_, hg.apps r' hr _ (by simp [Rule.apps])⟩
    rw [stripSig, hnone a ha]
    exact hg.apps r' hr a (by simp [Rule.apps, ha])
  · push Not at hnone
    obtain ⟨a, ha, hcs⟩ := hnone
    obtain ⟨cs, hcs⟩ := Option.ne_none_iff_exists'.1 hcs
    have hk : Learned Γ (RuleHyp (T := default) vc r) (knownOf r a cs) :=
      knownOf_sound hg hr ha hcs
    rw [propagateRule_eq hskip hout ha hcs] at hr'
    subst hr'
    obtain ⟨hsane, hbool, hhead⟩ := formed_rewriteRule hg.formed hr ha cs hk
    refine ⟨hsane, hbool, fun b hb => ?_, hhead⟩
    obtain rfl := Option.some.inj hb
    rw [map_stripPositions, hg.apps r hr a (by simp [Rule.apps, ha]), stripSig, hcs]

theorem mem_args_stripHead {constants : Constants} {r : Rule} {e : Expr}
    (h : e ∈ (stripHead constants r).head.args) : e ∈ r.head.args := by
  unfold stripHead at h
  split at h
  · exact h
  · exact mem_of_mem_stripPositions h

theorem mem_terms_stripHead {constants : Constants} {r : Rule} {e : Expr}
    (h : e ∈ (stripHead constants r).terms) : e ∈ r.terms := by
  rw [Rule.mem_terms, body_stripHead] at h
  exact Rule.mem_terms.2 (h.imp_right (Or.imp_right mem_args_stripHead))

/-- A stripped head is over the stripped signatures. -/
theorem sorts_stripHead (constants : Constants) {r : Rule}
    (h : r.head.args.map Expr.sort = sig r.head.name) :
    (stripHead constants r).head.args.map Expr.sort =
      stripSig constants sig (stripHead constants r).head.name := by
  unfold stripHead stripSig
  cases hcs : constants r.head.name with
  | none => simpa only [hcs] using h
  | some cs => simp only [hcs, map_stripPositions, h]

/-- A clean round preserves what the rounds rely on. -/
theorem good_applyConstantPropagation (hg : Good Γ sig vc.rules) (hclean : CleanRound vc) :
    Good Γ (stripSig (identifyConstantPositions vc) sig)
      (applyConstantPropagation vc (identifyConstantPositions vc)).1.rules := by
  have hrule : ∀ r' ∈ (applyConstantPropagation vc (identifyConstantPositions vc)).1.rules,
      ∃ r ∈ vc.rules, r' = stripHead (identifyConstantPositions vc)
        (propagateRule (identifyConstantPositions vc) r) := by
    intro r' hr'
    obtain ⟨r, hr, rfl⟩ := List.mem_map.1 hr'
    exact ⟨r, hr, rfl⟩
  refine ⟨fun r' hr' e he => ?_, fun r' hr' c hc => ?_, fun r' hr' a ha => ?_⟩ <;>
    obtain ⟨r, hr, rfl⟩ := hrule r' hr' <;>
    obtain ⟨hsane, hbool, hbody, hhead⟩ :=
      good_propagateRule hg hr (hclean r hr).1 (hclean r hr).2 rfl
  · exact hsane e (mem_terms_stripHead he)
  · rw [body_stripHead] at hc
    exact hbool c hc
  · rcases List.mem_cons.1 ha with rfl | ha
    · exact sorts_stripHead _ hhead
    · rw [body_stripHead, Option.mem_toList] at ha
      exact hbody a ha

end Round

/-! ### All rounds -/

/-- What a run of clean rounds preserves. -/
theorem propagateRounds_sound {n : ℕ} {vc : ChcVc} (hg : Good Γ sig vc.rules)
    (hclean : CleanRounds n vc) :
    (∃ sig', Good Γ sig' (propagateRounds n vc).1.rules) ∧
      (propagateRounds n vc).1.target = vc.target ∧
      ∀ t (vs : List T.Val), Derives T vc.rules (t, vs) →
        ∃ vs', Derives T (propagateRounds n vc).1.rules (t, vs') := by
  induction n generalizing sig vc with
  | zero => exact ⟨⟨sig, hg⟩, rfl, fun t vs h => ⟨vs, h⟩⟩
  | succ n ih =>
    unfold propagateRounds
    split_ifs with hnone
    · exact ⟨⟨sig, hg⟩, rfl, fun t vs h => ⟨vs, h⟩⟩
    obtain ⟨hround, hrest⟩ := hclean.resolve_left hnone
    have hstep : ∀ t (vs : List T.Val), Derives T vc.rules (t, vs) → ∃ vs',
        Derives T (applyConstantPropagation vc (identifyConstantPositions vc)).1.rules
          (t, vs') := by
      intro t vs h
      have h' := derives_applyConstantPropagation hg hround h
      unfold stripFact at h'
      split at h'
      · exact ⟨_, h'⟩
      · exact ⟨_, h'⟩
    have hg' := good_applyConstantPropagation hg hround
    dsimp only
    split_ifs
    · exact ⟨⟨_, hg'⟩, rfl, hstep⟩
    · obtain ⟨hg'', htarget, hder⟩ := ih hg' hrest
      refine ⟨hg'', htarget, fun t vs h => ?_⟩
      obtain ⟨vs', h'⟩ := hstep t vs h
      exact hder t vs' h'

/-! ### Trivial rules and constraints -/

theorem tryEvalToBool_holds {e : Expr} {b : Bool} (he : Sane Γ e) (h : tryEvalToBool e = some b)
    (ρ : T.Env) : Holds ρ e ↔ b = true :=
  holds_of_rewrites_boolConst (H := fun _ => True)
    (tryEvalToBool_sound he.wellSorted he.regular h) trivial

/-- Dropping rules that cannot fire and constraints that always hold. -/
theorem derives_cleanup {vc : ChcVc} (hg : Good Γ sig vc.rules) {f : Fact T}
    (hf : Derives T vc.rules f) :
    Derives T (stripTriviallyTrueConstraints (eliminateTriviallyFalseRules vc)).rules f := by
  refine hf.mono ?_
  rintro p f ⟨r, hr, ρ, hp, hc, hhead⟩
  have hsane : ∀ c ∈ r.body.constraints, Sane Γ c := fun c hc =>
    hg.sane r hr c (Rule.mem_terms.2 (Or.inr (Or.inl hc)))
  refine ⟨stripConstraints r, List.mem_map_of_mem (List.mem_filter.2 ⟨hr, ?_⟩), ρ, hp,
    fun c h => hc c (List.mem_filter.1 h).1, hhead⟩
  split_ifs
  · rfl
  · rw [Bool.not_eq_true', List.any_eq_false]
    intro c hcm hfalse
    have hholds := tryEvalToBool_holds (hsane c hcm) (beq_iff_eq.1 hfalse) ρ
    simpa using hholds.1 (hc c hcm)

/-! ### The pass -/

private theorem find?_of_mem {l : List RelationDecl} (h : (l.map (·.name)).Nodup)
    {d : RelationDecl} (hd : d ∈ l) {n : String} (hn : d.name = n) :
    l.find? (fun d => d.name == n) = some d := by
  subst hn
  induction l with
  | nil => simp at hd
  | cons p l ih =>
    obtain ⟨hp, hl⟩ := List.nodup_cons.1 h
    rcases List.mem_cons.1 hd with rfl | hd
    · simp
    · have hne : p.name ≠ d.name := fun heq => hp (List.mem_map.2 ⟨d, hd, heq.symm⟩)
      rw [List.find?_cons_of_neg (by simpa using hne)]
      exact ih hl hd

/-- The variables and relations of a well-formed verification condition have one sort and one
signature each. -/
theorem good_of_wellFormed {vc : ChcVc} (hwf : vc.WellFormed) (hreg : RegularVc vc) :
    ∃ Γ sig, Good Γ sig vc.rules := by
  refine ⟨fun n => (vc.vars.lookup n).getD .bool, fun n =>
    ((vc.relations.find? fun d => d.name == n).map (·.argSorts)).getD [], ?_, ?_, ?_⟩
  · intro r hr e he
    refine ⟨(hwf.wellSorted r hr).terms e he, hreg r hr e he, fun n s hn => ?_⟩
    have hmem : (n, s) ∈ vc.vars := hwf.vars r hr _ (List.mem_flatMap.2 ⟨e, he, hn⟩)
    rw [lookup_of_mem hwf.vars_nodup hmem, Option.getD_some]
  · exact fun r hr c hc => (hwf.wellSorted r hr).constraints c hc
  · intro r hr a ha
    obtain ⟨d, hd, hname, hsorts⟩ := hwf.declared r hr a ha
    rw [find?_of_mem hwf.relations_nodup hd hname, Option.map_some, Option.getD_some, hsorts]

/-- Constant propagation loses no bug when its rounds are clean and constant evaluation
misreads no term. -/
theorem propagateConstants_unsafe {vc : ChcVc} (hwf : vc.WellFormed) (hreg : RegularVc vc)
    (hclean : CleanRun vc) (T : Theory) (h : vc.Unsafe T) :
    (propagateConstants vc).1.Unsafe T := by
  obtain ⟨Γ, sig, hg⟩ := good_of_wellFormed hwf hreg
  obtain ⟨t, vs, htarget, hder⟩ := h
  obtain ⟨⟨sig', hg'⟩, htarget', hround⟩ := propagateRounds_sound (T := T) hg hclean
  obtain ⟨vs', hder'⟩ := hround t vs hder
  exact ⟨t, vs', htarget'.trans htarget, derives_cleanup hg' hder'⟩

/-! ### Two runs -/

section Runs

/-- The variable of the two verification conditions below. -/
private def intVar (name : String) : Expr := .var name .int

/-- `x = 0 ⇒ A(x)`, `A(x) ∧ step ⇒ B(x__out)` and `B(x) ∧ x = last ⇒ error`. -/
def chainVc (step : List Expr) (last : ℤ) : ChcVc where
  vars := [("x", .int), ("x__out", .int)]
  relations := [⟨"A", [.int]⟩, ⟨"B", [.int]⟩, ⟨"error", []⟩]
  rules :=
    [⟨⟨none, [(intVar "x").eq (.intConst 0)]⟩, ⟨"A", [intVar "x"]⟩⟩,
      ⟨⟨some ⟨"A", [intVar "x"]⟩, step⟩, ⟨"B", [intVar "x__out"]⟩⟩,
      ⟨⟨some ⟨"B", [intVar "x"]⟩, [(intVar "x").eq (.intConst last)]⟩, .nullary "error"⟩]
  target := some "error"
  triviallySafeDischarged := false

/-- The step copies `x`. -/
def copyVc : ChcVc := chainVc [(intVar "x__out").eq (intVar "x")] 0

/-- The step leaves `x__out` free. -/
def havocVc : ChcVc := chainVc [] 1

theorem wellFormed_chainVc {step : List Expr} {last : ℤ}
    (hs : ∀ c ∈ step, c.WellSorted ∧ c.sort = .bool)
    (hv : ∀ o ∈ step.flatMap Expr.freeOccs, o ∈ (chainVc step last).vars) :
    (chainVc step last).WellFormed := by
  refine ⟨fun r hr => ?_, fun r hr => ?_, by simp [chainVc], fun r hr => ?_, by simp [chainVc]⟩ <;>
    simp only [chainVc, List.mem_cons, List.not_mem_nil, or_false] at hr
  · rcases hr with rfl | rfl | rfl
    · exact ⟨by simp [Rule.terms, intVar, Op.accepts, Op.resultSort],
        by simp [Op.resultSort]⟩
    · refine ⟨fun e he => ?_, fun c hc => (hs c hc).2⟩
      rcases Rule.mem_terms.1 he with ⟨a, ha, he⟩ | he | he
      · obtain rfl := Option.some.inj ha
        obtain rfl := List.mem_singleton.1 he
        exact wellSorted_var _ _
      · exact (hs e he).1
      · obtain rfl := List.mem_singleton.1 he
        exact wellSorted_var _ _
    · exact ⟨by simp [Rule.terms, RelationApp.nullary, intVar, Op.accepts, Op.resultSort],
        by simp [Op.resultSort]⟩
  · rcases hr with rfl | rfl | rfl <;>
      simp [chainVc, Rule.apps, RelationApp.nullary, intVar]
  · rcases hr with rfl | rfl | rfl
    · simp [chainVc, Rule.freeOccs, Rule.terms, intVar]
    · intro o ho
      simp only [Rule.freeOccs, Rule.terms, List.flatMap_append, List.mem_append] at ho
      rcases ho with (ho | ho) | ho
      · simp [intVar] at ho
        simp [chainVc, ho]
      · exact hv o ho
      · simp [intVar] at ho
        simp [chainVc, ho]
    · simp [chainVc, Rule.freeOccs, Rule.terms, RelationApp.nullary, intVar]

/-- The assignment of `x` and `x__out`. -/
private noncomputable def chainEnv (x out : ℤ) : (default : Theory).Env :=
  Theory.Env.ofVals fun n => ofInt (if n = "x" then x else out)

private theorem eval_chainEnv (x out : ℤ) (n : String) :
    (intVar n).eval (chainEnv x out) = ofInt (if n = "x" then x else out) :=
  eval_var_ofVals rfl

/-- `error` is reached when the step can hand on the value the last rule asks for. -/
theorem unsafe_chainVc {step : List Expr} {last : ℤ}
    (h : ∀ c ∈ step, Holds (chainEnv 0 last) c) :
    (chainVc step last).Unsafe (default : Theory) := by
  refine ⟨"error", [], rfl, ?_⟩
  have hconst : ∀ (z : ℤ) (ρ : (default : Theory).Env), (intConst z).eval ρ = ofInt z := by
    simp [Op.interp]
  have hA : Derives (default : Theory) (chainVc step last).rules ("A", [ofInt 0]) := by
    refine .fact ⟨_, List.mem_cons_self, chainEnv 0 0, rfl, ?_, ?_⟩
    · simp [eval_chainEnv, hconst]
    · simp [RelationApp.fact, eval_chainEnv]
  have hB : Derives (default : Theory) (chainVc step last).rules ("B", [ofInt last]) := by
    refine .step hA ⟨_, List.mem_cons_of_mem _ List.mem_cons_self, chainEnv 0 last, ?_, h, ?_⟩
    · simp [RelationApp.fact, eval_chainEnv]
    · simp [RelationApp.fact, eval_chainEnv]
  refine .step hB ⟨_, List.mem_cons_of_mem _ (List.mem_cons_of_mem _ List.mem_cons_self),
    chainEnv last 0, ?_, ?_, rfl⟩
  · simp [RelationApp.fact, eval_chainEnv]
  · simp [eval_chainEnv, hconst]

/-- The run on `copyVc` takes the argument of both relations away and keeps the bug. -/
theorem propagateConstants_unsafe_copyVc :
    (propagateConstants copyVc).1.rules =
        [⟨⟨none, [(intVar "x").eq (.intConst 0)]⟩, .nullary "A"⟩,
          ⟨⟨some (.nullary "A"), [(intVar "x").eq (.intConst 0)]⟩, .nullary "B"⟩,
          ⟨⟨some (.nullary "B"), [(intVar "x").eq (.intConst 0)]⟩, .nullary "error"⟩] ∧
      (propagateConstants copyVc).1.Unsafe (default : Theory) := by
  have hwf : copyVc.WellFormed :=
    wellFormed_chainVc (by simp [intVar, Op.accepts, Op.resultSort]) (by simp [chainVc, intVar])
  refine ⟨by decide +kernel, propagateConstants_unsafe hwf (by decide +kernel) (by decide +kernel)
    default (unsafe_chainVc ?_)⟩
  simp [eval_chainEnv]

/-- **A lost bug.** The step of `havocVc` may hand any value on, so `error` is reachable; the
pass takes `x__out` for a copy of `x` and drops the last rule. -/
theorem propagateConstants_loses_havoc :
    havocVc.WellFormed ∧ havocVc.Unsafe (default : Theory) ∧
      ¬ (propagateConstants havocVc).1.Unsafe (default : Theory) := by
  refine ⟨wellFormed_chainVc (by simp) (by simp), unsafe_chainVc (by simp), ?_⟩
  rintro ⟨t, vs, ht, hder⟩
  obtain rfl : t = "error" := by
    have : (propagateConstants havocVc).1.target = some "error" := by decide +kernel
    exact (Option.some.inj (this.symm.trans ht)).symm
  have hheads : ∀ r ∈ (propagateConstants havocVc).1.rules, r.head.name ≠ "error" := by
    decide +kernel
  rcases Horn.System.derivable_iff.1 hder with ⟨r, hr, ρ, -, -, hf⟩ | ⟨g, -, r, hr, ρ, -, -, hf⟩ <;>
    exact hheads r hr (congrArg Prod.fst hf)

end Runs

end ConstProp

end TrustMc
