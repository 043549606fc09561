import TrustMc.ConstProp.PropagateSound
import TrustMc.Scalarize.MidAliases
import TrustMc.Smt.Define

/-!
# When the collapse of an alias keeps a rule

Where an equation gives an alias and what replaces it one value, putting the one for the other
keeps the value of a term, and an alias that occurs no more can be given any value. So a step
keeps the instances of a rule (`fires_collapseStep`), as long as it captures nothing:
`substituteVar` goes under a quantifier without a look at what is bound there, unlike
`substituteVars`, which leaves the bound names out.

* `NoCapture`: no quantifier whose body is changed binds the alias or what replaces it.
* `CollapsesOpenly`: no step of the loop captures.
* `collapseMidAliases_exact`: the loop ends with no alias left, and then every rule fires on
  the tuples it fired on.
* `capturedAlias`: the rule that fires once its bound alias has been replaced.
-/

namespace TrustMc

namespace Scalarize

open Carriers Carriers.Val TrustMc.Expr ConstProp

variable {T : Theory} {Γ : String → SmtSort}

mutual

/-- No quantifier whose body the substitution changes binds a name that takes part in it. -/
def NoCapture (mid : String) (root : Expr) : Expr → Prop
  | .var _ _ => True
  | .app _ args => NoCaptureList mid root args
  | .quant _ vars body =>
    (substituteVar mid root body ≠ body →
      mid ∉ vars.map Prod.fst ∧ ∀ n ∈ root.freeVars, n ∉ vars.map Prod.fst) ∧
      NoCapture mid root body

/-- `NoCapture` on a list of terms. -/
def NoCaptureList (mid : String) (root : Expr) : List Expr → Prop
  | [] => True
  | e :: es => NoCapture mid root e ∧ NoCaptureList mid root es

end

@[simp]
theorem noCaptureList_iff {mid : String} {root : Expr} {es : List Expr} :
    NoCaptureList mid root es ↔ ∀ e ∈ es, NoCapture mid root e := by
  induction es with
  | nil => simp [NoCaptureList]
  | cons e es ih => simp [NoCaptureList, ih]

@[simp]
theorem substituteVarList_eq (mid : String) (root : Expr) (es : List Expr) :
    substituteVarList mid root es = es.map (substituteVar mid root) := by
  induction es with
  | nil => rfl
  | cons e es ih => simp [substituteVarList, ih]

/-! ### One substitution -/

/-- **A substitution without capture** keeps the value where the name has the value of what is
put in for it. -/
theorem rewrites_substituteVar {mid : String} {t : SmtSort} {root e : Expr}
    (hroot : root.WellSorted) (hsort : root.sort = t) (hws : e.WellSorted)
    (htyped : ∀ s, (mid, s) ∈ e.freeOccs → s = t) (hcap : NoCapture mid root e) :
    Rewrites (fun ρ : T.Env => (Expr.var mid t).eval ρ = root.eval ρ) [root] e
      (substituteVar mid root e) := by
  induction e with
  | var n s =>
    rw [substituteVar]
    split_ifs with hn
    · obtain rfl : s = t := htyped s (by simp [hn])
      subst hn
      exact ⟨hsort, hroot, fun o ho => Or.inr ⟨root, List.mem_singleton_self _, ho⟩,
        fun o ho => Or.inr ⟨root, List.mem_singleton_self _, ho⟩, fun ρ h => h.symm⟩
    · exact .refl hws
  | app op args ih =>
    rw [substituteVar, substituteVarList_eq]
    obtain ⟨hacc, hargs⟩ := wellSorted_app.1 hws
    rw [NoCapture, noCaptureList_iff] at hcap
    refine .app (List.forall₂_map_right_iff.2 (List.forall₂_same.2 fun a ha => ?_)) hacc
    refine ih a ha (hargs a ha) (fun s hs => htyped s ?_) (hcap a ha)
    rw [freeOccs_app]
    exact List.mem_flatMap.2 ⟨a, ha, hs⟩
  | quant q vs b ih =>
    rw [substituteVar]
    by_cases hsame : substituteVar mid root b = b
    · rw [hsame]
      exact .refl hws
    · obtain ⟨hb, hwb⟩ := wellSorted_quant.1 hws
      obtain ⟨hmid, hfree⟩ := hcap.1 hsame
      refine .binder (ih hwb (fun s hs => htyped s (mem_freeOccs_quant.2 ⟨hs, hmid⟩)) hcap.2) hb ?_
      -- the binders leave both sides of the equation alone
      intro ρ ρ' hagree h
      have hvar : (Expr.var mid t).eval ρ' = (Expr.var mid t).eval ρ := by
        rw [eval_var, eval_var, hagree mid hmid]
      have hval : root.eval ρ' = root.eval ρ := eval_congr fun n hn => hagree n (hfree n hn)
      rw [hvar, hval, h]

/-- A name that is replaced is gone. -/
theorem notMem_freeVars_substituteVar {mid : String} {root : Expr} (h : mid ∉ root.freeVars)
    (e : Expr) : mid ∉ (substituteVar mid root e).freeVars := by
  induction e with
  | var n s =>
    rw [substituteVar]
    split_ifs with hn
    · exact h
    · simpa using Ne.symm hn
  | app op args ih => simpa [substituteVar] using ih
  | quant q vs b ih => simp [substituteVar, ih]

/-- A replaced name can be given the value of what replaces it. -/
theorem exists_env_substituteVar (mid b : String) (t : SmtSort) (ρ : T.Env) :
    ∃ ρ' : T.Env, (Expr.var mid t).eval ρ' = (Expr.var b t).eval ρ' ∧
      ∀ e, (substituteVar mid (.var b t) e).eval ρ' = (substituteVar mid (.var b t) e).eval ρ := by
  by_cases hmid : mid = b
  · exact ⟨ρ, by rw [hmid], fun _ => rfl⟩
  · have hfree : mid ∉ (Expr.var b t).freeVars := by simpa using hmid
    refine ⟨ρ.set mid ((Expr.var b t).eval ρ), ?_, fun e => ?_⟩
    · rw [eval_set hfree]
      exact eval_var_set (eval_sort _ _)
    · exact eval_set (notMem_freeVars_substituteVar hfree e)

/-! ### One step -/

/-- The equation that defines an alias. -/
theorem asMidIdentity_spec {c root : Expr} {mid : String}
    (h : asMidIdentity c = some (mid, root)) (hws : c.WellSorted) :
    ∃ b t, root = .var b t ∧
      (c = (Expr.var mid t).eq (.var b t) ∨ c = (Expr.var b t).eq (.var mid t)) := by
  match c, h with
  | .app .eq [.var a s, .var b t], h =>
    obtain rfl : s = t := by simpa [Op.accepts] using (wellSorted_app.1 hws).1
    simp only [asMidIdentity] at h
    split_ifs at h
    · obtain ⟨rfl, rfl⟩ := Prod.mk.inj (Option.some.inj h)
      exact ⟨b, s, rfl, Or.inl rfl⟩
    · obtain ⟨rfl, rfl⟩ := Prod.mk.inj (Option.some.inj h)
      exact ⟨a, s, rfl, Or.inr rfl⟩

/-- A dropped tautology holds. -/
theorem holds_of_isTautologicalEq {c : Expr} (h : isTautologicalEq c = true) (ρ : T.Env) :
    Holds ρ c := by
  match c, h with
  | .app .eq [lhs, rhs], h =>
    obtain rfl : lhs = rhs := by simpa [isTautologicalEq] using h
    exact holds_eq.2 rfl

/-- The constraints that a step leaves hold when all of the substituted ones do. -/
theorem holds_filter_isTautologicalEq {cs : List Expr} {ρ : T.Env} :
    (∀ c ∈ cs.filter (!isTautologicalEq ·), Holds ρ c) ↔ ∀ c ∈ cs, Holds ρ c := by
  constructor
  · intro h c hc
    by_cases htaut : isTautologicalEq c = true
    · exact holds_of_isTautologicalEq htaut ρ
    · exact h c (List.mem_filter.2 ⟨hc, by simpa using htaut⟩)
  · exact fun h c hc => h c (List.mem_filter.1 hc).1

/-- An instance of the substituted rule is one of the rule when the substituted terms have
the values of the terms. -/
theorem reads_collapseStep {mid : String} {root : Expr} {rule : Rule} {ρ ρ' : T.Env}
    (h : ∀ e ∈ rule.terms, (substituteVar mid root e).eval ρ' = e.eval ρ) :
    (collapseStep mid root rule).body.relation.map (·.fact ρ') =
        rule.body.relation.map (·.fact ρ) ∧
      ((∀ c ∈ (collapseStep mid root rule).body.constraints, Holds ρ' c) ↔
        ∀ c ∈ rule.body.constraints, Holds ρ c) ∧
      (collapseStep mid root rule).head.fact ρ' = rule.head.fact ρ := by
  have happ : ∀ a : RelationApp, (∀ e ∈ a.args, e ∈ rule.terms) →
      (substituteInApp mid root a).fact ρ' = a.fact ρ := by
    intro a ha
    rw [RelationApp.fact, RelationApp.fact, substituteInApp, List.map_map]
    exact congrArg (a.name, ·) (List.map_congr_left fun e he => h e (ha e he))
  refine ⟨?_, ?_, happ _ fun e he => Rule.mem_terms.2 (Or.inr (Or.inr he))⟩
  · rw [collapseStep, Option.map_map]
    refine Option.map_congr fun a ha => happ a fun e he => ?_
    exact Rule.mem_terms.2 (Or.inl ⟨a, ha, he⟩)
  · rw [collapseStep, holds_filter_isTautologicalEq, List.forall_mem_map]
    refine forall₂_congr fun c hc => ?_
    rw [Holds, Holds, h c (Rule.mem_terms.2 (Or.inr (Or.inl hc)))]

section Step

variable {mid : String} {root : Expr} {rule : Rule}

/-- What a step does to the terms of a rule. -/
theorem rewrites_collapseStep (hws : rule.WellSorted) (htyped : ∀ e ∈ rule.terms, Typed Γ e)
    (h : rule.body.constraints.findSome? asMidIdentity = some (mid, root))
    (hcap : ∀ e ∈ rule.terms, NoCapture mid root e) :
    ∃ b t, root = .var b t ∧ (b, t) ∈ rule.freeOccs ∧
      (∀ ρ : T.Env, (∀ c ∈ rule.body.constraints, Holds ρ c) →
        (Expr.var mid t).eval ρ = root.eval ρ) ∧
      ∀ e ∈ rule.terms, Rewrites (fun ρ : T.Env => (Expr.var mid t).eval ρ = root.eval ρ) [root] e
        (substituteVar mid root e) := by
  obtain ⟨c, hc, hdef⟩ := List.exists_of_findSome?_eq_some h
  have hmem : c ∈ rule.terms := Rule.mem_terms.2 (Or.inr (Or.inl hc))
  obtain ⟨b, t, rfl, hc'⟩ := asMidIdentity_spec hdef (hws.terms c hmem)
  have hsides : (mid, t) ∈ c.freeOccs ∧ (b, t) ∈ c.freeOccs := by
    rcases hc' with rfl | rfl <;> simp
  refine ⟨b, t, rfl, List.mem_flatMap.2 ⟨c, hmem, hsides.2⟩, fun ρ hρ => ?_, fun e he => ?_⟩
  · rcases hc' with rfl | rfl
    · exact holds_eq.1 (hρ _ hc)
    · exact (holds_eq.1 (hρ _ hc)).symm
  · refine rewrites_substituteVar (by simp) rfl (hws.terms e he) (fun s hs => ?_) (hcap e he)
    exact (htyped e he mid s hs).trans (htyped c hmem mid t hsides.1).symm

/-- **A step keeps the instances of a rule.** -/
theorem fires_collapseStep (hws : rule.WellSorted) (htyped : ∀ e ∈ rule.terms, Typed Γ e)
    (h : rule.body.constraints.findSome? asMidIdentity = some (mid, root))
    (hcap : ∀ e ∈ rule.terms, NoCapture mid root e) {p : Option (Fact T)} {f : Fact T} :
    (collapseStep mid root rule).Fires p f ↔ rule.Fires p f := by
  obtain ⟨b, t, rfl, -, heq, hrw⟩ := rewrites_collapseStep (T := T) hws htyped h hcap
  constructor
  · rintro ⟨ρ, hp, hc, hf⟩
    obtain ⟨ρ', hroot, hkeep⟩ := exists_env_substituteVar mid b t ρ
    obtain ⟨hprem, hholds, hhead⟩ := reads_collapseStep fun e he =>
      (hkeep e).symm.trans ((hrw e he).eval ρ' hroot)
    exact ⟨ρ', hprem.symm.trans hp, hholds.1 hc, hhead.symm.trans hf⟩
  · rintro ⟨ρ, hp, hc, hf⟩
    obtain ⟨hprem, hholds, hhead⟩ := reads_collapseStep fun e he => (hrw e he).eval ρ (heq ρ hc)
    exact ⟨ρ, hprem.trans hp, hholds.2 hc, hhead.trans hf⟩

/-- The terms of a collapsed rule are substituted terms. -/
theorem mem_terms_collapseStep {e : Expr} (h : e ∈ (collapseStep mid root rule).terms) :
    ∃ e' ∈ rule.terms, substituteVar mid root e' = e := by
  rcases Rule.mem_terms.1 h with ⟨a, ha, he⟩ | he | he
  · obtain ⟨a', ha', rfl⟩ := Option.map_eq_some_iff.1 ha
    obtain ⟨e', he', rfl⟩ := List.mem_map.1 he
    exact ⟨e', Rule.mem_terms.2 (Or.inl ⟨a', ha', he'⟩), rfl⟩
  · obtain ⟨e', he', rfl⟩ := List.mem_map.1 (List.mem_filter.1 he).1
    exact ⟨e', Rule.mem_terms.2 (Or.inr (Or.inl he')), rfl⟩
  · obtain ⟨e', he', rfl⟩ := List.mem_map.1 he
    exact ⟨e', Rule.mem_terms.2 (Or.inr (Or.inr he')), rfl⟩

/-- A step keeps a rule well sorted, with its names at their sorts. -/
theorem wellSorted_collapseStep (hws : rule.WellSorted) (htyped : ∀ e ∈ rule.terms, Typed Γ e)
    (h : rule.body.constraints.findSome? asMidIdentity = some (mid, root))
    (hcap : ∀ e ∈ rule.terms, NoCapture mid root e) :
    (collapseStep mid root rule).WellSorted ∧
      ∀ e ∈ (collapseStep mid root rule).terms, Typed Γ e := by
  obtain ⟨b, t, rfl, hb, -, hrw⟩ := rewrites_collapseStep (T := default) hws htyped h hcap
  refine ⟨⟨fun e he => ?_, fun c hc => ?_⟩, fun e he n s hn => ?_⟩
  · obtain ⟨e', he', rfl⟩ := mem_terms_collapseStep he
    exact (hrw e' he').wellSorted
  · obtain ⟨c', hc', rfl⟩ := List.mem_map.1 (List.mem_filter.1 hc).1
    have hmem : c' ∈ rule.terms := Rule.mem_terms.2 (Or.inr (Or.inl hc'))
    exact (hrw c' hmem).sort.trans (hws.constraints c' hc')
  · obtain ⟨e', he', rfl⟩ := mem_terms_collapseStep he
    rcases (hrw e' he').occs (n, s) hn with hn | ⟨t', ht', hn⟩
    · exact htyped e' he' n s hn
    · obtain rfl := List.mem_singleton.1 ht'
      obtain ⟨rfl, rfl⟩ := Prod.mk.inj (List.mem_singleton.1 (by simpa using hn))
      obtain ⟨e'', he'', hb⟩ := List.mem_flatMap.1 hb
      exact htyped e'' he'' _ _ hb

end Step

/-! ### The loop -/

/-- No step of the loop captures. -/
def LoopsOpenly : ℕ → Rule → Prop
  | 0, _ => True
  | n + 1, rule =>
    match rule.body.constraints.findSome? asMidIdentity with
    | none => True
    | some (mid, root) =>
      (∀ e ∈ rule.terms, NoCapture mid root e) ∧ LoopsOpenly n (collapseStep mid root rule)

/-- No step that the pass makes on the rule captures. -/
def CollapsesOpenly (rule : Rule) : Prop :=
  ruleHasNonIdentityMidDefinition rule.body.constraints = false →
    LoopsOpenly rule.body.constraints.length rule

theorem fires_collapseLoop {n : ℕ} {rule : Rule} (hws : rule.WellSorted)
    (htyped : ∀ e ∈ rule.terms, Typed Γ e) (hopen : LoopsOpenly n rule) {p : Option (Fact T)}
    {f : Fact T} : (collapseLoop n rule).Fires p f ↔ rule.Fires p f := by
  induction n generalizing rule with
  | zero => rfl
  | succ n ih =>
    rw [collapseLoop]
    rw [LoopsOpenly] at hopen
    cases h : rule.body.constraints.findSome? asMidIdentity with
    | none => rfl
    | some found =>
      obtain ⟨mid, root⟩ := found
      rw [h] at hopen
      obtain ⟨hcap, hopen⟩ := hopen
      obtain ⟨hws', htyped'⟩ := wellSorted_collapseStep hws htyped h hcap
      exact (ih hws' htyped' hopen).trans (fires_collapseStep hws htyped h hcap)

/-- The rules fire on the same premises with the same heads. -/
def SameInstances (r r' : Rule) : Prop :=
  ∀ (T : Theory) (p : Option (Fact T)) (f : Fact T), r'.Fires p f ↔ r.Fires p f

/-- **The collapse of aliases**: in a rule whose aliases only equations define, no such equation
is left, and where no step captures, every rule has the instances it had. -/
theorem collapseMidAliases_exact (vc : ChcVc) :
    (∀ r ∈ vc.rules, ruleHasNonIdentityMidDefinition r.body.constraints = false →
      (collapseRule r).body.constraints.findSome? asMidIdentity = none) ∧
      ((∀ r ∈ vc.rules, r.WellSorted ∧ (∃ Γ, ∀ e ∈ r.terms, Typed Γ e) ∧ CollapsesOpenly r) →
        List.Forall₂ SameInstances vc.rules (collapseMidAliases vc).rules ∧
          ∀ T, (collapseMidAliases vc).Unsafe T ↔ vc.Unsafe T) := by
  refine ⟨fun r hr hdef => ?_, fun h => ?_⟩
  · rw [collapseRule, hdef]
    exact collapseLoop_complete le_rfl
  · have hsame : ∀ r ∈ vc.rules, SameInstances r (collapseRule r) := by
      intro r hr T p f
      obtain ⟨hws, ⟨Γ, htyped⟩, hopen⟩ := h r hr
      rw [collapseRule]
      split_ifs with hdef
      · rfl
      · exact fires_collapseLoop hws htyped (hopen (by simpa using hdef))
    refine ⟨List.forall₂_map_right_iff.2 (List.forall₂_same.2 hsame), fun T => ?_⟩
    have hsystem : system T (collapseMidAliases vc).rules = system T vc.rules := by
      refine congrArg Horn.System.mk (funext₂ fun p f => propext ?_)
      simp only [collapseMidAliases, List.mem_map, exists_exists_and_eq_and]
      exact exists_congr fun r => and_congr_right fun hr => hsame r hr T p f
    simp only [ChcVc.Unsafe, Derives, hsystem]
    rfl

/-! ### A collapse and a capture -/

/-- An array sort. -/
private abbrev flags : SmtSort := .array .bool .bool

private theorem isMidName_bb1 : isMidName "m__mid_bb1" = true := by
  rw [isMidName, nameContains, decide_eq_true_iff]
  exact ⟨['m'], ['1'], by simp⟩

private theorem asMidIdentity_bb1 :
    asMidIdentity ((Expr.var "m__mid_bb1" flags).eq (.var "m" flags)) =
      some ("m__mid_bb1", .var "m" flags) := by
  have harray : flags.isArray = true := rfl
  simp only [asMidIdentity, harray, isMidName_bb1, Bool.true_or, Bool.and_self, if_true]

/-- A frame that is handed on: `m__mid_bb1 = m` and `R(m__mid_bb1)`. -/
def handedFrame : Rule :=
  ⟨⟨none, [(Expr.var "m__mid_bb1" flags).eq (.var "m" flags)]⟩,
    ⟨"R", [.var "m__mid_bb1" flags]⟩⟩

/-- The alias is gone, and the rule derives what it derived. -/
theorem collapseMidAliases_exact_handedFrame :
    (collapseMidAliases ⟨[], [], [handedFrame], none, false⟩).rules =
        [⟨⟨none, []⟩, ⟨"R", [.var "m" flags]⟩⟩] ∧
      List.Forall₂ SameInstances [handedFrame]
        (collapseMidAliases ⟨[], [], [handedFrame], none, false⟩).rules := by
  have hterms : handedFrame.terms =
      [(Expr.var "m__mid_bb1" flags).eq (.var "m" flags), .var "m__mid_bb1" flags] := rfl
  have hfind : handedFrame.body.constraints.findSome? asMidIdentity =
      some ("m__mid_bb1", .var "m" flags) := by
    rw [handedFrame, List.findSome?_cons, asMidIdentity_bb1]
  have hdef : ruleHasNonIdentityMidDefinition handedFrame.body.constraints = false := by
    simp only [handedFrame, ruleHasNonIdentityMidDefinition, asVarName, Option.isNone_some,
      Bool.and_false, Bool.or_self, List.any_cons, List.any_nil]
  have hstep : collapseStep "m__mid_bb1" (.var "m" flags) handedFrame =
      ⟨⟨none, []⟩, ⟨"R", [.var "m" flags]⟩⟩ := by
    simp [collapseStep, handedFrame, substituteInApp, substituteVar, isTautologicalEq]
  refine ⟨?_, ((collapseMidAliases_exact ⟨[], [], [handedFrame], none, false⟩).2 ?_).1⟩
  · simp only [collapseMidAliases, List.map_cons, List.map_nil, collapseRule, hdef]
    rw [if_neg Bool.false_ne_true, show handedFrame.body.constraints.length = 1 from rfl,
      collapseLoop, hfind]
    exact congrArg (fun r => [r]) hstep
  · refine List.forall_mem_singleton.2 ⟨⟨?_, ?_⟩, ⟨fun _ => flags, ?_⟩, fun _ => ?_⟩
    · simp [hterms, Op.accepts]
    · simp [handedFrame, Op.resultSort]
    · simp [hterms, Typed, or_imp, forall_and]
    · rw [show handedFrame.body.constraints.length = 1 from rfl, LoopsOpenly, hfind]
      exact ⟨by simp [hterms, NoCapture], trivial⟩

/-- `m__mid_bb1 = m` and, with the name bound again, `∀ m__mid_bb1. m__mid_bb1 = m`. -/
def capturedAlias : Rule :=
  ⟨⟨none, [(Expr.var "m__mid_bb1" flags).eq (.var "m" flags),
    .quant .all [("m__mid_bb1", flags)] ((Expr.var "m__mid_bb1" flags).eq (.var "m" flags))]⟩,
    ⟨"error", []⟩⟩

/-- **A capture**: not every array is `m`, so the rule never fires, and the collapsed one does. -/
theorem capturedAlias_fires :
    capturedAlias.WellSorted ∧ (∀ e ∈ capturedAlias.terms, Typed (fun _ => flags) e) ∧
      (∀ T p f, ¬capturedAlias.Fires (T := T) p f) ∧
      (collapseRule capturedAlias).Fires (T := default) none ("error", []) := by
  have hterms : capturedAlias.terms = [(Expr.var "m__mid_bb1" flags).eq (.var "m" flags),
    .quant .all [("m__mid_bb1", flags)] ((Expr.var "m__mid_bb1" flags).eq (.var "m" flags))] := rfl
  have hfind : capturedAlias.body.constraints.findSome? asMidIdentity =
      some ("m__mid_bb1", .var "m" flags) := by
    rw [capturedAlias, List.findSome?_cons, asMidIdentity_bb1]
  have hdef : ruleHasNonIdentityMidDefinition capturedAlias.body.constraints = false := by
    simp only [capturedAlias, ruleHasNonIdentityMidDefinition, asVarName, Option.isNone_some,
      Bool.and_false, Bool.or_self, List.any_cons, List.any_nil]
  have hstep : collapseStep "m__mid_bb1" (.var "m" flags) capturedAlias =
      ⟨⟨none, [.quant .all [("m__mid_bb1", flags)] ((Expr.var "m" flags).eq (.var "m" flags))]⟩,
        ⟨"error", []⟩⟩ := by
    simp [collapseStep, capturedAlias, substituteInApp, substituteVar, isTautologicalEq]
  refine ⟨⟨?_, ?_⟩, ?_, ?_, ?_⟩
  · simp [hterms, Op.accepts, Op.resultSort]
  · simp [capturedAlias, Op.resultSort]
  · simp [hterms, Typed, or_imp, forall_and]
  · rintro T p f ⟨ρ, -, hc, -⟩
    -- the bound name ranges over the array that differs from `m` everywhere
    have hall := hc _ (List.mem_cons_of_mem _ (List.mem_singleton_self _))
    let other : T.Val := ⟨flags, fun b : Bool => !(ρ "m" flags : Bool → Bool) b⟩
    have heq := holds_all.1 hall (ρ.set "m__mid_bb1" other) fun n hn =>
      Theory.Env.set_of_ne (by simpa using hn)
    rw [holds_eq, eval_var_set (s := flags) rfl, eval_set (by simp), eval_var] at heq
    have hfun := congrFun (eq_of_heq (Sigma.mk.inj heq).2) true
    exact Bool.not_ne_self _ hfun
  · rw [collapseRule, hdef, if_neg Bool.false_ne_true,
      show capturedAlias.body.constraints.length = 2 from rfl, collapseLoop, hfind]
    simp only [hstep, collapseLoop, List.findSome?_cons, asMidIdentity, List.findSome?_nil]
    refine ⟨default, rfl, List.forall_mem_singleton.2 (holds_all.2 fun ρ' _ => ?_), rfl⟩
    exact holds_eq.2 rfl

end Scalarize

end TrustMc
