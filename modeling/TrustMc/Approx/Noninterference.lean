import TrustMc.Approx.Identity
import TrustMc.Smt.Define

/-!
# Certification despite approximation

A property that is recorded as independent of the approximation keeps its verdict when the
freed variables are defined, provided that the rules hand freed values on the way the analysis
assumes (`FlowTracked`): a tainted value that enters a relation is read under a tainted name,
and the definitions of tainted variables can be met one after the other. The proof relates two
runs: the facts they derive agree outside the columns that can hold a tainted value
(`Related`).

Two definitions of one variable are no definition but a test, which the analysis does not see
(`certified_loses_double_definition`).
-/

namespace TrustMc

namespace Approx

open Carriers Carriers.Val TrustMc.Expr Horn.System

variable {T : Theory}

/-! ### Replacing a havoc by definitions -/

/-- `r'` is `r` with definitions of freed variables added. -/
def DefinesFreed (freed : List String) (r r' : Rule) : Prop :=
  ∃ ds : List Definition,
    (∀ d ∈ ds, endsWithOut d.name = true ∧ normalizeApproxVar d.name ∈ freed ∧
      d.rhs.sort = d.sort) ∧
    r' = { r with body := { r.body with
      constraints := r.body.constraints ++ ds.map Definition.toExpr } }

/-! ### Where the analysis sees every flow -/

section Flow

variable (rules : List Rule) (target : String) (tainted : List String)

/-- Some head of a contributing rule hands a tainted value on in the column. -/
def TaintedColumn (rel : String) (i : ℕ) : Prop :=
  ∃ r ∈ rules, r.head.name ∈ contributing rules target ∧ r.head.name = rel ∧
    ∃ arg, r.head.args[i]? = some arg ∧ exprReadsTainted arg tainted = true

/-- The rule takes tainted values in under tainted names and defines tainted variables. -/
structure FlowTracked (r : Rule) : Prop where
  /-- A tainted column is read by a variable with a tainted name and by nothing else. -/
  columns : ∀ a, r.body.relation = some a → ∀ i arg, a.args[i]? = some arg →
    TaintedColumn rules target tainted a.name i → ∃ n s, arg = .var n s ∧
      normalizeApproxVar n ∈ tainted ∧
        ∀ j arg', j ≠ i → a.args[j]? = some arg' → n ∉ arg'.freeVars
  /-- The definitions of tainted variables can be met one after the other, from the body's
  arguments. -/
  definitions : ∃ ds : List Definition, Definition.Sequential ds ∧
    (∀ d ∈ ds, normalizeApproxVar d.name ∈ tainted) ∧
    (∀ d : Definition, d.toExpr ∈ r.body.constraints → endsWithOut d.name = true →
      normalizeApproxVar d.name ∈ tainted → d ∈ ds) ∧
    ∀ a, r.body.relation = some a → ∀ arg ∈ a.args, ∀ d ∈ ds, d.name ∉ arg.freeVars

/-- The facts agree outside the tainted columns. -/
structure Related (f f' : Fact T) : Prop where
  /-- They are facts of one relation. -/
  name : f'.1 = f.1
  /-- They have the same number of arguments. -/
  length : f'.2.length = f.2.length
  /-- Their arguments have the same sorts. -/
  sort : ∀ (i : ℕ) (v v' : T.Val), f.2[i]? = some v → f'.2[i]? = some v' → v'.1 = v.1
  /-- Only tainted arguments differ. -/
  value : ∀ (i : ℕ) (v v' : T.Val), f.2[i]? = some v → f'.2[i]? = some v' →
    ¬ TaintedColumn rules target tainted f.1 i → v' = v

end Flow

/-! ### Reading a related fact -/

section Read

variable {rules : List Rule} {target : String} {tainted : List String}

theorem not_tainted_of_not_reads {e : Expr} (h : exprReadsTainted e tainted = false) {n : String}
    (hn : n ∈ e.freeVars) : normalizeApproxVar n ∉ tainted := by
  intro hmem
  have hread : exprReadsTainted e tainted = true :=
    List.any_eq_true.2 ⟨n, freeVars_subset_varNames e hn, by simpa using hmem⟩
  simp [hread] at h

open Classical in
/-- The assignment that reads the tainted columns of an application from other values. -/
noncomputable def readColumns (a : RelationApp) (col : ℕ → Prop) (vs : List T.Val)
    (ρ : T.Env) : T.Env := fun n =>
  if h : ∃ v i s, a.args[i]? = some (.var n s) ∧ col i ∧ vs[i]? = some v then
    fun s => h.choose.as s
  else ρ n

/-- Only the variables at tainted columns are read anew. -/
theorem readColumns_of_forall {a : RelationApp} {col : ℕ → Prop} {vs : List T.Val} {ρ : T.Env}
    {n : String} (h : ∀ i s, a.args[i]? = some (.var n s) → ¬ col i) :
    readColumns a col vs ρ n = ρ n := by
  refine dif_neg ?_
  rintro ⟨v, i, s, harg, hcol, -⟩
  exact h i s harg hcol

/-- A variable at one tainted column is read from it. -/
theorem readColumns_of_column {a : RelationApp} {col : ℕ → Prop} {vs : List T.Val} {ρ : T.Env}
    {n : String} {s : SmtSort} {i : ℕ} (harg : a.args[i]? = some (.var n s)) (hcol : col i)
    (hunique : ∀ j arg', j ≠ i → a.args[j]? = some arg' → n ∉ arg'.freeVars) {v : T.Val}
    (hv : vs[i]? = some v) : readColumns a col vs ρ n = fun s => v.as s := by
  have hex : ∃ v i s, a.args[i]? = some (.var n s) ∧ col i ∧ vs[i]? = some v :=
    ⟨v, i, s, harg, hcol, hv⟩
  have hchoose : hex.choose = v := by
    obtain ⟨j, s', harg', -, hv'⟩ := hex.choose_spec
    have hj : j = i := by
      by_contra hne
      exact hunique j _ hne harg' (by simp)
    rw [hj, hv] at hv'
    exact (Option.some.inj hv').symm
  unfold readColumns
  rw [dif_pos hex, hchoose]

/-- The premise of a rule read from a related fact: some assignment reads the body's arguments
from it and keeps every untainted variable. -/
theorem exists_env_of_related {r : Rule} (hflow : FlowTracked rules target tainted r)
    {a : RelationApp} (hrel : r.body.relation = some a) {ρ : T.Env} {g : Fact T}
    (hg : Related rules target tainted (a.fact ρ) g) :
    ∃ ρ' : T.Env, a.fact ρ' = g ∧ ∀ n, normalizeApproxVar n ∉ tainted → ρ' n = ρ n := by
  have hcolumns := hflow.columns a hrel
  refine ⟨readColumns a (TaintedColumn rules target tainted a.name) g.2 ρ, ?_, fun n hn => ?_⟩
  · refine Prod.ext hg.name.symm (List.ext_getElem? fun i => ?_)
    rw [RelationApp.fact, List.getElem?_map]
    cases harg : a.args[i]? with
    | none =>
      have hlen : g.2.length ≤ i := by
        rw [hg.length]
        simpa [RelationApp.fact] using harg
      rw [List.getElem?_eq_none hlen]
      rfl
    | some arg =>
      have hold : (a.fact ρ).2[i]? = some (arg.eval ρ) := by
        rw [RelationApp.fact, List.getElem?_map, harg]
        rfl
      have hlt : i < g.2.length := by
        rw [hg.length]
        exact (List.getElem?_eq_some_iff.1 hold).1
      have hnew : g.2[i]? = some g.2[i] := List.getElem?_eq_getElem hlt
      rw [hnew, Option.map_some]
      congr 1
      by_cases hcol : TaintedColumn rules target tainted a.name i
      · obtain ⟨n, s, rfl, -, hunique⟩ := hcolumns i arg harg hcol
        rw [eval_var, readColumns_of_column harg hcol hunique hnew]
        refine mk_as ((hg.sort i _ _ hold hnew).trans ?_)
        rw [eval_sort, sort_var]
      · rw [hg.value i _ _ hold hnew hcol]
        refine eval_congr fun n hn => readColumns_of_forall fun j s harg' hcol' => ?_
        obtain ⟨n', s', heq, -, hunique⟩ := hcolumns j _ harg' hcol'
        obtain ⟨rfl, -⟩ := Expr.var.inj heq
        refine hunique i arg (fun hij => hcol ?_) harg hn
        rwa [hij]
  · refine readColumns_of_forall fun i s harg hcol => ?_
    obtain ⟨n', s', heq, htainted, -⟩ := hcolumns i _ harg hcol
    obtain ⟨rfl, -⟩ := Expr.var.inj heq
    exact hn htainted

end Read

/-! ### Relating two runs -/

section Step

variable {rules : List Rule} {target : String} {tainted freed : List String} {r r' : Rule}

/-- What the analysis has established about a contributing rule. -/
structure Cleared (tainted : List String) (r : Rule) : Prop where
  /-- The constraints that are no definitions read nothing tainted. -/
  guards : ∀ c ∈ r.body.constraints, isDefinitionConstraint c = false →
    exprReadsTainted c tainted = false
  /-- What is defined from something tainted is tainted. -/
  definitions : ∀ c ∈ r.body.constraints, ∀ lhs rhsVars,
    definitionLhsAndRhsVars c = some (lhs, rhsVars) → ∀ v ∈ rhsVars, v ∈ tainted → lhs ∈ tainted

/-- A constraint that defines no tainted variable reads nothing tainted. -/
theorem Cleared.not_tainted (h : Cleared tainted r) {c : Expr} (hc : c ∈ r.body.constraints)
    (hdef : ∀ d : Definition, c = d.toExpr → endsWithOut d.name = true →
      normalizeApproxVar d.name ∉ tainted) {n : String} (hn : n ∈ c.freeVars) :
    normalizeApproxVar n ∉ tainted := by
  cases hisdef : isDefinitionConstraint c with
  | false => exact not_tainted_of_not_reads (h.guards c hc hisdef) hn
  | true =>
    unfold isDefinitionConstraint at hisdef
    split at hisdef
    · rename_i name sort rhs
      have hlhs := hdef ⟨name, sort, rhs⟩ rfl hisdef
      have hpair : definitionLhsAndRhsVars ((Expr.var name sort).eq rhs) =
          some (normalizeApproxVar name, collectVarNames rhs) := by
        simp [definitionLhsAndRhsVars, hisdef]
      intro hmem
      simp only [freeVars_app, List.flatMap_cons, freeVars_var, List.flatMap_nil,
        List.append_nil, List.singleton_append, List.mem_cons] at hn
      rcases hn with rfl | hn
      · exact hlhs hmem
      · refine hlhs (h.definitions _ hc _ _ hpair _ ?_ hmem)
        exact List.mem_map_of_mem (freeVars_subset_varNames rhs hn)
    · simp at hisdef

/-- **One step of the two runs**: an instance of a contributing rule is answered by an
instance of the rule with definitions, from every related premise. -/
theorem exists_related_instance (hr : r ∈ rules)
    (hhead : r.head.name ∈ contributing rules target) (hcleared : Cleared tainted r)
    (hfreed : freed ⊆ tainted) (hdef : DefinesFreed freed r r')
    (hflow : FlowTracked rules target tainted r') {ρ : T.Env}
    (hρ : ∀ c ∈ r.body.constraints, Holds ρ c) {p : Option (Fact T)}
    (hp : Option.Rel (Related rules target tainted) (r.body.relation.map (·.fact ρ)) p) :
    ∃ f', r'.Fires p f' ∧ Related rules target tainted (r.head.fact ρ) f' := by
  obtain ⟨new, hnew, rfl⟩ := hdef
  obtain ⟨ρ₁, hbody, hagree⟩ : ∃ ρ₁ : T.Env, r.body.relation.map (·.fact ρ₁) = p ∧
      ∀ n, normalizeApproxVar n ∉ tainted → ρ₁ n = ρ n := by
    cases hrel : r.body.relation with
    | none =>
      rw [hrel] at hp
      cases hp
      exact ⟨ρ, rfl, fun _ _ => rfl⟩
    | some a =>
      rw [hrel] at hp
      cases hp with
      | some hg =>
        obtain ⟨ρ₁, hfact, hagree⟩ := exists_env_of_related hflow hrel hg
        exact ⟨ρ₁, by rw [Option.map_some, hfact], hagree⟩
  -- the tainted names are solved anew, in the order of their definitions
  obtain ⟨ds, hseq, htainted, hcover, hargs⟩ := hflow.definitions
  have hsame : ∀ n, normalizeApproxVar n ∉ tainted → Definition.solve ρ₁ ds n = ρ n := by
    intro n hn
    have hne : ∀ d ∈ ds, d.name ≠ n := by
      rintro d hd rfl
      exact hn (htainted d hd)
    rw [Definition.solve_of_notMem hne, hagree n hn]
  refine ⟨_, ⟨Definition.solve ρ₁ ds, ?_, ?_, rfl⟩, ?_⟩
  · rw [← hbody]
    refine Option.map_congr fun a ha => Prod.ext rfl (List.map_congr_left fun arg harg => ?_)
    exact Definition.eval_solve fun d hd => hargs a ha arg harg d hd
  · intro c hc
    by_cases hd : ∃ d : Definition, c = d.toExpr ∧ endsWithOut d.name = true ∧
        normalizeApproxVar d.name ∈ tainted
    · obtain ⟨d, rfl, hout, hmem⟩ := hd
      exact Definition.holds_solve hseq d (hcover d hc hout hmem)
    · have hold : c ∈ r.body.constraints := by
        refine (List.mem_append.1 hc).resolve_right fun hc => ?_
        obtain ⟨d, hdmem, rfl⟩ := List.mem_map.1 hc
        obtain ⟨hout, hmem, -⟩ := hnew d hdmem
        exact hd ⟨d, rfl, hout, hfreed hmem⟩
      refine (holds_congr fun n hn => hsame n ?_).2 (hρ c hold)
      exact hcleared.not_tainted hold (fun d heq hout hmem => hd ⟨d, heq, hout, hmem⟩) hn
  · refine ⟨rfl, by simp [RelationApp.fact], ?_, ?_⟩
    · intro i v v' hv hv'
      simp only [RelationApp.fact, List.getElem?_map, Option.map_eq_some_iff] at hv hv'
      obtain ⟨arg, harg, rfl⟩ := hv
      obtain ⟨arg', harg', rfl⟩ := hv'
      obtain rfl : arg = arg' := Option.some.inj (harg.symm.trans harg')
      rw [eval_sort, eval_sort]
    · intro i v v' hv hv' hcol
      simp only [RelationApp.fact, List.getElem?_map, Option.map_eq_some_iff] at hv hv'
      obtain ⟨arg, harg, rfl⟩ := hv
      obtain ⟨arg', harg', rfl⟩ := hv'
      obtain rfl : arg = arg' := Option.some.inj (harg.symm.trans harg')
      have hreads : exprReadsTainted arg tainted = false := by
        rw [Bool.eq_false_iff]
        exact fun hreads => hcol ⟨r, hr, hhead, rfl, arg, harg, hreads⟩
      exact eval_congr fun n hn => hsame n (not_tainted_of_not_reads hreads hn)

end Step

/-! ### Certified properties -/

section Certified

variable {vc : ApproximatedVc} {total : ℕ} {prop : ChcProperty} {rules' : List Rule}

/-- What a property recorded as independent says of the contributing rules. -/
theorem cleared_of_not_dependent
    (hprop : prop ∈ (finalizeApproximationIdentity vc total).properties)
    (hfalse : prop.approximationDependent = some false) {r : Rule} (hr : r ∈ vc.rules)
    (hhead : r.head.name ∈ contributing vc.rules prop.relation) :
    Cleared (taintClosure vc.rules vc.approximatedVars) r := by
  have hconstraint : ∀ c ∈ r.body.constraints, c ∈ allConstraints vc.rules :=
    fun c hc => List.mem_flatMap.2 ⟨r, hr, hc⟩
  refine ⟨fun c hc hguard => ?_, fun c hc lhs rhsVars hdef v hv hvt =>
    mem_taintClosure_of_definition (hconstraint c hc) hdef hv hvt⟩
  obtain ⟨prop', -, rfl⟩ := List.mem_map.1 hprop
  have hreads : propertyReadsTainted vc.rules prop'.relation
      (taintClosure vc.rules vc.approximatedVars) = false := by simpa using hfalse
  by_cases hempty : (taintClosure vc.rules vc.approximatedVars).isEmpty
  · rw [List.isEmpty_iff.1 hempty]
    simp [exprReadsTainted]
  · simp only [propertyReadsTainted, hempty, Bool.not_false, Bool.true_and, List.any_eq_false,
      List.mem_filter, decide_eq_true_eq] at hreads
    have hrule := hreads r ⟨hr, hhead⟩
    simpa using fun h => hrule (List.any_eq_true.2 ⟨c, by simp [hc, hguard], h⟩)

private theorem exists_of_forall₂ {R : Rule → Rule → Prop} {l l' : List Rule}
    (h : List.Forall₂ R l l') {r : Rule} (hr : r ∈ l) : ∃ r' ∈ l', R r r' := by
  induction h with
  | nil => simp at hr
  | cons h _ ih =>
    rcases List.mem_cons.1 hr with rfl | hr
    · exact ⟨_, List.mem_cons_self, h⟩
    · obtain ⟨r', hr', h⟩ := ih hr
      exact ⟨r', List.mem_cons_of_mem _ hr', h⟩

/-- The rules with definitions answer every step of a contributing rule. -/
theorem exists_related_step (hprop : prop ∈ (finalizeApproximationIdentity vc total).properties)
    (hfalse : prop.approximationDependent = some false)
    (hdef : List.Forall₂ (DefinesFreed vc.approximatedVars) vc.rules rules')
    (hflow : ∀ r' ∈ rules', r'.head.name ∈ contributing vc.rules prop.relation →
      FlowTracked vc.rules prop.relation (taintClosure vc.rules vc.approximatedVars) r')
    {p p' : Option (Fact T)} {f : Fact T}
    (hf : (system T vc.rules).fires p f) (hmem : f.1 ∈ contributing vc.rules prop.relation)
    (hp : Option.Rel (Related vc.rules prop.relation
      (taintClosure vc.rules vc.approximatedVars)) p p') :
    ∃ f', (system T rules').fires p' f' ∧
      Related vc.rules prop.relation (taintClosure vc.rules vc.approximatedVars) f f' := by
  obtain ⟨r, hr, ρ, rfl, hcon, rfl⟩ := hf
  obtain ⟨r', hr', hdef'⟩ := exists_of_forall₂ hdef hr
  have hflow' := hflow r' hr'
  have hhead : r'.head = r.head := by
    obtain ⟨-, -, rfl⟩ := hdef'
    rfl
  rw [hhead] at hflow'
  obtain ⟨f', hf', hff'⟩ := exists_related_instance hr hmem
    (cleared_of_not_dependent hprop hfalse hr hmem)
    (subset_taintClosure vc.rules vc.approximatedVars) hdef' (hflow' hmem) hcon hp
  exact ⟨f', ⟨r', hr', hf'⟩, hff'⟩

/-- **A property recorded as independent keeps its verdict** under any definitions of the
freed variables, when the contributing rules pass tainted values on the way the analysis
follows them. -/
theorem certified_iff (hprop : prop ∈ (finalizeApproximationIdentity vc total).properties)
    (hfalse : prop.approximationDependent = some false)
    (hdef : List.Forall₂ (DefinesFreed vc.approximatedVars) vc.rules rules')
    (hflow : ∀ r' ∈ rules', r'.head.name ∈ contributing vc.rules prop.relation →
      FlowTracked vc.rules prop.relation (taintClosure vc.rules vc.approximatedVars) r')
    (T : Theory) :
    (∃ vs, Derives T vc.rules (prop.relation, vs)) ↔ ∃ vs, Derives T rules' (prop.relation, vs) := by
  constructor
  · rintro ⟨vs, hder⟩
    -- every fact of a contributing relation is related to one of the rules with definitions
    have hrelated : ∀ f : Fact T, Derives T vc.rules f →
        f.1 ∈ contributing vc.rules prop.relation → ∃ f', Derives T rules' f' ∧
          Related vc.rules prop.relation (taintClosure vc.rules vc.approximatedVars) f f' := by
      intro f hf
      refine Derivable.invariant (P := fun f => f.1 ∈ contributing vc.rules prop.relation →
        ∃ f', Derives T rules' f' ∧ Related vc.rules prop.relation
          (taintClosure vc.rules vc.approximatedVars) f f') ?_ ?_ hf
      · intro f hf hmem
        obtain ⟨f', hf', hff'⟩ := exists_related_step hprop hfalse hdef hflow hf hmem .none
        exact ⟨f', .fact hf', hff'⟩
      · intro g f _ hg hf hmem
        have hgmem : g.1 ∈ contributing vc.rules prop.relation := by
          obtain ⟨r, hr, ρ, hbody, -, rfl⟩ := hf
          obtain ⟨a, ha, rfl⟩ := Option.map_eq_some_iff.1 hbody
          exact mem_contributing_of_rule hr ha hmem
        obtain ⟨g', hg', hgg'⟩ := hg hgmem
        obtain ⟨f', hf', hff'⟩ :=
          exists_related_step hprop hfalse hdef hflow hf hmem (.some hgg')
        exact ⟨f', .step hg' hf', hff'⟩
    obtain ⟨⟨name, vs'⟩, hf', hff'⟩ := hrelated _ hder (target_mem_contributing _ _)
    obtain rfl : name = prop.relation := hff'.name
    exact ⟨vs', hf'⟩
  · -- definitions only take instances away
    rintro ⟨vs, hder⟩
    refine ⟨vs, hder.mono ?_⟩
    rintro p f ⟨r', hr', ρ, hbody, hcon, hhead⟩
    obtain ⟨r, hr, ds, -, rfl⟩ :=
      exists_of_forall₂ (R := fun r' r => DefinesFreed vc.approximatedVars r r') hdef.flip hr'
    exact ⟨r, hr, ρ, hbody, fun c hc => hcon c (List.mem_append_left _ hc), hhead⟩

end Certified

/-! ### Two properties -/

section Examples

/-- An integer variable. -/
private def intVar (name : String) : Expr := .var name .int

/-- One property with freed `x`. -/
def freedVc (relations : List RelationDecl) (rules : List Rule) : ApproximatedVc where
  vars := [("x", .int), ("x__out", .int), ("y", .int), ("y__out", .int)]
  relations := relations ++ [⟨"error_p0", []⟩]
  rules := rules
  target := some "error_p0"
  triviallySafeDischarged := false
  properties := [⟨"error_p0", none⟩]
  approximatedVars := ["x"]
  accountedApproximations := 1
  approximationIdentityComplete := false

/-- `y__out = 3 ∧ extra ⇒ A(x__out, y__out)` and `A(x, y) ∧ y = 3 ⇒ error_p0`. -/
def passRules (extra : List Expr) : List Rule :=
  [⟨⟨none, (intVar "y__out").eq (.intConst 3) :: extra⟩, ⟨"A", [intVar "x__out", intVar "y__out"]⟩⟩,
    ⟨⟨some ⟨"A", [intVar "x", intVar "y"]⟩, [(intVar "y").eq (.intConst 3)]⟩,
      .nullary "error_p0"⟩]

/-- `y__out = x__out ∧ y__out = 5 ∧ extra ⇒ error_p0`. -/
def doubleRules (extra : List Expr) : List Rule :=
  [⟨⟨none, (intVar "y__out").eq (intVar "x__out") :: (intVar "y__out").eq (.intConst 5) :: extra⟩,
    .nullary "error_p0"⟩]

/-- `x__out = 7`. -/
private def defineX (z : ℤ) : Definition := ⟨"x__out", .int, .intConst z⟩

private theorem definesFreed_first {r : Rule} {rules : List Rule} (z : ℤ) :
    List.Forall₂ (DefinesFreed ["x"]) (r :: rules)
      ({ r with body := { r.body with
        constraints := r.body.constraints ++ [(defineX z).toExpr] } } :: rules) := by
  refine .cons ⟨[defineX z], ?_, rfl⟩ (List.forall₂_same.2 fun r _ => ⟨[], by simp, by simp⟩)
  intro d hd
  obtain rfl := List.mem_singleton.1 hd
  have hname : (defineX z).name = "x__out" := rfl
  rw [hname]
  exact ⟨by decide, by decide, by simp [defineX, Op.resultSort]⟩

private theorem sequential_defineX (z : ℤ) : Definition.Sequential [defineX z] := by
  refine ⟨fun d hd => ?_, List.pairwise_singleton _ _⟩
  obtain rfl := List.mem_singleton.1 hd
  exact ⟨by simp [defineX, Op.resultSort], by simp [defineX]⟩

private theorem flowTracked_passRules {r : Rule}
    (hr : r ∈ passRules [(defineX 7).toExpr]) :
    FlowTracked (passRules []) "error_p0" ["x"] r := by
  rcases List.mem_cons.1 hr with rfl | hr
  · refine ⟨by simp, [defineX 7], sequential_defineX 7, ?_, ?_, by simp⟩
    · intro d hd
      obtain rfl := List.mem_singleton.1 hd
      exact List.mem_singleton.2 (by decide)
    · intro d hd _ htainted
      rcases List.mem_cons.1 hd with heq | hd
      · obtain rfl : d = ⟨"y__out", .int, .intConst 3⟩ := Definition.toExpr_inj.1 heq
        exact absurd htainted (by decide)
      · exact List.mem_singleton.2 (Definition.toExpr_inj.1 (List.mem_singleton.1 hd))
  · obtain rfl := List.mem_singleton.1 hr
    refine ⟨?_, [], ⟨by simp, .nil⟩, by simp, ?_, by simp⟩
    · -- only the first column of `A` is tainted
      rintro a ha i arg harg ⟨r, hr, -, hname, arg', harg', hreads⟩
      obtain rfl := Option.some.inj ha
      rcases List.mem_cons.1 hr with rfl | hr
      · rcases i with - | - | i
        · obtain rfl := Option.some.inj harg
          refine ⟨"x", .int, rfl, by decide, fun j arg' hj harg' => ?_⟩
          rcases j with - | - | j
          · exact absurd rfl hj
          · obtain rfl := Option.some.inj harg'
            simp [intVar]
          · simp at harg'
        · obtain rfl := Option.some.inj harg'
          exact absurd hreads (by decide)
        · simp at harg
      · obtain rfl := List.mem_singleton.1 hr
        exact absurd hname (by decide)
    · intro d hd hout
      obtain rfl : d = ⟨"y", .int, .intConst 3⟩ :=
        Definition.toExpr_inj.1 (List.mem_singleton.1 hd)
      exact absurd hout (by decide)

/-- Defining the freed `x` leaves the verdict of a property that reads `y` only. -/
theorem certified_iff_passRules :
    (∃ vs, Derives default (freedVc [⟨"A", [.int, .int]⟩] (passRules [])).rules
        ("error_p0", vs)) ↔
      ∃ vs, Derives default (passRules [(defineX 7).toExpr]) ("error_p0", vs) := by
  have hprop : (⟨"error_p0", some false⟩ : ChcProperty) ∈ (finalizeApproximationIdentity
      (freedVc [⟨"A", [.int, .int]⟩] (passRules [])) 1).properties := by
    decide +kernel
  have htainted : taintClosure (passRules []) ["x"] = ["x"] := by decide +kernel
  refine certified_iff hprop rfl (definesFreed_first 7) (fun r' hr' _ => ?_) default
  have hflow := flowTracked_passRules hr'
  rwa [← htainted] at hflow

/-- **A verdict that depends on the approximation.** `y__out` is copied from the freed `x` and
compared with `5`; both constraints count as definitions, and the property as independent. -/
theorem certified_loses_double_definition :
    (⟨"error_p0", some false⟩ : ChcProperty) ∈
        (finalizeApproximationIdentity (freedVc [] (doubleRules [])) 1).properties ∧
      List.Forall₂ (DefinesFreed ["x"]) (doubleRules []) (doubleRules [(defineX 0).toExpr]) ∧
      (∃ vs, Derives default (doubleRules []) ("error_p0", vs)) ∧
      ¬ ∃ vs, Derives default (doubleRules [(defineX 0).toExpr]) ("error_p0", vs) := by
  refine ⟨by decide +kernel, definesFreed_first 0, ⟨[], .fact ⟨_, List.mem_cons_self,
    Theory.Env.ofVals fun _ => ofInt 5, rfl, ?_, rfl⟩⟩, ?_⟩
  · intro c hc
    have heval : ∀ n, (intVar n).eval (T := default) (Theory.Env.ofVals fun _ => ofInt 5) =
        ofInt 5 := fun _ => eval_var_ofVals rfl
    rcases List.mem_cons.1 hc with rfl | hc
    · rw [holds_eq, heval, heval]
    · obtain rfl := List.mem_singleton.1 hc
      rw [holds_eq, heval]
      simp [Op.interp]
  · rintro ⟨vs, hder⟩
    rcases derivable_iff.1 hder with ⟨r, hr, ρ, -, hcon, -⟩ | ⟨g, -, r, hr, ρ, hbody, -, -⟩
    · obtain rfl := List.mem_singleton.1 hr
      have hcopy := holds_eq.1 (hcon _ List.mem_cons_self)
      have hfive := holds_eq.1 (hcon _ (List.mem_cons_of_mem _ List.mem_cons_self))
      have hzero := holds_eq.1 (hcon _ (List.mem_cons_of_mem _ (List.mem_cons_of_mem _
        List.mem_cons_self)))
      have hx : (intVar "x__out").eval ρ = ofInt 0 := hzero.trans (by simp [defineX, Op.interp])
      have hy : (intVar "y__out").eval ρ = ofInt 5 := hfive.trans (by simp [Op.interp])
      rw [hx, hy] at hcopy
      exact absurd (ofInt_inj.1 hcopy) (by decide)
    · obtain rfl := List.mem_singleton.1 hr
      simp at hbody

end Examples

end Approx

end TrustMc
