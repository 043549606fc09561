import TrustMc.Smt.Eval

/-!
# Sound rewriting of terms

A pass that rewrites terms is sound under a condition `H` on assignments when the term it
returns has the sort of the original and, under every assignment that satisfies `H`, its
value. Passes that substitute may bring in the terms they inline. `Rewrites H inlined e e'`
packages this with the facts later steps rely on: the result is well-sorted, and its free
occurrences and bound names come from the original or from an inlined term.

* `Rewrites.trans` and `Rewrites.app`: a rewrite is a chain of rewrites of parts.
* `Rewrites.binder`: a rewrite under a binder needs a condition that every choice of the
  bound names satisfies. It does when the binders use reserved names only (`Admissible`)
  and the condition does not touch these (`StableOff`): `Rewrites.quant`.
-/

namespace TrustMc

open Carriers Carriers.Val TrustMc.Expr

variable {T : Theory}

/-- A well-sorted term all of whose binders use reserved names. -/
structure Admissible (reserved : Set String) (e : Expr) : Prop where
  /-- Operators take arguments of their sorts. -/
  wellSorted : e.WellSorted
  /-- Bound names are reserved. -/
  bound : ∀ n ∈ e.boundVars, n ∈ reserved

/-- The condition does not depend on the reserved names. -/
def StableOff (reserved : Set String) (H : T.Env → Prop) : Prop :=
  ∀ ρ ρ', (∀ n, n ∉ reserved → ρ' n = ρ n) → H ρ → H ρ'

/-- `e'` may stand for `e` wherever `H` holds; terms of `inlined` may have been put in. -/
structure Rewrites (H : T.Env → Prop) (inlined : List Expr) (e e' : Expr) : Prop where
  /-- The sort is kept. -/
  sort : e'.sort = e.sort
  /-- The result is well sorted. -/
  wellSorted : e'.WellSorted
  /-- Free occurrences come from the original or an inlined term. -/
  occs : ∀ o ∈ e'.freeOccs, o ∈ e.freeOccs ∨ ∃ t ∈ inlined, o ∈ t.freeOccs
  /-- Bound names come from the original or an inlined term. -/
  bound : ∀ n ∈ e'.boundVars, n ∈ e.boundVars ∨ ∃ t ∈ inlined, n ∈ t.boundVars
  /-- The value is kept where the condition holds. -/
  eval : ∀ ρ, H ρ → e'.eval ρ = e.eval ρ

namespace Admissible

variable {reserved : Set String}

theorem app_iff {op : Op} {args : List Expr} :
    Admissible reserved (.app op args) ↔
      op.accepts (args.map Expr.sort) = true ∧ ∀ a ∈ args, Admissible reserved a := by
  constructor
  · rintro ⟨hws, hb⟩
    obtain ⟨hacc, hargs⟩ := wellSorted_app.1 hws
    refine ⟨hacc, fun a ha => ⟨hargs a ha, fun n hn => hb n ?_⟩⟩
    rw [boundVars_app]
    exact List.mem_flatMap.2 ⟨a, ha, hn⟩
  · rintro ⟨hacc, hargs⟩
    refine ⟨wellSorted_app.2 ⟨hacc, fun a ha => (hargs a ha).wellSorted⟩, fun n hn => ?_⟩
    rw [boundVars_app] at hn
    obtain ⟨a, ha, hn⟩ := List.mem_flatMap.1 hn
    exact (hargs a ha).bound n hn

theorem accepts {op : Op} {args : List Expr} (h : Admissible reserved (.app op args)) :
    op.accepts (args.map Expr.sort) = true := (app_iff.1 h).1

theorem arg {op : Op} {args : List Expr} (h : Admissible reserved (.app op args)) {a : Expr}
    (ha : a ∈ args) : Admissible reserved a := (app_iff.1 h).2 a ha

theorem of_tryApp {op : Op} {args : List Expr} (hacc : op.accepts (args.map Expr.sort) = true)
    (h : ∀ a ∈ args, Admissible reserved a) : Admissible reserved (.app op args) :=
  app_iff.2 ⟨hacc, h⟩

theorem boolConst (b : Bool) : Admissible reserved (.boolConst b) := ⟨by simp [Op.accepts], by simp⟩

theorem not {e : Expr} (h : Admissible reserved e) (hs : e.sort = .bool) :
    Admissible reserved e.not :=
  app_iff.2 ⟨by simp [Op.accepts, hs], by simpa using h⟩

theorem body {q : Quantifier} {vs : List (String × SmtSort)} {b : Expr}
    (h : Admissible reserved (.quant q vs b)) : Admissible reserved b :=
  ⟨(wellSorted_quant.1 h.wellSorted).2, fun n hn => h.bound n (by simp [hn])⟩

end Admissible

namespace Rewrites

variable {H : T.Env → Prop} {inlined : List Expr} {reserved : Set String}

theorem refl {e : Expr} (h : e.WellSorted) : Rewrites H inlined e e :=
  ⟨rfl, h, fun _ => Or.inl, fun _ => Or.inl, fun _ _ => rfl⟩

theorem trans {e₁ e₂ e₃ : Expr} (h₁ : Rewrites H inlined e₁ e₂) (h₂ : Rewrites H inlined e₂ e₃) :
    Rewrites H inlined e₁ e₃ where
  sort := h₂.sort.trans h₁.sort
  wellSorted := h₂.wellSorted
  occs o ho := (h₂.occs o ho).elim (h₁.occs o) Or.inr
  bound n hn := (h₂.bound n hn).elim (h₁.bound n) Or.inr
  eval ρ hρ := (h₂.eval ρ hρ).trans (h₁.eval ρ hρ)

/-- A rewrite of an admissible term is admissible when the inlined terms are. -/
theorem admissible {e e' : Expr} (h : Rewrites H inlined e e') (he : Admissible reserved e)
    (hi : ∀ t ∈ inlined, Admissible reserved t) : Admissible reserved e' := by
  refine ⟨h.wellSorted, fun n hn => ?_⟩
  rcases h.bound n hn with hn | ⟨t, ht, hn⟩
  · exact he.bound n hn
  · exact (hi t ht).bound n hn

theorem admissible' {e e' : Expr} (h : Rewrites H [] e e') (he : Admissible reserved e) :
    Admissible reserved e' := h.admissible he (by simp)

theorem holds_iff {e e' : Expr} (h : Rewrites H inlined e e') {ρ : T.Env} (hρ : H ρ) :
    Holds ρ e' ↔ Holds ρ e := by
  rw [Holds, Holds, h.eval ρ hρ]

theorem sorts {args args' : List Expr} (h : List.Forall₂ (Rewrites H inlined) args args') :
    args'.map Expr.sort = args.map Expr.sort := by
  induction h with
  | nil => rfl
  | cons h _ ih => simp [h.sort, ih]

theorem evals {args args' : List Expr} (h : List.Forall₂ (Rewrites H inlined) args args')
    {ρ : T.Env} (hρ : H ρ) : args'.map (·.eval ρ) = args.map (·.eval ρ) := by
  induction h with
  | nil => rfl
  | cons h _ ih => simp [h.eval ρ hρ, ih]

private theorem exists_arg {args args' : List Expr}
    (h : List.Forall₂ (Rewrites H inlined) args args') {a' : Expr} (ha' : a' ∈ args') :
    ∃ a ∈ args, Rewrites H inlined a a' := by
  induction h with
  | nil => simp at ha'
  | cons h _ ih =>
    rcases List.mem_cons.1 ha' with rfl | ha'
    · exact ⟨_, List.mem_cons_self, h⟩
    · obtain ⟨a, ha, hr⟩ := ih ha'
      exact ⟨a, List.mem_cons_of_mem _ ha, hr⟩

/-- Rewriting the arguments of an application. -/
theorem app {op : Op} {args args' : List Expr} (h : List.Forall₂ (Rewrites H inlined) args args')
    (hacc : op.accepts (args.map Expr.sort) = true) :
    Rewrites H inlined (.app op args) (.app op args') where
  sort := by simp only [sort_app, sorts h]
  wellSorted := by
    refine wellSorted_app.2 ⟨by rw [sorts h, hacc], fun a' ha' => ?_⟩
    obtain ⟨a, -, hr⟩ := exists_arg h ha'
    exact hr.wellSorted
  occs o ho := by
    rw [freeOccs_app, List.mem_flatMap] at ho ⊢
    obtain ⟨a', ha', ho⟩ := ho
    obtain ⟨a, ha, hr⟩ := exists_arg h ha'
    exact (hr.occs o ho).imp_left fun ho => ⟨a, ha, ho⟩
  bound n hn := by
    rw [boundVars_app, List.mem_flatMap] at hn ⊢
    obtain ⟨a', ha', hn⟩ := hn
    obtain ⟨a, ha, hr⟩ := exists_arg h ha'
    exact (hr.bound n hn).imp_left fun hn => ⟨a, ha, hn⟩
  eval ρ hρ := by simp only [eval_app, evals h hρ]

theorem app₁ {op : Op} {a a' : Expr} (h : Rewrites H inlined a a')
    (hacc : op.accepts [a.sort] = true) : Rewrites H inlined (.app op [a]) (.app op [a']) :=
  app (.cons h .nil) hacc

theorem app₂ {op : Op} {a b a' b' : Expr} (ha : Rewrites H inlined a a')
    (hb : Rewrites H inlined b b') (hacc : op.accepts [a.sort, b.sort] = true) :
    Rewrites H inlined (.app op [a, b]) (.app op [a', b']) :=
  app (.cons ha (.cons hb .nil)) hacc

theorem app₃ {op : Op} {a b c a' b' c' : Expr} (ha : Rewrites H inlined a a')
    (hb : Rewrites H inlined b b') (hc : Rewrites H inlined c c')
    (hacc : op.accepts [a.sort, b.sort, c.sort] = true) :
    Rewrites H inlined (.app op [a, b, c]) (.app op [a', b', c']) :=
  app (.cons ha (.cons hb (.cons hc .nil))) hacc

/-- Rewriting under a binder, where the condition for the body follows from the condition
under every choice of the bound names. -/
theorem binder {H' : T.Env → Prop} {q : Quantifier} {vs : List (String × SmtSort)} {b b' : Expr}
    (h : Rewrites H' inlined b b') (hb : b.sort = .bool)
    (hH : ∀ ρ ρ', Theory.AgreeOff (vs.map Prod.fst) ρ ρ' → H ρ → H' ρ') :
    Rewrites H inlined (.quant q vs b) (.quant q vs b') where
  sort := rfl
  wellSorted := wellSorted_quant.2 ⟨h.sort.trans hb, h.wellSorted⟩
  occs o ho := by
    obtain ⟨ho, hv⟩ := mem_freeOccs_quant.1 ho
    exact (h.occs o ho).imp_left fun ho => mem_freeOccs_quant.2 ⟨ho, hv⟩
  bound n hn := by
    rw [boundVars_quant, List.mem_append] at hn ⊢
    rcases hn with hn | hn
    · exact Or.inl (Or.inl hn)
    · exact (h.bound n hn).imp_left Or.inr
  eval ρ hρ := by
    have hρ' : ∀ ρ', Theory.AgreeOff (vs.map Prod.fst) ρ ρ' → (Holds ρ' b' ↔ Holds ρ' b) :=
      fun ρ' hagree => h.holds_iff (hH ρ ρ' hagree hρ)
    refine eval_eq_of_holds_iff rfl rfl ?_
    cases q with
    | all => exact holds_all.trans ((forall₂_congr hρ').trans holds_all.symm)
    | ex =>
      rw [holds_ex, holds_ex]
      exact exists_congr fun ρ' => and_congr_right fun hagree => hρ' ρ' hagree

/-- Rewriting under a binder of reserved names. -/
theorem quant {q : Quantifier} {vs : List (String × SmtSort)} {b b' : Expr}
    (h : Rewrites H inlined b b') (hb : b.sort = .bool) (hstable : StableOff reserved H)
    (hvs : ∀ n ∈ vs.map Prod.fst, n ∈ reserved) :
    Rewrites H inlined (.quant q vs b) (.quant q vs b') :=
  h.binder hb fun ρ ρ' hagree => hstable ρ ρ' fun n hn => hagree n fun hv => hn (hvs n hv)

/-- A formula whose truth the condition decides. -/
theorem to_boolConst {e : Expr} {v : Bool} (hs : e.sort = .bool)
    (h : ∀ ρ, H ρ → (Holds ρ e ↔ v = true)) : Rewrites H inlined e (.boolConst v) where
  sort := by simp [hs, Op.resultSort]
  wellSorted := by simp [Op.accepts]
  occs := by simp
  bound := by simp
  eval ρ hρ := by
    refine eval_eq_of_holds_iff (by simp [Op.resultSort]) hs ?_
    rw [h ρ hρ, holds_boolConst]

/-- A formula with the same truth value that mentions nothing new. -/
theorem of_holds_iff {e e' : Expr} (hs : e.sort = .bool) (hs' : e'.sort = .bool)
    (hws : e'.WellSorted) (hocc : ∀ o ∈ e'.freeOccs, o ∈ e.freeOccs)
    (hbd : ∀ n ∈ e'.boundVars, n ∈ e.boundVars) (h : ∀ ρ, H ρ → (Holds ρ e' ↔ Holds ρ e)) :
    Rewrites H inlined e e' :=
  ⟨hs'.trans hs.symm, hws, fun o ho => Or.inl (hocc o ho), fun n hn => Or.inl (hbd n hn),
    fun ρ hρ => eval_eq_of_holds_iff hs' hs (h ρ hρ)⟩

/-- A term with the same value that mentions nothing new. -/
theorem of_eval {e e' : Expr} (hs : e'.sort = e.sort) (hws : e'.WellSorted)
    (hocc : ∀ o ∈ e'.freeOccs, o ∈ e.freeOccs) (hbd : ∀ n ∈ e'.boundVars, n ∈ e.boundVars)
    (h : ∀ ρ, H ρ → e'.eval ρ = e.eval ρ) : Rewrites H inlined e e' :=
  ⟨hs, hws, fun o ho => Or.inl (hocc o ho), fun n hn => Or.inl (hbd n hn), h⟩

/-- A part of a term that has the value of the whole. -/
theorem to_arg {op : Op} {args : List Expr} {a : Expr} (ha : a ∈ args)
    (hws : (Expr.app op args).WellSorted) (hs : a.sort = (Expr.app op args).sort)
    (heval : ∀ ρ, H ρ → a.eval ρ = (Expr.app op args).eval ρ) :
    Rewrites H inlined (.app op args) a := by
  refine of_eval hs ((wellSorted_app.1 hws).2 a ha) ?_ ?_ heval
  · intro o ho
    rw [freeOccs_app]
    exact List.mem_flatMap.2 ⟨a, ha, ho⟩
  · intro n hn
    rw [boundVars_app]
    exact List.mem_flatMap.2 ⟨a, ha, hn⟩

/-- The sides of an equation may be exchanged. -/
theorem eq_swap {a b : Expr} (h : (a.eq b).WellSorted) : Rewrites H inlined (a.eq b) (b.eq a) := by
  have hs : a.sort = b.sort := by
    simpa [Op.accepts] using (wellSorted_app.1 h).1
  refine of_holds_iff (by simp [Op.resultSort]) (by simp [Op.resultSort]) ?_ ?_ ?_ ?_
  · have hargs := (wellSorted_app.1 h).2
    refine wellSorted_app.2 ⟨by simp [Op.accepts, hs], ?_⟩
    intro x hx
    exact hargs x (by simpa [or_comm] using hx)
  · simp [or_comm]
  · simp [or_comm]
  · intro ρ _
    rw [holds_eq, holds_eq]
    exact Eq.comm

/-- A unary operator moves into the branches of a conditional. -/
theorem app_ite {op : Op} {c a b : Expr} (h : (Expr.app op [Expr.ite c a b]).WellSorted) :
    Rewrites H inlined (.app op [Expr.ite c a b]) (Expr.ite c (.app op [a]) (.app op [b])) := by
  obtain ⟨hacc, hite⟩ := wellSorted_app.1 h
  obtain ⟨hcond, hbranches⟩ := wellSorted_app.1 (hite _ (List.mem_singleton_self _))
  obtain ⟨hc, hab⟩ : c.sort = .bool ∧ a.sort = b.sort := by
    simpa [Op.accepts] using hcond
  have hacca : op.accepts [a.sort] = true := by simpa [Op.resultSort] using hacc
  have hsort : (Expr.app op [a]).sort = (Expr.app op [b]).sort := by simp [hab]
  refine of_eval (by simp [Op.resultSort]) ?_ (by simp) (by simp) fun ρ _ => ?_
  · refine wellSorted_app.2 ⟨by simp [Op.accepts, hc, hab], ?_⟩
    intro x hx
    simp only [List.mem_cons, List.not_mem_nil, or_false] at hx
    rcases hx with rfl | rfl | rfl
    · exact hbranches _ (by simp)
    · exact wellSorted_app.2 ⟨hacca, by simpa using hbranches a (by simp)⟩
    · exact wellSorted_app.2 ⟨by simpa [hab] using hacca, by simpa using hbranches b (by simp)⟩
  · rw [eval_ite hsort]
    by_cases hρ : Holds ρ c
    · rw [if_pos hρ, eval_app, eval_app, List.map_singleton, List.map_singleton, eval_ite hab,
        if_pos hρ]
    · rw [if_neg hρ, eval_app, eval_app, List.map_singleton, List.map_singleton, eval_ite hab,
        if_neg hρ]

end Rewrites

end TrustMc
