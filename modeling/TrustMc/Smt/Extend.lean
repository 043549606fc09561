import TrustMc.Smt.Define

/-!
# Definitional extensions

Constraints that grow by definitions of new names. Whoever generates them keeps a set of known
names; a definition is of a name that is not known yet, and what it reads is known afterwards.
Some names are free: they are never defined.

* `Expr.Over`: the terms over a set of names.
* `Extends`: one set of constraints extends another, as a preorder (`Extends.refl`,
  `Extends.trans`, `Extends.define`).
* `Extends.exists_model`: a model of the smaller set becomes one of the larger and keeps the
  values of the known names and of the free ones.
-/

namespace TrustMc

open Carriers Carriers.Val TrustMc.Expr

variable {T : Theory}

namespace Expr

/-- The names of the term are among those of the set. -/
def Over (known : String → Prop) (e : Expr) : Prop := ∀ n ∈ e.freeVars, known n

variable {known known' : String → Prop}

@[simp] theorem over_var {n : String} {s : SmtSort} : (var n s).Over known ↔ known n := by
  simp [Over]

@[simp]
theorem over_app {op : Op} {args : List Expr} :
    (app op args).Over known ↔ ∀ a ∈ args, a.Over known := by
  simp only [Over, freeVars_app, List.mem_flatMap]
  exact ⟨fun h a ha n hn => h n ⟨a, ha, hn⟩, fun h n ⟨a, ha, hn⟩ => h a ha n hn⟩

theorem Over.mono {e : Expr} (h : e.Over known) (hknown : ∀ n, known n → known' n) :
    e.Over known' :=
  fun n hn => hknown n (h n hn)

/-- A term keeps its value where the names it is over do. -/
theorem Over.eval_congr {e : Expr} (h : e.Over known) {ρ ρ' : T.Env}
    (hρ : ∀ n, known n → ρ n = ρ' n) : e.eval ρ = e.eval ρ' :=
  Expr.eval_congr fun n hn => hρ n (h n hn)

theorem Over.holds_congr {e : Expr} (h : e.Over known) {ρ ρ' : T.Env}
    (hρ : ∀ n, known n → ρ n = ρ' n) : Holds ρ e ↔ Holds ρ' e := by
  rw [Holds, Holds, h.eval_congr hρ]

end Expr

namespace Definition

theorem Sequential.nil : Sequential [] := ⟨by simp, .nil⟩

theorem Sequential.singleton {d : Definition} (h : d.Proper) : Sequential [d] :=
  ⟨by simpa using h, List.pairwise_singleton _ _⟩

/-- Definitions of names that the earlier ones neither define nor read. -/
theorem Sequential.append {ds ds' : List Definition} (h : Sequential ds) (h' : Sequential ds')
    (hnew : ∀ d ∈ ds, ∀ d' ∈ ds', d'.name ≠ d.name ∧ d'.name ∉ d.rhs.freeVars) :
    Sequential (ds ++ ds') where
  proper d hd := (List.mem_append.1 hd).elim (h.proper d) (h'.proper d)
  pairwise := List.pairwise_append.2 ⟨h.pairwise, h'.pairwise, hnew⟩

end Definition

/-- The constraints `cs'` are those of `cs` and definitions of names that were not known. -/
def Extends (free known known' : String → Prop) (cs cs' : List Expr) : Prop :=
  (∀ n, known n → known' n) ∧ ∃ ds : List Definition, cs' = cs ++ ds.map Definition.toExpr ∧
    Definition.Sequential ds ∧
      ∀ d ∈ ds, ¬ known d.name ∧ ¬ free d.name ∧ known' d.name ∧ d.rhs.Over known'

namespace Extends

variable {free known known' known'' : String → Prop} {cs cs' cs'' : List Expr}

/-- More names are known. -/
theorem of_known (h : ∀ n, known n → known' n) : Extends free known known' cs cs :=
  ⟨h, [], by simp, .nil, by simp⟩

theorem refl : Extends free known known cs cs := of_known fun _ h => h

/-- One definition. -/
theorem define (h : ∀ n, known n → known' n) {d : Definition} (hsort : d.rhs.sort = d.sort)
    (hnew : ¬ known d.name) (hfree : ¬ free d.name) (hknown : known' d.name)
    (hrhs : d.rhs.Over known) : Extends free known known' cs (cs ++ [d.toExpr]) := by
  refine ⟨h, [d], by simp, .singleton ⟨hsort, fun hn => hnew (hrhs _ hn)⟩, ?_⟩
  simpa using ⟨hnew, hfree, hknown, hrhs.mono h⟩

theorem trans (h : Extends free known known' cs cs') (h' : Extends free known' known'' cs' cs'') :
    Extends free known known'' cs cs'' := by
  obtain ⟨hknown, ds, rfl, hds, hnames⟩ := h
  obtain ⟨hknown', ds', rfl, hds', hnames'⟩ := h'
  refine ⟨fun n hn => hknown' n (hknown n hn), ds ++ ds', by simp, hds.append hds' ?_, ?_⟩
  · intro d hd d' hd'
    obtain ⟨-, -, hname, hover⟩ := hnames d hd
    have hnew := (hnames' d' hd').1
    exact ⟨fun heq => hnew (heq ▸ hname), fun hmem => hnew (hover _ hmem)⟩
  · intro d hd
    rcases List.mem_append.1 hd with hd | hd
    · obtain ⟨hnew, hfree, hname, hover⟩ := hnames d hd
      exact ⟨hnew, hfree, hknown' _ hname, hover.mono hknown'⟩
    · obtain ⟨hnew, hfree, hname, hover⟩ := hnames' d hd
      exact ⟨fun hn => hnew (hknown _ hn), hfree, hname, hover⟩

/-- The larger set is over the names known then. -/
theorem forall_over (h : Extends free known known' cs cs') (hcs : ∀ c ∈ cs, c.Over known) :
    ∀ c ∈ cs', c.Over known' := by
  obtain ⟨hknown, ds, rfl, -, hnames⟩ := h
  intro c hc
  rcases List.mem_append.1 hc with hc | hc
  · exact (hcs c hc).mono hknown
  · obtain ⟨d, hd, rfl⟩ := List.mem_map.1 hc
    obtain ⟨-, -, hname, hrhs⟩ := hnames d hd
    simpa [Definition.toExpr, hname] using hrhs

/-- A model of the larger set is one of the smaller. -/
theorem holds (h : Extends free known known' cs cs') {ρ : T.Env} (hρ : ∀ c ∈ cs', Holds ρ c) :
    ∀ c ∈ cs, Holds ρ c := by
  obtain ⟨-, ds, rfl, -, -⟩ := h
  exact fun c hc => hρ c (List.mem_append_left _ hc)

/-- **A model extends**, and the names that are known or free keep their values. -/
theorem exists_model (h : Extends free known known' cs cs') (hcs : ∀ c ∈ cs, c.Over known)
    {ρ : T.Env} (hρ : ∀ c ∈ cs, Holds ρ c) :
    ∃ ρ' : T.Env, (∀ c ∈ cs', Holds ρ' c) ∧ ∀ n, known n ∨ free n → ρ' n = ρ n := by
  obtain ⟨-, ds, rfl, hds, hnames⟩ := h
  have hkeep : ∀ n, known n ∨ free n → Definition.solve ρ ds n = ρ n := by
    refine fun n hn => Definition.solve_of_notMem fun d hd heq => ?_
    obtain ⟨hnew, hfree, -, -⟩ := hnames d hd
    rw [heq] at hnew hfree
    exact hn.elim hnew hfree
  refine ⟨Definition.solve ρ ds, fun c hc => ?_, hkeep⟩
  rcases List.mem_append.1 hc with hc | hc
  · exact ((hcs c hc).holds_congr fun n hn => hkeep n (.inl hn)).2 (hρ c hc)
  · obtain ⟨d, hd, rfl⟩ := List.mem_map.1 hc
    exact Definition.holds_solve hds d hd

end Extends

end TrustMc
