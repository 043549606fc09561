import TrustMc.ConstProp.Alignment

/-!
# Declarations rebuilt from applications

Two passes rewrite the applications of a relation one by one and then declare the relation with
the sorts of one application, the first of a list. An application conforms to the result exactly
if it has the sorts of that one (`conforms_redeclare_iff`).
-/

namespace TrustMc

namespace Scalarize

/-- The sorts of the arguments of an application. -/
def rowSorts (app : RelationApp) : List SmtSort := app.args.map Expr.sort

/-- The declaration gets the sorts of the first application of the relation. -/
def redeclare (apps : List RelationApp) (rel : RelationDecl) : RelationDecl :=
  match apps.find? (·.name == rel.name) with
  | some app => { rel with argSorts := rowSorts app }
  | none => rel

@[simp]
theorem name_redeclare (apps : List RelationApp) (rel : RelationDecl) :
    (redeclare apps rel).name = rel.name := by
  unfold redeclare
  cases apps.find? (·.name == rel.name) <;> rfl

variable {apps : List RelationApp} {relations : List RelationDecl} {app : RelationApp}

theorem argSorts_redeclare_of_some {declaring : RelationApp} {rel : RelationDecl}
    (h : apps.find? (·.name == rel.name) = some declaring) :
    (redeclare apps rel).argSorts = rowSorts declaring := by
  rw [redeclare, h]

theorem redeclare_of_none {rel : RelationDecl} (h : apps.find? (·.name == rel.name) = none) :
    redeclare apps rel = rel := by
  rw [redeclare, h]

/-- **Conformity to rebuilt declarations**: a declared application conforms if it has the sorts
of the application that declares its relation, or without one the declared sorts. -/
theorem conforms_redeclare_iff (hdecl : ∃ d ∈ relations, d.name = app.name) :
    Conforms (relations.map (redeclare apps)) app ↔
      match apps.find? (·.name == app.name) with
      | some declaring => rowSorts app = rowSorts declaring
      | none => ∀ d ∈ relations, d.name = app.name → rowSorts app = d.argSorts := by
  have hnamed : ∃ d ∈ relations.map (redeclare apps), d.name = app.name := by
    obtain ⟨d, hd, hname⟩ := hdecl
    exact ⟨redeclare apps d, List.mem_map_of_mem hd, (name_redeclare apps d).trans hname⟩
  have hall : Conforms (relations.map (redeclare apps)) app ↔
      ∀ d ∈ relations, d.name = app.name → rowSorts app = (redeclare apps d).argSorts := by
    rw [Conforms, and_iff_right hnamed, List.forall_mem_map]
    simp only [name_redeclare, rowSorts]
  rw [hall]
  cases hfind : apps.find? (·.name == app.name) with
  | some declaring =>
    have heq : ∀ d : RelationDecl, d.name = app.name →
        (redeclare apps d).argSorts = rowSorts declaring := by
      intro d hname
      rw [← hname] at hfind
      exact argSorts_redeclare_of_some hfind
    constructor
    · intro h
      obtain ⟨d, hd, hname⟩ := hdecl
      rw [h d hd hname, heq d hname]
    · intro h d _ hname
      rw [h, heq d hname]
  | none =>
    have heq : ∀ d : RelationDecl, d.name = app.name → redeclare apps d = d := by
      intro d hname
      rw [← hname] at hfind
      exact redeclare_of_none hfind
    constructor
    · intro h d hd hname
      rw [h d hd hname, heq d hname]
    · intro h d hd hname
      rw [h d hd hname, heq d hname]

/-- **Declarations rebuilt from all applications** fit exactly if the applications of a relation
have one list of sorts. -/
theorem forall_conforms_redeclare_iff (hdecl : ∀ a ∈ apps, ∃ d ∈ relations, d.name = a.name) :
    (∀ a ∈ apps, Conforms (relations.map (redeclare apps)) a) ↔
      ∀ a ∈ apps, ∀ b ∈ apps, a.name = b.name → rowSorts a = rowSorts b := by
  have hfirst : ∀ a ∈ apps, ∃ b ∈ apps, a.name = b.name ∧
      apps.find? (·.name == a.name) = some b := by
    intro a ha
    have hsome : (apps.find? (·.name == a.name)).isSome :=
      List.find?_isSome.2 ⟨a, ha, beq_self_eq_true a.name⟩
    obtain ⟨b, hb⟩ := Option.isSome_iff_exists.1 hsome
    have hname := List.find?_some hb
    exact ⟨b, List.mem_of_find?_eq_some hb, (beq_iff_eq.1 hname).symm, hb⟩
  constructor
  · intro h a ha b hb hname
    obtain ⟨c, -, -, hc⟩ := hfirst a ha
    have hrowa := (conforms_redeclare_iff (hdecl a ha)).1 (h a ha)
    have hrowb := (conforms_redeclare_iff (hdecl b hb)).1 (h b hb)
    rw [hc] at hrowa
    rw [← hname, hc] at hrowb
    exact hrowa.trans hrowb.symm
  · intro h a ha
    obtain ⟨b, hb, hname, hfind⟩ := hfirst a ha
    rw [conforms_redeclare_iff (hdecl a ha), hfind]
    exact h a ha b hb hname

end Scalarize

end TrustMc
