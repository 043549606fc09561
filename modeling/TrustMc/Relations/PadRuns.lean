import TrustMc.Relations.ArityExact
import TrustMc.Relations.CanonicalExact
import TrustMc.Relations.PadNames

/-!
# The pads of one system

Two passes put pads into a system, each more than once, and the passes between them change the
columns of the relations. `PadRun` is such a sequence, with the pads that were built so far.

* `mem_vcVars_fixup`, `mem_vcVars_canonicalize`: what a pass puts in is a pad for a declared
  slot, with the sort the slot has then.
* `PadRun.exists_pad`: so every pad variable of the system was built by one of the passes.
* `PadRun.sort_eq_of_name_eq`: names determine sorts in a system of which no two pads that were
  built have one name and different sorts.
-/

namespace TrustMc

namespace Relations

open Slots

/-! ### Variables -/

theorem mem_stackVarsList {v : String × SmtSort} {es : List Expr} :
    v ∈ stackVarsList es ↔ ∃ e ∈ es, v ∈ stackVars e := by
  induction es with
  | nil => simp [stackVarsList]
  | cons e es ih => rw [stackVarsList, List.mem_append, ih]; simp [or_comm]

/-- The variable nodes of a rule. -/
def ruleVars (rule : Rule) : List (String × SmtSort) :=
  (rule.head.args ++ (rule.body.relation.map RelationApp.args).getD [] ++
    rule.body.constraints).flatMap stackVars

/-- The variable nodes of a system. -/
def vcVars (vc : ChcVc) : List (String × SmtSort) := vc.rules.flatMap ruleVars

theorem mem_ruleVars {v : String × SmtSort} {rule : Rule} :
    v ∈ ruleVars rule ↔ v ∈ stackVarsList rule.head.args ∨
      (∃ app, rule.body.relation = some app ∧ v ∈ stackVarsList app.args) ∨
        v ∈ stackVarsList rule.body.constraints := by
  obtain ⟨⟨relation, constraints⟩, head⟩ := rule
  cases relation with
  | none => simp [ruleVars, mem_stackVarsList, List.mem_flatMap]
  | some app => simp [ruleVars, mem_stackVarsList, List.mem_flatMap]

theorem mem_vcVars {v : String × SmtSort} {vc : ChcVc} :
    v ∈ vcVars vc ↔ ∃ rule ∈ vc.rules, v ∈ ruleVars rule :=
  List.mem_flatMap

/-! ### What the passes put in -/

/-- The variable is a pad for a declared slot of its sort. -/
def DeclaredPad (showSort : SmtSort → String) (relations : List RelationDecl)
    (v : String × SmtSort) : Prop :=
  ∃ name decl idx, relSorts relations name = some decl ∧ decl[idx]? = some v.2 ∧
    (v.1 = padName name idx ∨ v.1 = padName name idx ++ "_" ++ padSortTag showSort v.2 ∨
      v.1 = cpadName showSort name idx v.2)

section Fixup

variable {showSort : SmtSort → String} {relations : List RelationDecl}
  {templates : String → List (List Expr)} {relName : String} {args : List Expr}
  {v : String × SmtSort}

/-- A repaired application holds its arguments and pads for its slots. -/
theorem mem_stackVarsList_normalizeArgs
    (hv : v ∈ stackVarsList (normalizeArgs showSort relations templates relName args).1) :
    v ∈ stackVarsList args ∨ DeclaredPad showSort relations v := by
  obtain ⟨e, he, hve⟩ := mem_stackVarsList.1 hv
  rcases mem_normalizeArgs he with harg | ⟨decl, i, s, hdecl, hs, rfl | rfl⟩
  · exact Or.inl (mem_stackVarsList.2 ⟨e, harg, hve⟩)
  · obtain rfl := List.mem_singleton.1 hve
    exact Or.inr ⟨relName, decl, i, hdecl, hs, Or.inl rfl⟩
  · obtain rfl := List.mem_singleton.1 hve
    exact Or.inr ⟨relName, decl, i, hdecl, hs, Or.inr (Or.inl rfl)⟩

/-- So does a repaired term, at any depth. -/
theorem mem_stackVars_padRelationExprs {e : Expr}
    (hv : v ∈ stackVars (padRelationExprs showSort relations templates e).1) :
    v ∈ stackVars e ∨ DeclaredPad showSort relations v := by
  induction e with
  | var n s => exact Or.inl hv
  | quant q vs b ih =>
    rw [padRelationExprs] at hv
    exact ih hv
  | app op args ih =>
    have hargs : v ∈ stackVarsList (padRelationExprsList showSort relations templates args).1 →
        v ∈ stackVarsList args ∨ DeclaredPad showSort relations v := by
      rw [padRelationExprsList_eq_map, mem_stackVarsList]
      rintro ⟨_, hmem, hve⟩
      obtain ⟨e, he, rfl⟩ := List.mem_map.1 hmem
      exact (ih e he hve).imp_left fun h => mem_stackVarsList.2 ⟨e, he, h⟩
    rw [padRelationExprs.eq_def] at hv
    dsimp only at hv
    split at hv
    next name s => exact (mem_stackVarsList_normalizeArgs hv).elim hargs Or.inr
    next => exact hargs hv

theorem mem_ruleVars_fixRule {rule : Rule}
    (hv : v ∈ ruleVars (fixRule showSort relations templates rule).1) :
    v ∈ ruleVars rule ∨ DeclaredPad showSort relations v := by
  have hconstraints : v ∈ stackVarsList
      (padRelationExprsList showSort relations templates rule.body.constraints).1 →
        v ∈ stackVarsList rule.body.constraints ∨ DeclaredPad showSort relations v := by
    rw [padRelationExprsList_eq_map, mem_stackVarsList]
    rintro ⟨_, hmem, hvc⟩
    obtain ⟨c, hc, rfl⟩ := List.mem_map.1 hmem
    exact (mem_stackVars_padRelationExprs hvc).imp_left fun h => mem_stackVarsList.2 ⟨c, hc, h⟩
  rw [mem_ruleVars] at hv ⊢
  obtain ⟨⟨relation, constraints⟩, head⟩ := rule
  cases relation with
  | none =>
    rcases hv with hhead | ⟨app, happ, -⟩ | hcs
    · exact (mem_stackVarsList_normalizeArgs hhead).imp_left Or.inl
    · exact absurd happ nofun
    · exact (hconstraints hcs).imp_left fun h => Or.inr (Or.inr h)
  | some app =>
    rcases hv with hhead | ⟨app', happ, hbody⟩ | hcs
    · exact (mem_stackVarsList_normalizeArgs hhead).imp_left Or.inl
    · obtain rfl := Option.some.inj happ
      exact (mem_stackVarsList_normalizeArgs hbody).imp_left fun h => Or.inr (Or.inl ⟨app, rfl, h⟩)
    · exact (hconstraints hcs).imp_left fun h => Or.inr (Or.inr h)

/-- **The arity repair** puts pads for declared slots into the system, and no other variable. -/
theorem mem_vcVars_fixup {vc : ChcVc} (hv : v ∈ vcVars (fixupRelationAppArities showSort vc)) :
    v ∈ vcVars vc ∨ DeclaredPad showSort vc.relations v := by
  obtain ⟨_, hmem, hv⟩ := mem_vcVars.1 hv
  rw [(fixup_rules showSort vc).1] at hmem
  obtain ⟨rule, hrule, rfl⟩ := List.mem_map.1 hmem
  exact (mem_ruleVars_fixRule hv).imp_left fun h => mem_vcVars.2 ⟨rule, hrule, h⟩

end Fixup

section Canonicalize

variable {showSort : SmtSort → String} {vc : ChcVc} {v : String × SmtSort}

theorem mem_stackVarsList_canonApp {app : RelationApp}
    (hv : v ∈ stackVarsList (canonApp showSort vc app).1.args) :
    v ∈ stackVarsList app.args ∨ DeclaredPad showSort vc.relations v := by
  rcases canonApp_cases showSort vc app with ⟨happ, -⟩ | ⟨decl, layout, row, hdiv, hrow, happ⟩
  · exact Or.inl (happ ▸ hv)
  · obtain ⟨-, hperm, -⟩ := place_spec hrow
    rw [happ] at hv
    obtain ⟨e, he, hve⟩ := mem_stackVarsList.1 hv
    obtain ⟨k, hk⟩ := List.mem_iff_getElem?.1 he
    rcases padRow_cases hk with hhas | ⟨s, -, hs, rfl⟩
    · have hmem := hperm.mem_iff.1 (List.reduceOption_mem_iff.2 (List.mem_of_getElem? hhas))
      exact Or.inl (mem_stackVarsList.2 ⟨e, (List.mem_filter.1 hmem).1, hve⟩)
    · obtain rfl := List.mem_singleton.1 hve
      exact Or.inr ⟨app.name, decl, k, hdiv.declared, hs, Or.inr (Or.inr rfl)⟩

/-- **Canonical order** puts pads for declared slots into the system, and no other variable. -/
theorem mem_vcVars_canonicalize (hv : v ∈ vcVars (canonicalizeBlockRelationApps showSort vc)) :
    v ∈ vcVars vc ∨ DeclaredPad showSort vc.relations v := by
  obtain ⟨_, hmem, hv⟩ := mem_vcVars.1 hv
  rw [canonicalize_rules] at hmem
  obtain ⟨rule, hrule, rfl⟩ := List.mem_map.1 hmem
  refine Or.imp_left (fun h => mem_vcVars.2 ⟨rule, hrule, mem_ruleVars.2 h⟩) ?_
  rcases mem_ruleVars.1 hv with hhead | ⟨app', happ, hbody⟩ | hcs
  · exact (mem_stackVarsList_canonApp hhead).imp_left Or.inl
  · obtain ⟨app, hbodyApp, rfl⟩ := Option.map_eq_some_iff.1 happ
    exact (mem_stackVarsList_canonApp hbody).imp_left fun h => Or.inr (Or.inl ⟨app, hbodyApp, h⟩)
  · exact Or.inl (Or.inr (Or.inr hcs))

end Canonicalize

/-! ### Sequences of passes -/

/-- Relations with arguments are those of the function's blocks. -/
def BlockRelations (fnName : String) (relations : List RelationDecl) : Prop :=
  ∀ name decl, relSorts relations name = some decl → decl ≠ [] →
    ∃ bb, name = blockRelationName fnName bb

/-- The pads whose variables the system has and whose slots it declares. -/
def padsIn (showSort : SmtSort → String) (fnName : String) (vc : ChcVc) : Set Pad :=
  {pad | (pad.name showSort fnName, pad.sort) ∈ vcVars vc ∧
    ∃ decl, relSorts vc.relations (blockRelationName fnName pad.bb) = some decl ∧
      decl[pad.idx]? = some pad.sort}

/-- The systems that the passes make of one that has no pads, with the pads that were built. -/
inductive PadRun (showSort : SmtSort → String) (fnName : String) : Set Pad → ChcVc → Prop
  /-- The translation of the blocks builds no pads. -/
  | start {vc : ChcVc} (h : ∀ v ∈ vcVars vc, isPadName v.1 = false) : PadRun showSort fnName ∅ vc
  | fixup {built : Set Pad} {vc : ChcVc} (h : PadRun showSort fnName built vc)
      (hblocks : BlockRelations fnName vc.relations) :
      PadRun showSort fnName
        (built ∪ padsIn showSort fnName (fixupRelationAppArities showSort vc))
        (fixupRelationAppArities showSort vc)
  | canonicalize {built : Set Pad} {vc : ChcVc} (h : PadRun showSort fnName built vc)
      (hblocks : BlockRelations fnName vc.relations) :
      PadRun showSort fnName
        (built ∪ padsIn showSort fnName (canonicalizeBlockRelationApps showSort vc))
        (canonicalizeBlockRelationApps showSort vc)
  /-- Any other pass: columns may change, and pads may go, but none is built. -/
  | other {built : Set Pad} {vc vc' : ChcVc} (h : PadRun showSort fnName built vc)
      (hvars : ∀ v ∈ vcVars vc', isPadName v.1 = true → v ∈ vcVars vc) :
      PadRun showSort fnName built vc'

section Run

variable {showSort : SmtSort → String} {fnName : String}

/-- A pad for a declared slot is a pad of the function's relations. -/
theorem DeclaredPad.exists_pad {vc : ChcVc} {v : String × SmtSort}
    (h : DeclaredPad showSort vc.relations v) (hblocks : BlockRelations fnName vc.relations)
    (hv : v ∈ vcVars vc) :
    ∃ pad ∈ padsIn showSort fnName vc, v = (pad.name showSort fnName, pad.sort) := by
  obtain ⟨name, sort⟩ := v
  obtain ⟨relName, decl, idx, hdecl, hsort, hname⟩ := h
  obtain ⟨bb, rfl⟩ := hblocks relName decl hdecl (List.ne_nil_of_mem (List.mem_of_getElem? hsort))
  obtain ⟨builder, rfl⟩ : ∃ builder, name = Pad.name showSort fnName ⟨builder, bb, idx, sort⟩ := by
    rcases hname with hname | hname | hname
    · exact ⟨.untagged, hname⟩
    · exact ⟨.tagged, hname⟩
    · exact ⟨.canonical, hname⟩
  exact ⟨⟨builder, bb, idx, sort⟩, ⟨hv, decl, hdecl, hsort⟩, rfl⟩

/-- Every pad variable was built by one of the passes. -/
theorem PadRun.exists_pad {built : Set Pad} {vc : ChcVc} (h : PadRun showSort fnName built vc)
    {v : String × SmtSort} (hv : v ∈ vcVars vc) (hpad : isPadName v.1 = true) :
    ∃ pad ∈ built, v = (pad.name showSort fnName, pad.sort) := by
  induction h with
  | start hnone => exact absurd hpad (by simp [hnone v hv])
  | @fixup built vc _ hblocks ih =>
    rcases mem_vcVars_fixup hv with hold | hnew
    · exact (ih hold).imp fun pad hpad => ⟨Or.inl hpad.1, hpad.2⟩
    · have hrelations := (fixup_rules showSort vc).2
      rw [← hrelations] at hnew hblocks
      exact (hnew.exists_pad hblocks hv).imp fun pad hpad => ⟨Or.inr hpad.1, hpad.2⟩
  | @canonicalize built vc _ hblocks ih =>
    rcases mem_vcVars_canonicalize hv with hold | hnew
    · exact (ih hold).imp fun pad hpad => ⟨Or.inl hpad.1, hpad.2⟩
    · have hrelations := canonicalize_relations showSort vc
      rw [← hrelations] at hnew hblocks
      exact (hnew.exists_pad hblocks hv).imp fun pad hpad => ⟨Or.inr hpad.1, hpad.2⟩
  | other _ hvars ih => exact ih (hvars v hv hpad)

/-- **One system**: if the pads that were built have one sort or are apart, pairwise, then equal
names of pad variables imply equal sorts. -/
theorem PadRun.sort_eq_of_name_eq {built : Set Pad} {vc : ChcVc}
    (h : PadRun showSort fnName built vc)
    (hapart : ∀ p ∈ built, ∀ q ∈ built, p.sort = q.sort ∨ p.Apart showSort q)
    {name : String} {s t : SmtSort} (hpad : isPadName name = true)
    (hs : (name, s) ∈ vcVars vc) (ht : (name, t) ∈ vcVars vc) : s = t := by
  obtain ⟨p, hp, hpv⟩ := h.exists_pad hs hpad
  obtain ⟨q, hq, hqv⟩ := h.exists_pad ht hpad
  obtain ⟨rfl, rfl⟩ := Prod.mk.inj hpv
  obtain ⟨hname, rfl⟩ := Prod.mk.inj hqv
  refine (hapart p hp q hq).resolve_right ?_
  exact Pad.name_eq_iff.1 hname

end Run

end Relations

end TrustMc
