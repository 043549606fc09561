import TrustMc.LateState.Threaded
import TrustMc.Lists.PartialMap

/-!
# Rules emitted after late additions

A rule that is emitted late has its body application refreshed and its output arguments
projected to the target's live list. Agreement survives: an application that was built
before a late addition is completed by the input variables of the columns it lacks
(`refreshBlockRelationApp_spec`), and the projection takes, for each live variable of the
target, its output variable or its input variable (`projectFullOutputToBlock_spec`).
-/

namespace TrustMc.LateState

open Lists

namespace ChcCtx

variable {s : ChcCtx}

/-- `emit_goto_rule`, for the constraints of the rule and a target that has a relation. -/
def emitGotoRule (s : ChcCtx) (fromApp : RelationApp) (target : ℕ) (outputArgs : List Expr)
    (constraints : List Expr) : Option ChcCtx := do
  let fromApp ← s.refreshBlockRelationApp fromApp
  let toRel ← s.blockRelations.lookup target
  let projected ← s.projectFullOutputToBlock target outputArgs
  return { s with vc := s.vc.addRule ⟨⟨some fromApp, constraints⟩, ⟨toRel, projected⟩⟩ }

/-- A refreshed application takes the input variables of the whole live list. -/
theorem refreshBlockRelationApp_spec {app app' : RelationApp} {bb : ℕ} {live : List ℕ}
    (hbb : s.relNameToBb.lookup app.name = some bb)
    (hlive : s.stateVarMgr.liveStateIndices[bb]? = some live)
    (hpre : List.Forall₂ (fun idx e => s.inputVar idx = some e) (live.take app.args.length)
      app.args)
    (h : s.refreshBlockRelationApp app = some app') :
    app'.name = app.name ∧ List.Forall₂ (fun idx e => s.inputVar idx = some e) live app'.args := by
  simp only [refreshBlockRelationApp, hbb, hlive, Option.bind_eq_bind, Option.bind_some] at h
  split_ifs at h with hle
  · obtain rfl := Option.some.inj h
    rw [List.take_of_length_le hle] at hpre
    exact ⟨rfl, hpre⟩
  · obtain ⟨added, hadded, h⟩ := Option.bind_eq_some_iff.1 h
    obtain rfl := Option.some.inj h
    refine ⟨rfl, ?_⟩
    have hwhole : live.take app.args.length ++ live.drop app.args.length = live :=
      List.take_append_drop _ _
    rw [← hwhole]
    exact List.rel_append hpre (forall₂_of_mapM hadded)

/-- The arguments added to a stale list of output arguments. -/
theorem refreshFullOutputArgs_spec {outputArgs refreshed : List Expr}
    (hargs : ∀ idx e, outputArgs[idx]? = some e →
      s.inputVar idx = some e ∨ s.outputVar idx = some e)
    (h : s.refreshFullOutputArgs outputArgs = some refreshed) :
    ∀ idx e, refreshed[idx]? = some e → s.inputVar idx = some e ∨ s.outputVar idx = some e := by
  simp only [refreshFullOutputArgs, Option.bind_eq_bind] at h
  split_ifs at h with heq hlt
  · obtain rfl := Option.some.inj h
    exact hargs
  · obtain ⟨added, hadded, h⟩ := Option.bind_eq_some_iff.1 h
    obtain rfl := Option.some.inj h
    intro idx e hidx
    rcases lt_or_ge idx outputArgs.length with hold | hnew
    · exact hargs idx e (by rwa [List.getElem?_append_left hold] at hidx)
    · rw [List.getElem?_append_right hnew] at hidx
      -- the entry added for this index
      obtain ⟨hk, hget⟩ := List.getElem?_eq_some_iff.1 hidx
      have hrel := List.forall₂_iff_get.1 (forall₂_of_mapM hadded)
      have harg := hrel.2 (idx - outputArgs.length) (hrel.1 ▸ hk) hk
      simp only [List.get_eq_getElem, hget, List.getElem_drop, List.getElem_range,
        Nat.add_sub_cancel' hnew, refreshedArg] at harg
      split_ifs at harg with hmod
      · rcases hout : s.outputVar idx with - | o <;> rw [hout] at harg
        · exact .inl harg
        · exact .inr harg
      · exact .inl harg

/-- Each argument of a projection is the output or the input variable of its column. -/
theorem projectFullOutputToBlock_spec {toBb : ℕ} {outputArgs args : List Expr} {live : List ℕ}
    (hargs : ∀ idx e, outputArgs[idx]? = some e →
      s.inputVar idx = some e ∨ s.outputVar idx = some e)
    (hlive : s.stateVarMgr.liveStateIndices[toBb]? = some live)
    (h : s.projectFullOutputToBlock toBb outputArgs = some args) :
    List.Forall₂ (fun idx e => ∃ sort e', (s.inputVar idx = some e' ∨ s.outputVar idx = some e') ∧
      e = s.coerceColumn idx sort e') live args := by
  simp only [projectFullOutputToBlock, hlive, Option.bind_eq_bind, Option.bind_eq_some_iff,
    Option.bind_some] at h
  obtain ⟨refreshed, hrefreshed, h⟩ := h
  refine (forall₂_of_mapM h).imp fun idx e he => ?_
  obtain ⟨arg, harg, he⟩ := Option.bind_eq_some_iff.1 he
  obtain ⟨v, -, he⟩ := Option.bind_eq_some_iff.1 he
  exact ⟨v.2, arg, refreshFullOutputArgs_spec hargs hrefreshed idx arg harg,
    (Option.some.inj he).symm⟩

/-- The output variable of each pair is spelled after its input variable. -/
def SpelledPairs (s : ChcCtx) : Prop :=
  ∀ (idx : ℕ) (v w : String × SmtSort), s.stateVarMgr.stateVars[idx]? = some v →
    s.stateVarMgr.outputStateVars[idx]? = some w →
    ∃ base, v.1 ∈ spellings base ∧ w.1 ∈ spellings base

theorem standsFor_of_inputVar {idx : ℕ} {e : Expr} (h : s.inputVar idx = some e) :
    s.StandsFor idx e := by
  obtain ⟨⟨n, sort⟩, hv, rfl⟩ := Option.map_eq_some_iff.1 h
  exact standsFor_inputVar hv

theorem standsFor_coerceColumn {idx : ℕ} {sort : SmtSort} {e : Expr} (h : s.Agrees)
    (hpairs : s.SpelledPairs) (he : s.inputVar idx = some e ∨ s.outputVar idx = some e) :
    s.StandsFor idx (s.coerceColumn idx sort e) := by
  have hvar : ∃ v base n sort', s.stateVarMgr.stateVars[idx]? = some v ∧ v.1 ∈ spellings base ∧
      n ∈ spellings base ∧ e = .var n sort' := by
    rcases he with he | he
    · obtain ⟨v, hv, rfl⟩ := Option.map_eq_some_iff.1 he
      exact ⟨v, v.1, v.1, v.2, hv, .inl rfl, .inl rfl, rfl⟩
    · obtain ⟨w, hw, rfl⟩ := Option.map_eq_some_iff.1 he
      have hlt := h.paired ▸ (List.getElem?_eq_some_iff.1 hw).1
      obtain ⟨v, hv⟩ : ∃ v, s.stateVarMgr.stateVars[idx]? = some v :=
        ⟨_, List.getElem?_eq_getElem hlt⟩
      obtain ⟨base, hvb, hwb⟩ := hpairs idx v w hv hw
      exact ⟨v, base, w.1, w.2, hv, hvb, hwb, rfl⟩
  obtain ⟨v, base, n, sort', hv, hvb, hnb, rfl⟩ := hvar
  refine ⟨v, base, n, sort', hv, hvb, hnb, ?_⟩
  unfold coerceColumn
  split_ifs
  · exact .inr ⟨_, rfl⟩
  · exact .inr ⟨_, rfl⟩
  · exact .inl rfl

/-- Emission keeps agreement. -/
theorem Agrees.emitGotoRule {s' : ChcCtx} {app : RelationApp} {bb target : ℕ} {live : List ℕ}
    {outputArgs constraints : List Expr} (h : s.Agrees) (hpairs : s.SpelledPairs)
    (hbb : s.relNameToBb.lookup app.name = some bb)
    (hlive : s.stateVarMgr.liveStateIndices[bb]? = some live)
    (hpre : List.Forall₂ (fun idx e => s.inputVar idx = some e) (live.take app.args.length)
      app.args)
    (hback : ∀ bb' name, s.relNameToBb.lookup name = some bb' ↔
      s.blockRelations.lookup bb' = some name)
    (hargs : ∀ idx e, outputArgs[idx]? = some e →
      s.inputVar idx = some e ∨ s.outputVar idx = some e)
    (hs' : s.emitGotoRule app target outputArgs constraints = some s') : s'.Agrees := by
  simp only [ChcCtx.emitGotoRule, Option.bind_eq_bind, Option.bind_eq_some_iff] at hs'
  obtain ⟨app', happ', toRel, hto, projected, hproj, hs'⟩ := hs'
  obtain rfl := Option.some.inj hs'
  obtain ⟨hsame, hbody⟩ := refreshBlockRelationApp_spec hbb hlive hpre happ'
  refine ⟨h.paired, h.live_lt, h.live_nodup, h.framed, h.declared, h.arity, ?_, ?_⟩
  · intro r hr a ha bb' live' hf
    rcases List.mem_append.1 hr with hr | hr
    · exact h.body r hr a ha bb' live' hf
    · obtain rfl := List.mem_singleton.1 hr
      obtain rfl := Option.some.inj ha
      have hbb' := (hback bb' _).2 hf.1
      rw [hsame] at hbb'
      obtain rfl := Option.some.inj (hbb.symm.trans hbb')
      obtain rfl := Option.some.inj (hlive.symm.trans hf.2)
      exact hbody.imp fun idx e => standsFor_of_inputVar
  · intro r hr bb' live' hf
    rcases List.mem_append.1 hr with hr | hr
    · exact h.head r hr bb' live' hf
    · obtain rfl := List.mem_singleton.1 hr
      have hto' := (hback target toRel).2 hto
      obtain rfl := Option.some.inj (hto'.symm.trans ((hback bb' toRel).2 hf.1))
      refine (projectFullOutputToBlock_spec hargs hf.2 hproj).imp ?_
      rintro idx e ⟨sort, e', he', rfl⟩
      exact standsFor_coerceColumn (s := s) h hpairs he'

end ChcCtx

end TrustMc.LateState
