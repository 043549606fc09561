import TrustMc.LateState.Context

/-!
# Late state is threaded through every block relation

`ChcCtx.Agrees` is the agreement between the live lists, the declarations and the emitted
rules. `Threaded s₀ s` adds what has to hold of the columns that came in since `s₀`: an
emitted rule takes the variable in its body as the input variable and hands it on with the
value it has at the end of the rule.

The late additions keep this where `LateAddition.Safe` holds. What it excludes is the two
slips of `ensure_local_live_at_block`: a variable that is live at some blocks only is added
to the live lists that lack it but to the relations of all blocks
(`not_agrees_of_live_somewhere`), and the head of an emitted rule gets the input variable
also when the rule constrains the output variable (`not_threaded_of_constrained`).
-/

namespace TrustMc.LateState

namespace ChcCtx

/-! ### Agreement -/

/-- The block has this relation and this live list. -/
def Frame (s : ChcCtx) (bb : ℕ) (name : String) (live : List ℕ) : Prop :=
  s.blockRelations.lookup bb = some name ∧ s.stateVarMgr.liveStateIndices[bb]? = some live

/-- The names one state variable goes by: fragments rename inputs and outputs while their
blocks are composed. -/
def spellings (base : String) : Set String :=
  {n | n = base ∨ n = base ++ "__in" ∨ n = base ++ "__out" ∨
    ∃ bb : ℕ, n = base ++ "__mid_bb" ++ toString bb}

/-- The argument is a spelling of the state variable, coerced where the column asks for it. -/
def StandsFor (s : ChcCtx) (idx : ℕ) (e : Expr) : Prop :=
  ∃ v base n sort, s.stateVarMgr.stateVars[idx]? = some v ∧ v.1 ∈ spellings base ∧
    n ∈ spellings base ∧ (e = .var n sort ∨ ∃ op, e = .app op [.var n sort])

/-- The rule constrains the output variable of the state index. -/
def Constrains (s : ChcCtx) (r : Rule) (idx : ℕ) : Prop :=
  ∃ v ∈ s.stateVarMgr.outputStateVars[idx]?, ∃ c ∈ r.body.constraints, v.1 ∈ c.freeVars

instance (s : ChcCtx) (r : Rule) (idx : ℕ) : Decidable (s.Constrains r idx) := by
  unfold Constrains
  infer_instance

/-- The variable that holds the value of the state index at the end of the rule. -/
def endVar (s : ChcCtx) (r : Rule) (idx : ℕ) : Option Expr :=
  if s.Constrains r idx then s.outputVar idx else s.inputVar idx

/-- The live lists, the declarations and the emitted rules agree, with `B` of the arguments
in bodies and `H` of the arguments in heads, column by column. -/
structure AgreesOn (s : ChcCtx) (B H : Rule → ℕ → ℕ → Expr → Prop) : Prop where
  /-- State variables come in pairs. -/
  paired : s.stateVarMgr.outputStateVars.length = s.stateVarMgr.stateVars.length
  /-- Live lists hold state indices. -/
  live_lt : ∀ live ∈ s.stateVarMgr.liveStateIndices, ∀ idx ∈ live,
    idx < s.stateVarMgr.stateVars.length
  /-- No variable is live twice at a block. -/
  live_nodup : ∀ live ∈ s.stateVarMgr.liveStateIndices, live.Nodup
  /-- A block with a relation has a live list. -/
  framed : ∀ bb name, s.blockRelations.lookup bb = some name → ∃ live, s.Frame bb name live
  /-- Block relations are declared. -/
  declared : ∀ bb name live, s.Frame bb name live → ∃ d ∈ s.vc.relations, d.name = name
  /-- The declared arity is the length of the live list. -/
  arity : ∀ bb name live, s.Frame bb name live → ∀ d ∈ s.vc.relations, d.name = name →
    d.argSorts.length = live.length
  /-- The arguments of a body, by the live list of its block. -/
  body : ∀ r ∈ s.vc.rules, ∀ app, r.body.relation = some app → ∀ bb live,
    s.Frame bb app.name live → List.Forall₂ (B r bb) live app.args
  /-- The arguments of a head, by the live list of its block. -/
  head : ∀ r ∈ s.vc.rules, ∀ bb live, s.Frame bb r.head.name live →
    List.Forall₂ (H r bb) live r.head.args

/-- The live lists, the declarations and the emitted rules agree: the `i`-th argument stands
for the `i`-th live variable. -/
def Agrees (s : ChcCtx) : Prop :=
  s.AgreesOn (fun _ _ idx e => s.StandsFor idx e) fun _ _ idx e => s.StandsFor idx e

/-- The state index is not live at the block. -/
def NotLive (s : ChcCtx) (bb idx : ℕ) : Prop :=
  ∀ live, s.stateVarMgr.liveStateIndices[bb]? = some live → idx ∉ live

/-- Agreement, and the columns that came in since `s₀` hold the input variable in a body and
the value at the end of the rule in a head. -/
def Threaded (s₀ s : ChcCtx) : Prop :=
  s.AgreesOn
    (fun _ bb idx e => s.StandsFor idx e ∧ (s₀.NotLive bb idx → s.inputVar idx = some e))
    fun r bb idx e => s.StandsFor idx e ∧ (s₀.NotLive bb idx → s.endVar r idx = some e)

/-! ### Safe additions -/

/-- The name is constrained in no rule that is already emitted into a block relation. -/
def Unconstrained (s : ChcCtx) (outName : String) : Prop :=
  ∀ r ∈ s.vc.rules, r.head.name ∈ s.blockRelNames → ∀ c ∈ r.body.constraints,
    outName ∉ c.freeVars

/-- The state index is live everywhere, or at no block with a relation and then not yet
constrained. -/
def SafeSlot (s : ChcCtx) (idx : ℕ) : Prop :=
  (∀ live ∈ s.stateVarMgr.liveStateIndices, idx ∈ live) ∨
    (∀ bb name live, s.Frame bb name live → idx ∉ live) ∧
      ∀ v ∈ s.stateVarMgr.outputStateVars[idx]?, s.Unconstrained v.1

end ChcCtx

/-- What a late addition needs to keep everything threaded. -/
def LateAddition.Safe (s : ChcCtx) : LateAddition → Prop
  | stateVarPair inName outName _ =>
    s.stateVarMgr.stateVarNameIndex.lookup inName = none →
      s.Unconstrained (s.lateOutName inName outName)
  | collectionAux inName outName _ =>
    s.stateVarMgr.stateVarNameIndex.lookup inName = none → s.Unconstrained outName
  | ensureLocalLive localIdx _ =>
    ∀ base, s.tryStateIdxForLocal localIdx = some base → ∀ k < s.slotCount localIdx,
      base + k < s.stateVarMgr.stateVars.length → s.SafeSlot (base + k)

namespace ChcCtx

variable {s s₀ : ChcCtx}

theorem mem_blockRelNames {name : String} :
    name ∈ s.blockRelNames ↔ ∃ bb, s.blockRelations.lookup bb = some name := by
  unfold blockRelNames
  simp only [List.mem_map, ← Option.mem_def, AList.mem_lookup_iff]
  constructor
  · rintro ⟨⟨bb, n⟩, h, rfl⟩
    exact ⟨bb, h⟩
  · rintro ⟨bb, h⟩
    exact ⟨⟨bb, name⟩, h, rfl⟩

theorem Frame.mem_blockRelNames {bb : ℕ} {name : String} {live : List ℕ}
    (h : s.Frame bb name live) : name ∈ s.blockRelNames :=
  ChcCtx.mem_blockRelNames.2 ⟨bb, h.1⟩

theorem Frame.mem {bb : ℕ} {name : String} {live : List ℕ} (h : s.Frame bb name live) :
    live ∈ s.stateVarMgr.liveStateIndices :=
  List.mem_of_getElem? h.2

/-! ### Columns -/

theorem AgreesOn.mono {B H B' H' : Rule → ℕ → ℕ → Expr → Prop} (h : s.AgreesOn B H)
    (hB : ∀ r bb name live, s.Frame bb name live → ∀ idx ∈ live, ∀ e, B r bb idx e → B' r bb idx e)
    (hH : ∀ r bb name live, s.Frame bb name live → ∀ idx ∈ live, ∀ e,
      H r bb idx e → H' r bb idx e) :
    s.AgreesOn B' H' where
  paired := h.paired
  live_lt := h.live_lt
  live_nodup := h.live_nodup
  framed := h.framed
  declared := h.declared
  arity := h.arity
  body := fun r hr app happ bb live hf =>
    ((List.forall₂_and_left live _).2 ⟨fun _ hi => hi, h.body r hr app happ bb live hf⟩).imp
      fun idx e hie => hB r bb _ live hf idx hie.1 e hie.2
  head := fun r hr bb live hf =>
    ((List.forall₂_and_left live _).2 ⟨fun _ hi => hi, h.head r hr bb live hf⟩).imp
      fun idx e hie => hH r bb _ live hf idx hie.1 e hie.2

theorem Frame.not_notLive {bb idx : ℕ} {name : String} {live : List ℕ}
    (h : s.Frame bb name live) (hidx : idx ∈ live) : ¬ s.NotLive bb idx :=
  fun hn => hn live h.2 hidx

/-- Nothing came in yet: threading is agreement. -/
theorem threaded_self_iff : s.Threaded s ↔ s.Agrees := by
  constructor
  · intro h
    exact h.mono (fun _ _ _ _ _ _ _ _ h => h.1) fun _ _ _ _ _ _ _ _ h => h.1
  · intro h
    exact h.mono (fun _ _ _ _ hf _ hi _ hs => ⟨hs, fun hn => absurd hn (hf.not_notLive hi)⟩)
      fun _ _ _ _ hf _ hi _ hs => ⟨hs, fun hn => absurd hn (hf.not_notLive hi)⟩

theorem Threaded.agrees (h : s₀.Threaded s) : s.Agrees :=
  h.mono (fun _ _ _ _ _ _ _ _ h => h.1) fun _ _ _ _ _ _ _ _ h => h.1

/-- The state variable under its own name. -/
theorem standsFor_inputVar {idx : ℕ} {n : String} {sort : SmtSort}
    (hv : s.stateVarMgr.stateVars[idx]? = some (n, sort)) : s.StandsFor idx (.var n sort) :=
  ⟨(n, sort), n, n, sort, hv, .inl rfl, .inl rfl, .inl rfl⟩

/-- What `mapLive` and `appendColumn` make of a block's frame. -/
theorem frame_appendColumn {f : List ℕ → List ℕ} {n : String} {sort : SmtSort} {bb : ℕ}
    {name : String} {live : List ℕ} :
    ((s.mapLive f).appendColumn n sort).Frame bb name live ↔
      ∃ old, s.Frame bb name old ∧ live = f old := by
  unfold Frame
  simp only [appendColumn, mapLive, List.getElem?_map, Option.map_eq_some_iff]
  constructor
  · rintro ⟨hname, old, hold, rfl⟩
    exact ⟨old, ⟨hname, hold⟩, rfl⟩
  · rintro ⟨old, ⟨hname, hold⟩, rfl⟩
    exact ⟨hname, old, hold, rfl⟩

theorem Frame.appendColumn {f : List ℕ → List ℕ} {n : String} {sort : SmtSort} {bb : ℕ}
    {name : String} {live : List ℕ} (h : s.Frame bb name live) :
    ((s.mapLive f).appendColumn n sort).Frame bb name (f live) :=
  frame_appendColumn.2 ⟨live, h, rfl⟩

theorem mem_rules_appendColumn {f : List ℕ → List ℕ} {n : String} {sort : SmtSort} {r' : Rule} :
    r' ∈ ((s.mapLive f).appendColumn n sort).vc.rules ↔
      ∃ r ∈ s.vc.rules, passThrough s.blockRelNames (.var n sort) r = r' :=
  List.mem_map

theorem mem_relations_appendColumn {f : List ℕ → List ℕ} {n : String} {sort : SmtSort}
    {d' : RelationDecl} :
    d' ∈ ((s.mapLive f).appendColumn n sort).vc.relations ↔
      ∃ d ∈ s.vc.relations, appendSort s.blockRelNames sort d = d' :=
  List.mem_map

@[simp]
theorem name_appendArg {names : List String} {arg : Expr} {app : RelationApp} :
    (appendArg names arg app).name = app.name := by
  unfold appendArg
  split <;> rfl

@[simp]
theorem name_appendSort {names : List String} {sort : SmtSort} {d : RelationDecl} :
    (appendSort names sort d).name = d.name := by
  unfold appendSort
  split <;> rfl

theorem args_appendArg {names : List String} {arg : Expr} {app : RelationApp}
    (h : app.name ∈ names) : (appendArg names arg app).args = app.args ++ [arg] := by
  rw [appendArg, if_pos h]

/-- A live list that gets the state index where it lacks it. -/
def addLive (idx : ℕ) (live : List ℕ) : List ℕ := if idx ∈ live then live else live ++ [idx]

theorem mem_addLive {idx i : ℕ} {live : List ℕ} : i ∈ addLive idx live ↔ i ∈ live ∨ i = idx := by
  unfold addLive
  split
  · refine ⟨.inl, fun h => h.elim id fun h => ?_⟩
    rw [h]
    assumption
  · simp

theorem nodup_addLive {idx : ℕ} {live : List ℕ} (h : live.Nodup) : (addLive idx live).Nodup := by
  unfold addLive
  split
  · exact h
  · next hidx =>
    exact List.nodup_append.2 ⟨h, List.nodup_singleton idx, fun a ha b hb hab =>
      hidx (by rw [← List.mem_singleton.1 hb, ← hab]; exact ha)⟩

/-- One more column everywhere, for a variable that is live at no block with a relation. -/
theorem AgreesOn.appendColumn {B H B' H' : Rule → ℕ → ℕ → Expr → Prop} {idx : ℕ} {n : String}
    {sort : SmtSort} (h : s.AgreesOn B H) (hidx : idx < s.stateVarMgr.stateVars.length)
    (hfree : ∀ bb name live, s.Frame bb name live → idx ∉ live)
    (hB : ∀ r bb i e, B r bb i e → B' (passThrough s.blockRelNames (.var n sort) r) bb i e)
    (hH : ∀ r bb i e, H r bb i e → H' (passThrough s.blockRelNames (.var n sort) r) bb i e)
    (hB' : ∀ r bb, B' (passThrough s.blockRelNames (.var n sort) r) bb idx (.var n sort))
    (hH' : ∀ r ∈ s.vc.rules, r.head.name ∈ s.blockRelNames → ∀ bb,
      H' (passThrough s.blockRelNames (.var n sort) r) bb idx (.var n sort)) :
    ((s.mapLive (addLive idx)).appendColumn n sort).AgreesOn B' H' where
  paired := h.paired
  live_lt := by
    intro live hlive i hi
    obtain ⟨old, hold, rfl⟩ := List.mem_map.1 hlive
    rcases mem_addLive.1 hi with hi | rfl
    · exact h.live_lt old hold i hi
    · exact hidx
  live_nodup := by
    intro live hlive
    obtain ⟨old, hold, rfl⟩ := List.mem_map.1 hlive
    exact nodup_addLive (h.live_nodup old hold)
  framed := by
    intro bb name hname
    obtain ⟨live, hlive⟩ := h.framed bb name hname
    exact ⟨addLive idx live, hlive.appendColumn⟩
  declared := by
    intro bb name live hf
    obtain ⟨old, hold, rfl⟩ := frame_appendColumn.1 hf
    obtain ⟨d, hd, rfl⟩ := h.declared bb name old hold
    exact ⟨_, mem_relations_appendColumn.2 ⟨d, hd, rfl⟩, name_appendSort⟩
  arity := by
    intro bb name live hf d' hd' hname
    obtain ⟨old, hold, rfl⟩ := frame_appendColumn.1 hf
    obtain ⟨d, hd, rfl⟩ := mem_relations_appendColumn.1 hd'
    rw [name_appendSort] at hname
    have hin : d.name ∈ s.blockRelNames := hname ▸ hold.mem_blockRelNames
    have hlen := h.arity bb name old hold d hd hname
    simp [appendSort, hin, addLive, hfree bb name old hold, hlen]
  body := by
    intro r' hr' app' happ' bb live hf
    obtain ⟨r, hr, rfl⟩ := mem_rules_appendColumn.1 hr'
    obtain ⟨app, happ, rfl⟩ := Option.map_eq_some_iff.1 happ'
    obtain ⟨old, hold, rfl⟩ := frame_appendColumn.1 hf
    rw [name_appendArg] at hold
    have hcols := h.body r hr app happ bb old hold
    rw [args_appendArg hold.mem_blockRelNames, addLive, if_neg (hfree bb _ old hold)]
    exact List.rel_append (hcols.imp (hB r bb)) (.cons (hB' r bb) .nil)
  head := by
    intro r' hr' bb live hf
    obtain ⟨r, hr, rfl⟩ := mem_rules_appendColumn.1 hr'
    obtain ⟨old, hold, rfl⟩ := frame_appendColumn.1 hf
    rw [passThrough, name_appendArg] at hold
    have hcols := h.head r hr bb old hold
    have hin := hold.mem_blockRelNames
    rw [passThrough, args_appendArg hin, addLive, if_neg (hfree bb _ old hold)]
    exact List.rel_append (hcols.imp (hH r bb)) (.cons (hH' r hr hin bb) .nil)

/-! ### One late addition -/

/-- A state variable pair that no relation takes yet. -/
def pushPair (s : ChcCtx) (m : StateVarManager) : ChcCtx := { s with stateVarMgr := m }

theorem inputVar_append {idx : ℕ} {v : String × SmtSort} {m : StateVarManager}
    (hm : m.stateVars = s.stateVarMgr.stateVars ++ [v])
    (hidx : idx < s.stateVarMgr.stateVars.length) :
    (s.pushPair m).inputVar idx = s.inputVar idx := by
  simp [inputVar, pushPair, hm, List.getElem?_append_left hidx]

theorem endVar_append {idx : ℕ} {v w : String × SmtSort} {m : StateVarManager}
    (hm : m.stateVars = s.stateVarMgr.stateVars ++ [v])
    (hw : m.outputStateVars = s.stateVarMgr.outputStateVars ++ [w])
    (hidx : idx < s.stateVarMgr.stateVars.length)
    (hlen : s.stateVarMgr.outputStateVars.length = s.stateVarMgr.stateVars.length) (r : Rule) :
    (s.pushPair m).endVar r idx = s.endVar r idx := by
  have hout : (s.stateVarMgr.outputStateVars ++ [w])[idx]? = s.stateVarMgr.outputStateVars[idx]? :=
    List.getElem?_append_left (hlen ▸ hidx)
  have hiff : (s.pushPair m).Constrains r idx ↔ s.Constrains r idx := by
    simp only [Constrains, pushPair, hw, hout]
  simp only [endVar, hiff, inputVar_append hm hidx]
  simp only [outputVar, pushPair, hw, hout]

/-- A new pair of state variables leaves what is threaded alone. -/
theorem Threaded.pushPair {v w : String × SmtSort} {m : StateVarManager} (h : s₀.Threaded s)
    (hm : m.stateVars = s.stateVarMgr.stateVars ++ [v])
    (hw : m.outputStateVars = s.stateVarMgr.outputStateVars ++ [w])
    (hlive : m.liveStateIndices = s.stateVarMgr.liveStateIndices) :
    s₀.Threaded (s.pushPair m) := by
  have hlt : ∀ {bb name live idx}, s.Frame bb name live → idx ∈ live →
      idx < s.stateVarMgr.stateVars.length := fun hf hi => h.live_lt _ hf.mem _ hi
  have hframe : ∀ bb name live, (s.pushPair m).Frame bb name live ↔ s.Frame bb name live := by
    intro bb name live
    simp only [Frame, ChcCtx.pushPair, hlive]
  have hstands : ∀ {idx e}, s.StandsFor idx e → (s.pushPair m).StandsFor idx e := by
    rintro idx e ⟨u, base, n, sort, hu, hrest⟩
    refine ⟨u, base, n, sort, ?_, hrest⟩
    have hidx := (List.getElem?_eq_some_iff.1 hu).1
    simpa [ChcCtx.pushPair, hm, List.getElem?_append_left hidx] using hu
  have hold : s.AgreesOn
      (fun _ bb idx e => (s.pushPair m).StandsFor idx e ∧
        (s₀.NotLive bb idx → (s.pushPair m).inputVar idx = some e))
      fun r bb idx e => (s.pushPair m).StandsFor idx e ∧
        (s₀.NotLive bb idx → (s.pushPair m).endVar r idx = some e) := by
    refine h.mono (fun r bb name live hf idx hi e hie => ⟨hstands hie.1, fun hn => ?_⟩)
      fun r bb name live hf idx hi e hie => ⟨hstands hie.1, fun hn => ?_⟩
    · rw [inputVar_append hm (hlt hf hi)]
      exact hie.2 hn
    · rw [endVar_append hm hw (hlt hf hi) h.paired]
      exact hie.2 hn
  exact
    { paired := by simp [ChcCtx.pushPair, hm, hw, hold.paired]
      live_lt := fun live hl idx hi => by
        have := hold.live_lt live (hlive ▸ hl) idx hi
        simp only [ChcCtx.pushPair, hm, List.length_append]
        omega
      live_nodup := fun live hl => hold.live_nodup live (hlive ▸ hl)
      framed := fun bb name hname => (hold.framed bb name hname).imp fun _ => (hframe _ _ _).2
      declared := fun bb name live hf => hold.declared bb name live ((hframe _ _ _).1 hf)
      arity := fun bb name live hf => hold.arity bb name live ((hframe _ _ _).1 hf)
      body := fun r hr app happ bb live hf => hold.body r hr app happ bb live ((hframe _ _ _).1 hf)
      head := fun r hr bb live hf => hold.head r hr bb live ((hframe _ _ _).1 hf) }

/-- One more column, for a variable that is live at no block with a relation and whose output
no emitted rule constrains. -/
theorem Threaded.appendColumn {idx : ℕ} {v w : String × SmtSort} (h : s₀.Threaded s)
    (hv : s.stateVarMgr.stateVars[idx]? = some v)
    (hw : s.stateVarMgr.outputStateVars[idx]? = some w)
    (hfree : ∀ bb name live, s.Frame bb name live → idx ∉ live) (hun : s.Unconstrained w.1) :
    s₀.Threaded ((s.mapLive (addLive idx)).appendColumn v.1 v.2) := by
  have hinput : s.inputVar idx = some (.var v.1 v.2) := by simp [inputVar, hv]
  refine AgreesOn.appendColumn h (List.getElem?_eq_some_iff.1 hv).1 hfree
    (fun _ _ _ _ hcol => hcol) (fun _ _ _ _ hcol => hcol)
    (fun _ _ => ⟨standsFor_inputVar hv, fun _ => hinput⟩) fun r hr hin bb =>
      ⟨standsFor_inputVar hv, fun _ => ?_⟩
  have hnot : ¬ s.Constrains r idx := by
    rintro ⟨w', hw', c, hc, hmem⟩
    obtain rfl := Option.some.inj (hw.symm.trans hw')
    exact hun r hr hin c hc hmem
  exact (if_neg hnot).trans hinput

theorem Threaded.ensureSlotLive {idx : ℕ} (h : s₀.Threaded s) (hsafe : s.SafeSlot idx) :
    s₀.Threaded (s.ensureSlotLive idx) := by
  unfold ChcCtx.ensureSlotLive
  split_ifs with hall
  · exact h
  · rcases hsafe with hlive | ⟨hfree, hun⟩
    · exact absurd hlive hall
    · cases hv : s.stateVarMgr.stateVars[idx]? with
      | none => exact h
      | some v =>
        have hlt : idx < s.stateVarMgr.outputStateVars.length :=
          h.paired ▸ (List.getElem?_eq_some_iff.1 hv).1
        have hw := List.getElem?_eq_getElem hlt
        exact h.appendColumn hv hw hfree (hun _ hw)

theorem ensureSlotLive_eq (s : ChcCtx) (idx : ℕ) :
    s.ensureSlotLive idx = s ∨
      ∃ n sort, s.ensureSlotLive idx = (s.mapLive (addLive idx)).appendColumn n sort := by
  unfold ChcCtx.ensureSlotLive
  split_ifs
  · exact .inl rfl
  · split
    · exact .inr ⟨_, _, rfl⟩
    · exact .inl rfl

/-- What is not constrained stays so: emitted rules keep their constraints. -/
theorem Unconstrained.appendColumn {f : List ℕ → List ℕ} {n out : String} {sort : SmtSort}
    (h : s.Unconstrained out) : ((s.mapLive f).appendColumn n sort).Unconstrained out := by
  intro r' hr' hin c hc
  obtain ⟨r, hr, rfl⟩ := mem_rules_appendColumn.1 hr'
  rw [passThrough, name_appendArg] at hin
  exact h r hr hin c hc

/-- Adding one slot does not affect what the others need. -/
theorem SafeSlot.ensureSlotLive {idx j : ℕ} (h : s.SafeSlot j) (hj : j ≠ idx) :
    (s.ensureSlotLive idx).SafeSlot j := by
  rcases ensureSlotLive_eq s idx with heq | ⟨n, sort, heq⟩ <;> rw [heq]
  · exact h
  · rcases h with hall | ⟨hfree, hun⟩
    · refine .inl fun live hlive => ?_
      obtain ⟨old, hold, rfl⟩ := List.mem_map.1 hlive
      exact mem_addLive.2 (.inl (hall old hold))
    · refine .inr ⟨fun bb name live hf hmem => ?_, fun v hv => (hun v hv).appendColumn⟩
      obtain ⟨old, hold, rfl⟩ := frame_appendColumn.1 hf
      exact hfree bb name old hold ((mem_addLive.1 hmem).resolve_right hj)

theorem stateVars_ensureSlotLive (s : ChcCtx) (idx : ℕ) :
    (s.ensureSlotLive idx).stateVarMgr.stateVars = s.stateVarMgr.stateVars := by
  rcases ensureSlotLive_eq s idx with heq | ⟨n, sort, heq⟩ <;> rw [heq]
  rfl

/-- The slots of one local, in a row. -/
theorem Threaded.ensureSlotsLive {n : ℕ} : ∀ {s : ChcCtx} {idx : ℕ}, s₀.Threaded s →
    (∀ k < n, idx + k < s.stateVarMgr.stateVars.length → s.SafeSlot (idx + k)) →
    s₀.Threaded (s.ensureSlotsLive idx n) := by
  induction n with
  | zero => exact fun h _ => h
  | succ n ih =>
    intro s idx h hsafe
    unfold ChcCtx.ensureSlotsLive
    split_ifs with hlen
    · exact h
    · have hfirst : s.SafeSlot idx := hsafe 0 (Nat.succ_pos n) (by omega)
      refine ih (h.ensureSlotLive hfirst) fun k hk hlt => ?_
      rw [stateVars_ensureSlotLive] at hlt
      have hnext : s.SafeSlot (idx + (k + 1)) := hsafe (k + 1) (by omega) (by omega)
      rw [show idx + 1 + k = idx + (k + 1) by omega]
      exact hnext.ensureSlotLive (by omega)

theorem Threaded.ensureLocalLiveAtBlock {localIdx bb : ℕ} (h : s₀.Threaded s)
    (hsafe : (LateAddition.ensureLocalLive localIdx bb).Safe s) :
    s₀.Threaded (s.ensureLocalLiveAtBlock localIdx bb) := by
  unfold ChcCtx.ensureLocalLiveAtBlock
  split
  · exact h
  · next base hbase => exact h.ensureSlotsLive (hsafe base hbase)

/-- The manager after a name is pushed that was not known. -/
theorem pushStateVarPairArc_fresh {m m' : StateVarManager} {inName outName : String}
    {sort : SmtSort} (hfresh : m.stateVarNameIndex.lookup inName = none)
    (h : m.pushStateVarPairArc inName outName sort = some m') :
    m'.stateVars = m.stateVars ++ [(inName, sort)] ∧
      m'.outputStateVars = m.outputStateVars ++ [(outName, sort)] ∧
      m'.liveStateIndices = m.liveStateIndices := by
  simp only [StateVarManager.pushStateVarPairArc, hfresh, Option.some.injEq] at h
  subst h
  exact ⟨rfl, rfl, rfl⟩

theorem pushStateVarPairArc_known {m m' : StateVarManager} {inName outName : String}
    {sort : SmtSort} {existing : ℕ} (hknown : m.stateVarNameIndex.lookup inName = some existing)
    (h : m.pushStateVarPairArc inName outName sort = some m') : m' = m := by
  simp only [StateVarManager.pushStateVarPairArc, hknown, Option.ite_none_right_eq_some] at h
  exact (Option.some.inj h.2).symm

/-- Variables still to be declared are read by no relation. -/
theorem Threaded.pushPendingVarDecl {n : String} {sort : SmtSort} (h : s₀.Threaded s) :
    s₀.Threaded (s.pushPendingVarDecl n sort) :=
  ⟨h.paired, h.live_lt, h.live_nodup, h.framed, h.declared, h.arity, h.body, h.head⟩

/-- A fresh pair, then its column: what both late pushes do with a name that is not known. -/
theorem Threaded.extend {m : StateVarManager} {inName outName : String} {sort : SmtSort}
    {s' : ChcCtx} (h : s₀.Threaded s)
    (hfresh : s.stateVarMgr.stateVarNameIndex.lookup inName = none)
    (hm : s.stateVarMgr.pushStateVarPairArc inName outName sort = some m)
    (hun : s.Unconstrained outName)
    (hs' : (s.pushPair m).extendBlockRelationsForLateStateVar inName = some s') :
    s₀.Threaded s' := by
  obtain ⟨hv, hw, hlive⟩ := pushStateVarPairArc_fresh hfresh hm
  have hpush := h.pushPair hv hw hlive
  -- the index of the new pair is one that no live list holds
  have hnew : m.stateVars.length - 1 = s.stateVarMgr.stateVars.length := by simp [hv]
  have hget : m.stateVars[s.stateVarMgr.stateVars.length]? = some (inName, sort) := by simp [hv]
  have hnotin : ∀ live ∈ m.liveStateIndices, s.stateVarMgr.stateVars.length ∉ live := by
    intro live hl hmem
    exact lt_irrefl _ (h.live_lt live (hlive ▸ hl) _ hmem)
  simp only [extendBlockRelationsForLateStateVar, ChcCtx.pushPair, hnew, hget,
    Option.map_some, Option.some.injEq] at hs'
  subst hs'
  have hmap : (s.pushPair m).mapLive (fun live => live ++ [s.stateVarMgr.stateVars.length]) =
      (s.pushPair m).mapLive (addLive s.stateVarMgr.stateVars.length) := by
    simp only [mapLive, ChcCtx.pushPair]
    congr 2
    refine List.map_congr_left fun live hl => ?_
    rw [addLive, if_neg (hnotin live hl)]
  have hout : m.outputStateVars[s.stateVarMgr.stateVars.length]? = some (outName, sort) := by
    simp [hw, ← h.paired]
  have hcol := hpush.appendColumn hget hout (fun bb name live hf => hnotin live hf.mem) hun
  rw [← hmap] at hcol
  exact hcol

theorem Threaded.pushLateStateVarPair {inName outName : String} {sort : SmtSort} {s' : ChcCtx}
    (h : s₀.Threaded s) (hsafe : (LateAddition.stateVarPair inName outName sort).Safe s)
    (hs' : s.pushLateStateVarPair inName outName sort = some s') : s₀.Threaded s' := by
  simp only [ChcCtx.pushLateStateVarPair, Option.bind_eq_bind, Option.bind_eq_some_iff] at hs'
  obtain ⟨m, hm, hs'⟩ := hs'
  cases hlook : s.stateVarMgr.stateVarNameIndex.lookup inName with
  | some existing =>
    obtain rfl := pushStateVarPairArc_known hlook hm
    rw [if_neg (by simp [ChcCtx.pushPendingVarDecl])] at hs'
    obtain rfl := Option.some.inj hs'
    exact h.pushPendingVarDecl.pushPendingVarDecl
  | none =>
    obtain ⟨hv, -, -⟩ := pushStateVarPairArc_fresh hlook hm
    rw [if_pos (by simp [hv, ChcCtx.pushPendingVarDecl])] at hs'
    obtain ⟨v, hget, hs'⟩ := Option.bind_eq_some_iff.1 hs'
    have hvname : v = (inName, sort) := by
      simpa [hv, ChcCtx.pushPendingVarDecl, eq_comm] using hget
    subst hvname
    exact h.pushPendingVarDecl.pushPendingVarDecl.extend hlook hm (hsafe hlook) hs'

theorem Threaded.pushLateCollectionAuxVar {inName outName : String} {sort : SmtSort} {s' : ChcCtx}
    (h : s₀.Threaded s) (hsafe : (LateAddition.collectionAux inName outName sort).Safe s)
    (hs' : s.pushLateCollectionAuxVar inName outName sort = some s') : s₀.Threaded s' := by
  unfold ChcCtx.pushLateCollectionAuxVar at hs'
  split_ifs at hs' with hknown
  · obtain rfl := Option.some.inj hs'
    exact h
  · have hlook : s.stateVarMgr.stateVarNameIndex.lookup inName = none := by
      simpa using hknown
    simp only [Option.bind_eq_bind, Option.bind_eq_some_iff] at hs'
    obtain ⟨m, hm, v, hget, hs'⟩ := hs'
    obtain ⟨hv, -, -⟩ := pushStateVarPairArc_fresh hlook hm
    have hvname : v = (inName, sort) := by
      simpa [hv, ChcCtx.pushPendingVarDecl, eq_comm] using hget
    subst hvname
    exact h.pushPendingVarDecl.pushPendingVarDecl.extend hlook hm (hsafe hlook) hs'

/-- One late addition keeps everything threaded. -/
theorem Threaded.apply {op : LateAddition} {s' : ChcCtx} (h : s₀.Threaded s) (hsafe : op.Safe s)
    (hs' : op.apply s = some s') : s₀.Threaded s' := by
  cases op with
  | stateVarPair inName outName sort => exact h.pushLateStateVarPair hsafe hs'
  | collectionAux inName outName sort => exact h.pushLateCollectionAuxVar hsafe hs'
  | ensureLocalLive localIdx bb =>
    obtain rfl := Option.some.inj hs'
    exact h.ensureLocalLiveAtBlock hsafe

/-! ### What an unsafe addition breaks -/

theorem ensureSlotLive_of_lacking {idx : ℕ} {v : String × SmtSort} {lacking : List ℕ}
    (hv : s.stateVarMgr.stateVars[idx]? = some v)
    (hlacking : lacking ∈ s.stateVarMgr.liveStateIndices) (hnot : idx ∉ lacking) :
    s.ensureSlotLive idx = (s.mapLive (addLive idx)).appendColumn v.1 v.2 := by
  unfold ChcCtx.ensureSlotLive
  rw [if_neg fun hall => hnot (hall lacking hlacking), hv]
  rfl

/-- A variable that is live at some blocks only gets a second column at these. -/
theorem not_agrees_of_live_somewhere {bb idx : ℕ} {name : String} {live lacking : List ℕ}
    (h : s.Agrees) (hf : s.Frame bb name live) (hmem : idx ∈ live)
    (hlacking : lacking ∈ s.stateVarMgr.liveStateIndices) (hnot : idx ∉ lacking) :
    ¬ (s.ensureSlotLive idx).Agrees := by
  have hlt := h.live_lt live hf.mem idx hmem
  obtain ⟨v, hv⟩ : ∃ v, s.stateVarMgr.stateVars[idx]? = some v :=
    ⟨_, List.getElem?_eq_getElem hlt⟩
  obtain ⟨d, hd, hname⟩ := h.declared bb name live hf
  have harity := h.arity bb name live hf d hd hname
  rw [ensureSlotLive_of_lacking hv hlacking hnot]
  intro h'
  have hf' : ((s.mapLive (addLive idx)).appendColumn v.1 v.2).Frame bb name (addLive idx live) :=
    hf.appendColumn
  have hd' : appendSort s.blockRelNames v.2 d ∈
      ((s.mapLive (addLive idx)).appendColumn v.1 v.2).vc.relations :=
    List.mem_map_of_mem hd
  have harity' := h'.arity bb name _ hf' _ hd' (name_appendSort.trans hname)
  rw [addLive, if_pos hmem, appendSort, if_pos (hname ▸ hf.mem_blockRelNames),
    List.length_append, List.length_singleton] at harity'
  omega

/-- A rule that constrains the output variable hands the input variable on all the same. -/
theorem not_threaded_of_constrained {bb idx : ℕ} {live : List ℕ} {r : Rule}
    (hr : r ∈ s.vc.rules) (hf : s.Frame bb r.head.name live) (hnot : idx ∉ live)
    (hlt : idx < s.stateVarMgr.stateVars.length) (hcon : s.Constrains r idx)
    (hdiff : s.outputVar idx ≠ s.inputVar idx) : ¬ s.Threaded (s.ensureSlotLive idx) := by
  obtain ⟨v, hv⟩ : ∃ v, s.stateVarMgr.stateVars[idx]? = some v :=
    ⟨_, List.getElem?_eq_getElem hlt⟩
  rw [ensureSlotLive_of_lacking hv hf.mem hnot]
  intro h'
  have hin := hf.mem_blockRelNames
  have hr' : passThrough s.blockRelNames (.var v.1 v.2) r ∈
      ((s.mapLive (addLive idx)).appendColumn v.1 v.2).vc.rules :=
    List.mem_map_of_mem hr
  have hf' : ((s.mapLive (addLive idx)).appendColumn v.1 v.2).Frame bb
      (passThrough s.blockRelNames (.var v.1 v.2) r).head.name (addLive idx live) := by
    rw [passThrough, name_appendArg]
    exact hf.appendColumn
  have hcols := h'.head _ hr' bb _ hf'
  rw [passThrough, args_appendArg hin, addLive, if_neg hnot] at hcols
  -- the last column is the one that was added
  have hlast := List.forall₂_reverse_iff.2 hcols
  rw [List.reverse_concat, List.reverse_concat, List.forall₂_cons] at hlast
  have hnew : s.NotLive bb idx := fun live' hlive' => by
    obtain rfl := Option.some.inj (hf.2.symm.trans hlive')
    exact hnot
  have hend : s.endVar r idx = some (.var v.1 v.2) := hlast.1.2 hnew
  have hread : s.endVar r idx = s.outputVar idx := if_pos hcon
  have hcarried : s.inputVar idx = some (.var v.1 v.2) := by simp [inputVar, hv]
  exact hdiff (hread.symm.trans (hend.trans hcarried.symm))

/-- What `SafeSlot` asks for is what one slot needs. -/
theorem threaded_ensureSlotLive_iff {idx : ℕ} (h : s.Agrees)
    (hlt : idx < s.stateVarMgr.stateVars.length) (hdiff : s.outputVar idx ≠ s.inputVar idx) :
    s.Threaded (s.ensureSlotLive idx) ↔ s.SafeSlot idx := by
  refine ⟨fun h' => ?_, (threaded_self_iff.2 h).ensureSlotLive⟩
  by_cases hall : ∀ live ∈ s.stateVarMgr.liveStateIndices, idx ∈ live
  · exact .inl hall
  · push Not at hall
    obtain ⟨lacking, hlacking, hnot⟩ := hall
    have hfree : ∀ bb name live, s.Frame bb name live → idx ∉ live := fun bb name live hf hmem =>
      not_agrees_of_live_somewhere h hf hmem hlacking hnot h'.agrees
    refine .inr ⟨hfree, fun v hv r hr hin c hc hmem => ?_⟩
    obtain ⟨bb, hbb⟩ := mem_blockRelNames.1 hin
    obtain ⟨live, hf⟩ := h.framed bb _ hbb
    exact not_threaded_of_constrained hr hf (hfree bb _ live hf) hlt ⟨v, hv, c, hc, hmem⟩ hdiff h'

/-! ### Runs of late additions -/

/-- The states reached from `s₀` by late additions each of which is safe where it is made. -/
inductive SafeRun (s₀ : ChcCtx) : ChcCtx → Prop
  | start : SafeRun s₀ s₀
  | step {s s' : ChcCtx} {op : LateAddition} : SafeRun s₀ s → op.Safe s → op.apply s = some s' →
      SafeRun s₀ s'

/-- Over every run of safe late additions from an agreeing state, declared arities, live lists,
heads and bodies stay in step, and what came in late is handed on with its value. -/
theorem SafeRun.threaded (h₀ : s₀.Agrees) (hrun : s₀.SafeRun s) : s₀.Threaded s := by
  induction hrun with
  | start => exact threaded_self_iff.2 h₀
  | step _ hsafe hs' ih => exact ih.apply hsafe hs'

/-! ### Two blocks -/

/-- Two blocks: `_1` is live at both, `_2` at the first. One edge is emitted. -/
def mixedCtx : ChcCtx where
  stateVarMgr :=
    { stateVars := [("_1", .bitvec 32), ("_2", .bitvec 32)]
      outputStateVars := [("_1__out", .bitvec 32), ("_2__out", .bitvec 32)]
      localToStateIdx := ⟨[⟨1, 0⟩, ⟨2, 1⟩], by simp [List.NodupKeys, List.keys]⟩
      stateVarNameIndex := ⟨[⟨"_1", 0⟩, ⟨"_2", 1⟩], by simp [List.NodupKeys, List.keys]⟩
      liveStateIndices := [[0, 1], [0]] }
  flattenedTupleLocals := []
  flattenedLocalFieldCount := ∅
  blockRelations := ⟨[⟨0, "bb0"⟩, ⟨1, "bb1"⟩], by simp [List.NodupKeys, List.keys]⟩
  relNameToBb := ⟨[⟨"bb0", 0⟩, ⟨"bb1", 1⟩], by simp [List.NodupKeys, List.keys]⟩
  modifiedStateIndices := []
  intLiftedVars := ∅
  fragmentMidOutputBb := none
  pendingVarDecls := []
  vc :=
    { vars := [("_1", .bitvec 32), ("_2", .bitvec 32)]
      relations := [⟨"bb0", [.bitvec 32, .bitvec 32]⟩, ⟨"bb1", [.bitvec 32]⟩, ⟨"error", []⟩]
      rules := [⟨⟨some ⟨"bb0", [.var "_1" (.bitvec 32), .var "_2" (.bitvec 32)]⟩, []⟩,
        ⟨"bb1", [.var "_1" (.bitvec 32)]⟩⟩]
      target := some "error"
      triviallySafeDischarged := false }

theorem frame_mixedCtx {bb : ℕ} {name : String} {live : List ℕ}
    (h : mixedCtx.Frame bb name live) :
    bb = 0 ∧ name = "bb0" ∧ live = [0, 1] ∨ bb = 1 ∧ name = "bb1" ∧ live = [0] := by
  obtain ⟨hname, hlive⟩ := h
  have hmem := AList.mem_lookup_iff.1 (Option.mem_def.2 hname)
  simp only [mixedCtx, List.mem_cons, Sigma.mk.injEq, heq_eq_eq, List.not_mem_nil,
    or_false] at hmem
  rcases hmem with ⟨rfl, rfl⟩ | ⟨rfl, rfl⟩
  · exact .inl ⟨rfl, rfl, (Option.some.inj hlive).symm⟩
  · exact .inr ⟨rfl, rfl, (Option.some.inj hlive).symm⟩

theorem agrees_mixedCtx : mixedCtx.Agrees where
  paired := rfl
  live_lt := by decide
  live_nodup := by decide
  framed := by
    intro bb name hname
    have hmem := AList.mem_lookup_iff.1 (Option.mem_def.2 hname)
    simp only [mixedCtx, List.mem_cons, Sigma.mk.injEq, heq_eq_eq, List.not_mem_nil,
      or_false] at hmem
    rcases hmem with ⟨rfl, rfl⟩ | ⟨rfl, rfl⟩
    · exact ⟨[0, 1], hname, rfl⟩
    · exact ⟨[0], hname, rfl⟩
  declared := by
    intro bb name live hf
    rcases frame_mixedCtx hf with ⟨-, rfl, -⟩ | ⟨-, rfl, -⟩ <;> decide
  arity := by
    intro bb name live hf d hd hname
    simp only [mixedCtx, List.mem_cons, List.not_mem_nil, or_false] at hd
    rcases frame_mixedCtx hf with ⟨-, rfl, rfl⟩ | ⟨-, rfl, rfl⟩ <;>
      rcases hd with rfl | rfl | rfl <;> simp at hname ⊢
  body := by
    intro r hr app happ bb live hf
    obtain rfl := List.mem_singleton.1 hr
    obtain rfl := Option.some.inj happ
    rcases frame_mixedCtx hf with ⟨-, -, rfl⟩ | ⟨-, hname, -⟩
    · exact .cons (standsFor_inputVar rfl) (.cons (standsFor_inputVar rfl) .nil)
    · exact absurd hname (by decide)
  head := by
    intro r hr bb live hf
    obtain rfl := List.mem_singleton.1 hr
    rcases frame_mixedCtx hf with ⟨-, hname, -⟩ | ⟨-, -, rfl⟩
    · exact absurd hname (by decide)
    · exact .cons (standsFor_inputVar rfl) .nil

/-- A late collection variable is threaded through the two blocks. -/
theorem threaded_mixedCtx_len : ∃ s, mixedCtx.pushLateCollectionAuxVar "m_len" "m_len__out"
    (.bitvec 64) = some s ∧ mixedCtx.Threaded s := by
  obtain ⟨s, hs⟩ : ∃ s, mixedCtx.pushLateCollectionAuxVar "m_len" "m_len__out" (.bitvec 64) =
    some s := ⟨_, rfl⟩
  refine ⟨s, hs, ?_⟩
  refine SafeRun.threaded agrees_mixedCtx (@SafeRun.step _ _ _ (.collectionAux "m_len"
    "m_len__out" (.bitvec 64)) .start ?_ hs)
  intro _ r hr _ c hc
  obtain rfl := List.mem_singleton.1 hr
  cases hc

/-- Making `_2` live everywhere gives the first block's relation a third argument. -/
theorem ensureLocalLive_shifts_columns : mixedCtx.Agrees ∧
    ∃ s, (LateAddition.ensureLocalLive 2 1).apply mixedCtx = some s ∧ ¬ s.Agrees := by
  refine ⟨agrees_mixedCtx, _, rfl, ?_⟩
  have hf : mixedCtx.Frame 0 "bb0" [0, 1] := ⟨rfl, rfl⟩
  exact not_agrees_of_live_somewhere agrees_mixedCtx hf (by decide : 1 ∈ [0, 1])
    (by decide : [0] ∈ mixedCtx.stateVarMgr.liveStateIndices) (by decide)

end ChcCtx

end TrustMc.LateState
