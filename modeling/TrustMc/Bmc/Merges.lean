import TrustMc.Bmc.Terminators

/-!
# The entry of a block

Where several edges lead to a block, a place on whose value they disagree gets a new version,
which chooses among them. The version has the value of the edge that is taken.

* `eval_iteChain`: the choice among the edges.
* `computePhiForVar_spec`, `mergeEnvs_spec`: the versions of the places.
* `initializeBlockEntryEnv_spec`: the state at the entry of a block.
-/

namespace TrustMc.Bmc

open LoopUnroll Arithmetic Machine Carriers Carriers.Val TrustMc.Expr

/-- The environment has the values of the store. -/
def Env.Agrees {T : Theory} (ν : T.Env) (env : Env) (σ : Store) : Prop :=
  ∀ p s, σ p = some s → ∃ e, env.lookup p = some e ∧ e.eval ν = s.toVal

namespace StatementCodegen

variable {f : Function} {config : Config} {S S' S'' : StatementCodegen} {T : Theory} {ν : T.Env}
  {known : String → Prop}

/-! ### Choices -/

section Choices

variable {conds : List (Option Expr)} {first : Option Expr × Expr}
  {rest : List (Option Expr × Expr)} {sort : SmtSort}

@[simp]
theorem guardHolds_orEdgePredicates :
    GuardHolds ν (orEdgePredicates conds) ↔ ∃ c ∈ conds, GuardHolds ν c := by
  rw [orEdgePredicates, foldl_or (Q := GuardHolds ν) fun _ _ => guardHolds_orEdge]
  simp

theorem guardOk_orEdgePredicates (h : ∀ c ∈ conds, GuardOk known c) :
    GuardOk known (orEdgePredicates conds) :=
  List.foldlRecOn conds orEdge (guardOk_some rfl (by simp)) fun _ hg c hc => guardOk_orEdge hg (h c hc)

theorem sort_iteChain : (iteChain first rest).sort = first.2.sort := by
  cases rest <;> simp [iteChain, Op.resultSort]

theorem over_iteChain (hguards : ∀ v ∈ first :: rest, GuardOk known v.1)
    (hvals : ∀ v ∈ first :: rest, v.2.Over known) : (iteChain first rest).Over known := by
  induction rest generalizing first with
  | nil => exact hvals first List.mem_cons_self
  | cons next rest ih =>
    have hguard : (first.1.getD (.boolConst true)).Over known := by
      cases hfirst : first.1 with
      | none => simp
      | some g => exact (hguards first List.mem_cons_self g hfirst).2
    have hrest := ih (fun v hv => hguards v (List.mem_cons_of_mem _ hv))
      fun v hv => hvals v (List.mem_cons_of_mem _ hv)
    simpa [iteChain, hguard, hvals first List.mem_cons_self] using hrest

/-- **The choice among the edges** is the value that all the edges that are taken have. -/
theorem eval_iteChain {x : T.Val} (hsort : ∀ v ∈ first :: rest, v.2.sort = sort)
    (hsome : ∃ v ∈ first :: rest, GuardHolds ν v.1)
    (hval : ∀ v ∈ first :: rest, GuardHolds ν v.1 → v.2.eval ν = x) :
    (iteChain first rest).eval ν = x := by
  induction rest generalizing first with
  | nil =>
    obtain ⟨v, hv, hholds⟩ := hsome
    obtain rfl := List.mem_singleton.1 hv
    exact hval v hv hholds
  | cons next rest ih =>
    have hcond : Holds ν (first.1.getD (.boolConst true)) ↔ GuardHolds ν first.1 := by
      cases first.1 <;> simp
    have hsame : first.2.sort = (iteChain next rest).sort := by
      rw [sort_iteChain, hsort first List.mem_cons_self,
        hsort next (List.mem_cons_of_mem _ List.mem_cons_self)]
    rw [iteChain, eval_ite hsame]
    split_ifs with hfirst
    · exact hval first List.mem_cons_self (hcond.1 hfirst)
    · refine ih (fun v hv => hsort v (List.mem_cons_of_mem _ hv)) ?_
        fun v hv => hval v (List.mem_cons_of_mem _ hv)
      obtain ⟨v, hv, hholds⟩ := hsome
      rcases List.mem_cons.1 hv with rfl | hv
      · exact absurd (hcond.2 hholds) hfirst
      · exact ⟨v, hv, hholds⟩

variable {guard : Option Expr} {value other : Expr}

theorem sort_guardedValue : (guardedValue guard value other).sort = value.sort := by
  cases guard <;> simp [guardedValue, Op.resultSort]

theorem over_guardedValue (hguard : GuardOk known guard) (hvalue : value.Over known)
    (hother : other.Over known) : (guardedValue guard value other).Over known := by
  cases guard with
  | none => exact hvalue
  | some g => simpa [guardedValue, hvalue, hother] using (hguard g rfl).2

theorem eval_guardedValue (hguard : GuardHolds ν guard) (hsort : value.sort = other.sort) :
    (guardedValue guard value other).eval ν = value.eval ν := by
  cases guard with
  | none => rfl
  | some g => rw [guardedValue, eval_ite hsort, if_pos (guardHolds_some.1 hguard)]

end Choices

/-! ### Versions at the entry -/

section Phi

variable {incoming : List IncomingEdge} {p : Place} {places : List Place} {e : Expr} {env : Env}

variable (f config) in
/-- Only versions are defined. -/
structure Defines (S S' : StatementCodegen) : Prop where
  eq : S' = { S with constraints := S'.constraints, ssaVersion := S'.ssaVersion }
  extension : Extends (Free f config) (S.Known f config) (S'.Known f config) S.constraints
    S'.constraints

namespace Defines

theorem refl : Defines f config S S := ⟨rfl, .refl⟩

theorem trans (h : Defines f config S S') (h' : Defines f config S' S'') :
    Defines f config S S'' where
  eq := by
    rw [h'.eq, h.eq]
  extension := h.extension.trans h'.extension

theorem pathCondition (h : Defines f config S S') :
    S'.currentPathCondition = S.currentPathCondition := by rw [h.eq]

theorem meets (h : Defines f config S S') (hν : Meets ν S') : Meets ν S := h.extension.holds hν

end Defines

variable (f) in
/-- The edges into a block carry terms. -/
def EdgesOk (known : String → Prop) (incoming : List IncomingEdge) : Prop :=
  ∀ edge ∈ incoming, GuardOk known edge.edgePredicate ∧ edge.env.Ok f known

theorem EdgesOk.mono {known' : String → Prop} (h : EdgesOk f known incoming)
    (hknown : ∀ n, known n → known' n) : EdgesOk f known' incoming :=
  fun edge hedge => ⟨(h edge hedge).1.mono hknown, (h edge hedge).2.mono hknown⟩

/-- The run takes some edge, and the edges that it takes have the value of the place. -/
structure Taken (ν : T.Env) (incoming : List IncomingEdge) (p : Place) (x : T.Val) : Prop where
  some : ∃ edge ∈ incoming, GuardHolds ν edge.edgePredicate
  value : ∀ edge ∈ incoming, GuardHolds ν edge.edgePredicate →
    ∃ e, edge.env.lookup p = Option.some e ∧ e.eval ν = x

theorem mem_phiVals {v : Option Expr × Expr} :
    v ∈ phiVals p incoming ↔
      ∃ edge ∈ incoming, edge.env.lookup p = some v.2 ∧ edge.edgePredicate = v.1 := by
  simp only [phiVals, List.mem_filterMap, Option.map_eq_some_iff]
  constructor
  · rintro ⟨edge, hedge, e, he, rfl⟩
    exact ⟨edge, hedge, he, rfl⟩
  · rintro ⟨edge, hedge, he, hpred⟩
    exact ⟨edge, hedge, v.2, he, by rw [hpred]⟩

/-- An edge that is taken has a value, which is that of the place. -/
theorem Taken.phiVals {x : T.Val} (h : Taken ν incoming p x) :
    (∃ v ∈ phiVals p incoming, GuardHolds ν v.1) ∧
      ∀ v ∈ StatementCodegen.phiVals p incoming, GuardHolds ν v.1 → v.2.eval ν = x := by
  constructor
  · obtain ⟨edge, hedge, hholds⟩ := h.some
    obtain ⟨e, he, -⟩ := h.value edge hedge hholds
    exact ⟨(edge.edgePredicate, e), mem_phiVals.2 ⟨edge, hedge, he, rfl⟩, hholds⟩
  · intro v hv hholds
    obtain ⟨edge, hedge, he, hpred⟩ := mem_phiVals.1 hv
    obtain ⟨e, he', heval⟩ := h.value edge hedge (hpred ▸ hholds)
    obtain rfl : e = v.2 := by simpa [he'] using he
    exact heval

/-- The definition of a version that chooses among the edges. -/
theorem defines_phi {value : Expr} {sort : SmtSort} (hsort : value.sort = sort)
    (hover : value.Over (S.Known f config)) :
    Defines f config S
      ((S.bump p).assert (.eq (var f config (.ssa p (S.ssaVersion p)) sort) value)) where
  eq := rfl
  extension := by
    refine .define (Known.mono le_bump le_rfl le_rfl) (d := ⟨_, sort, value⟩) hsort
      (fun hn => lt_irrefl _ (known_name.1 hn)) (fun hn => free_name.1 hn) ?_ hover
    exact known_name.2 (lt_bump (p := p))

/-- **The version of a place** at the entry of a block. -/
theorem computePhiForVar_spec (hok : EdgesOk f (S.Known f config) incoming)
    (hpc : GuardOk (S.Known f config) S.currentPathCondition)
    (h : S.computePhiForVar f config p incoming = some (e, S')) :
    Defines f config S S' ∧ e.sort = f.placeSort p ∧ e.Over (S'.Known f config) ∧
      ∀ {T : Theory} {ν : T.Env} {x : T.Val}, Meets ν S' →
        GuardHolds ν S.currentPathCondition → Taken ν incoming p x → e.eval ν = x := by
  have hvals : ∀ v ∈ phiVals p incoming,
      GuardOk (S.Known f config) v.1 ∧ v.2.sort = f.placeSort p ∧ v.2.Over (S.Known f config) := by
    intro v hv
    obtain ⟨edge, hedge, he, hpred⟩ := mem_phiVals.1 hv
    exact ⟨hpred ▸ (hok edge hedge).1, (hok edge hedge).2 p v.2 he⟩
  simp only [computePhiForVar] at h
  split at h
  · cases h
  rename_i first rest heq
  have htaken := fun {T : Theory} {ν : T.Env} {x : T.Val} (htaken : Taken ν incoming p x) =>
    htaken.phiVals
  rw [heq] at hvals htaken
  have hfirst := hvals first List.mem_cons_self
  by_cases hsame : (!missingEdge p incoming && rest.all fun v => v.2 == first.2) = true
  · -- the edges agree
    rw [if_pos hsame] at h
    cases h
    refine ⟨.refl, hfirst.2.1, hfirst.2.2, fun {T ν x} _ _ hx => ?_⟩
    obtain ⟨⟨v, hv, hholds⟩, hval⟩ := htaken hx
    rw [← hval v hv hholds]
    rcases List.mem_cons.1 hv with rfl | hv
    · rfl
    · have hall := (Bool.and_eq_true _ _ ▸ hsame).2
      rw [beq_iff_eq.1 (List.all_eq_true.1 hall v hv)]
  · rw [if_neg hsame] at h
    have hguards : ∀ v ∈ first :: rest, GuardOk (S.Known f config) v.1 := fun v hv => (hvals v hv).1
    have hguard : GuardOk (S.Known f config) (S.phiGuard p incoming) := by
      rw [phiGuard, heq]
      split_ifs
      · exact guardOk_orEdgePredicates (by simpa using hguards)
      · exact hpc
    have hchain : (iteChain first rest).Over (S.Known f config) :=
      over_iteChain hguards fun v hv => (hvals v hv).2.2
    have hinit : (var f config (.init p) (iteChain first rest).sort).Over (S.Known f config) :=
      over_symbol.2 trivial
    have hdefines := defines_phi (p := p) (sort_guardedValue.trans sort_iteChain)
      (over_guardedValue hguard hchain hinit)
    cases h
    refine ⟨hdefines, hfirst.2.1, over_symbol.2 (lt_bump (p := p)), ?_⟩
    intro T ν x hν hpcHolds hx
    have heval := holds_eq.1 (hν _ (List.mem_append_right _ (List.mem_singleton.2 rfl)))
    obtain ⟨hsome, hval⟩ := htaken hx
    have hholds : GuardHolds ν (S.phiGuard p incoming) := by
      rw [phiGuard, heq]
      split_ifs
      · obtain ⟨v, hv, hv'⟩ := hsome
        exact guardHolds_orEdgePredicates.2 ⟨v.1, List.mem_map_of_mem hv, hv'⟩
      · exact hpcHolds
    exact heval.trans ((eval_guardedValue hholds (by rfl)).trans
      (eval_iteChain (fun v hv => (hvals v hv).2.1) hsome hval))

theorem computePhiForVar_eq_none (h : S.computePhiForVar f config p incoming = none) :
    ∀ edge ∈ incoming, edge.env.lookup p = none := by
  intro edge hedge
  by_contra hne
  obtain ⟨e, he⟩ := Option.ne_none_iff_exists'.1 hne
  have hmem : (edge.edgePredicate, e) ∈ phiVals p incoming := mem_phiVals.2 ⟨edge, hedge, he, rfl⟩
  unfold computePhiForVar at h
  split at h
  · rename_i heq
    rw [heq] at hmem
    cases hmem
  · split at h <;> cases h

/-- **The environment at the entry of a block.** -/
theorem mergeEnvs_spec (hok : EdgesOk f (S.Known f config) incoming)
    (hpc : GuardOk (S.Known f config) S.currentPathCondition)
    (h : mergeEnvs f config incoming S places = (env, S')) :
    Defines f config S S' ∧ env.Ok f (S'.Known f config) ∧
      (∀ p ∈ places, ∀ edge ∈ incoming, edge.env.Has p → env.Has p) ∧
      ∀ {T : Theory} {ν : T.Env}, Meets ν S' → GuardHolds ν S.currentPathCondition →
        ∀ p ∈ places, ∀ x, Taken ν incoming p x → ∃ e, env.lookup p = some e ∧ e.eval ν = x := by
  induction places generalizing S env S' with
  | nil =>
    cases h
    exact ⟨.refl, fun p e he => (by cases he), by simp, by simp⟩
  | cons p places ih =>
    simp only [mergeEnvs] at h
    split at h
    · rename_i hnone
      obtain ⟨hdef, hokEnv, hhas, hval⟩ := ih hok hpc h
      have hno := computePhiForVar_eq_none hnone
      refine ⟨hdef, hokEnv, fun q hq edge hedge hhasq => ?_, fun {T ν} hν hpc' q hq x hx => ?_⟩
      · rcases List.mem_cons.1 hq with rfl | hq
        · simp [Env.Has, hno edge hedge] at hhasq
        · exact hhas q hq edge hedge hhasq
      · rcases List.mem_cons.1 hq with rfl | hq
        · obtain ⟨edge, hedge, hholds⟩ := hx.some
          obtain ⟨e, he, -⟩ := hx.value edge hedge hholds
          rw [hno edge hedge] at he
          cases he
        · exact hval hν hpc' q hq x hx
    · rename_i e S₁ hsome
      obtain ⟨hdef, hsort, hover, heval⟩ := computePhiForVar_spec hok hpc hsome
      have hknown := hdef.extension.1
      rcases hrest : mergeEnvs f config incoming S₁ places with ⟨env', S₂⟩
      obtain ⟨hdef', hokEnv, hhas, hval⟩ := ih (hok.mono hknown)
        (hdef.pathCondition ▸ hpc.mono hknown) hrest
      rw [hrest] at h
      cases h
      refine ⟨hdef.trans hdef', hokEnv.cons ⟨hsort, hover.mono hdef'.extension.1⟩,
        fun q hq edge hedge hhasq => ?_, fun {T ν} hν hpc' q hq x hx => ?_⟩
      · rcases List.mem_cons.1 hq with rfl | hq
        · exact Env.has_cons_self
        · exact (hhas q hq edge hedge hhasq).cons
      · rw [Env.lookup_cons]
        rcases eq_or_ne q p with rfl | hne
        · exact ⟨e, if_pos rfl, heval (hdef'.meets hν) hpc' hx⟩
        · rw [if_neg hne]
          exact hval hν (hdef.pathCondition ▸ hpc') q
            ((List.mem_cons.1 hq).resolve_left hne) x hx

end Phi

end StatementCodegen

end TrustMc.Bmc
