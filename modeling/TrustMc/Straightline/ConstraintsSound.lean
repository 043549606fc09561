import TrustMc.Straightline.Prove
import TrustMc.Straightline.SimplifySound

/-!
# Running constraints is sound

A path state is a set of bindings and facts. Running a constraint extends it
(`Extends`): what the path knew stays known, what it learns holds whenever the constraint
does, and `infeasible` is reported only if the constraint cannot hold on the path. The
passes and the nesting of conjunctions preserve this (`applyConstraintFixpoint_sound`).

Terms are kept over a fixed scope of variables, apart from the names that quantifiers bind
(`Scoped`), so bindings and facts keep their meaning under a binder.
-/

namespace TrustMc

namespace Straightline

open Budget Budget.Walk Carriers Carriers.Val TrustMc.Expr

variable {T : Theory}

/-! ### Scopes -/

/-- A term over the variables of a scope whose binders use reserved names. -/
structure Scoped (scope : Set (String × SmtSort)) (reserved : Set String) (e : Expr) : Prop
    extends Admissible reserved e where
  /-- Free occurrences are in the scope. -/
  occs : ∀ o ∈ e.freeOccs, o ∈ scope

section Scope

variable {scope : Set (String × SmtSort)} {reserved : Set String}

theorem Scoped.app_iff {op : Op} {args : List Expr} :
    Scoped scope reserved (.app op args) ↔
      op.accepts (args.map Expr.sort) = true ∧ ∀ a ∈ args, Scoped scope reserved a := by
  constructor
  · intro h
    refine ⟨h.accepts, fun a ha => ⟨h.arg ha, fun o ho => h.occs o ?_⟩⟩
    rw [freeOccs_app]
    exact List.mem_flatMap.2 ⟨a, ha, ho⟩
  · rintro ⟨hacc, hargs⟩
    refine ⟨Admissible.app_iff.2 ⟨hacc, fun a ha => (hargs a ha).toAdmissible⟩, fun o ho => ?_⟩
    rw [freeOccs_app] at ho
    obtain ⟨a, ha, ho⟩ := List.mem_flatMap.1 ho
    exact (hargs a ha).occs o ho

theorem Scoped.sub {op : Op} {args : List Expr} (h : Scoped scope reserved (.app op args))
    {a : Expr} (ha : a ∈ args) : Scoped scope reserved a := (app_iff.1 h).2 a ha

/-- A rewrite by terms of the scope stays in the scope. -/
theorem Scoped.of_rewrites {H : T.Env → Prop} {inlined : List Expr} {e e' : Expr}
    (h : Scoped scope reserved e) (hr : Rewrites H inlined e e')
    (hi : ∀ t ∈ inlined, Scoped scope reserved t) : Scoped scope reserved e' := by
  refine ⟨hr.admissible h.toAdmissible fun t ht => (hi t ht).toAdmissible, fun o ho => ?_⟩
  rcases hr.occs o ho with ho | ⟨t, ht, ho⟩
  · exact h.occs o ho
  · exact (hi t ht).occs o ho

theorem Scoped.boolConst (b : Bool) : Scoped scope reserved (.boolConst b) :=
  ⟨.boolConst b, by simp⟩

/-- The bindings and facts of a path are over the scope. -/
structure PathState.InScope (scope : Set (String × SmtSort)) (reserved : Set String)
    (st : PathState) : Prop where
  /-- Bound names are unreserved. -/
  names : ∀ p ∈ st.env, p.1 ∉ reserved
  /-- Their terms are scoped. -/
  values : ∀ v ∈ st.env.values, Scoped scope reserved v
  /-- The facts are about scoped terms. -/
  facts : ∀ e ∈ st.facts.terms, Scoped scope reserved e

/-- The bindings and facts of a path are true. -/
structure PathState.Holds (st : PathState) (ρ : T.Env) : Prop where
  /-- Names have the values of their terms. -/
  env : st.env.Holds ρ
  /-- The facts are true. -/
  facts : st.facts.Holds ρ

/-- What a step along a path may return when the path takes over the condition `cond`:
bindings and facts of the scope that stay true, and never `infeasible` when `cond` can
hold. -/
def Extends (scope : Set (String × SmtSort)) (reserved : Set String) (st : PathState)
    (cond : T.Env → Prop) (r : ConstraintStatus × PathState) : Prop :=
  r.2.InScope scope reserved ∧
    ∀ ρ, st.Holds ρ → cond ρ → r.1 ≠ .infeasible ∧ r.2.Holds ρ

section Steps

variable {st : PathState} {cond cond' : T.Env → Prop} {r : ConstraintStatus × PathState}

theorem Extends.mono (h : Extends scope reserved st cond r)
    (hc : ∀ ρ, st.Holds ρ → cond' ρ → cond ρ) : Extends scope reserved st cond' r :=
  ⟨h.1, fun ρ hρ hcond => h.2 ρ hρ (hc ρ hρ hcond)⟩

/-- Nothing is learnt. -/
theorem Extends.same (hst : st.InScope scope reserved) {status : ConstraintStatus}
    (hs : status ≠ .infeasible) : Extends scope reserved st cond (status, st) :=
  ⟨hst, fun _ hρ _ => ⟨hs, hρ⟩⟩

/-- The condition cannot hold. -/
theorem Extends.absurd (hst : st.InScope scope reserved)
    (h : ∀ ρ, st.Holds ρ → ¬ cond ρ) : Extends scope reserved st cond (.infeasible, st) :=
  ⟨hst, fun ρ hρ hc => (h ρ hρ hc).elim⟩

/-- A binding is learnt. -/
theorem Extends.bind (hst : st.InScope scope reserved) {name : String} {value : Expr}
    (hname : name ∉ reserved) (hvalue : Scoped scope reserved value)
    (hc : ∀ ρ, cond ρ → (Expr.var name value.sort).eval ρ = value.eval ρ) :
    Extends scope reserved st cond
      (.feasible, { st with env := st.env.insert name value }) := by
  refine ⟨⟨fun p hp => ?_, fun v hv => ?_, hst.facts⟩, fun ρ hρ hcond => ⟨by simp, ?_, hρ.facts⟩⟩
  · rcases SymEnv.mem_insert hp with rfl | hp
    · exact hname
    · exact hst.names p hp
  · obtain ⟨p, hp, rfl⟩ := List.mem_map.1 hv
    rcases SymEnv.mem_insert hp with rfl | hp
    · exact hvalue
    · exact hst.values _ (List.mem_map_of_mem hp)
  · exact hρ.env.insert (hc ρ hcond)

/-- Facts are learnt. -/
theorem Extends.learn (hst : st.InScope scope reserved) {facts : PathFacts}
    {status : ConstraintStatus} (hterms : ∀ e ∈ facts.terms, Scoped scope reserved e)
    (h : ∀ ρ, st.facts.Holds ρ → cond ρ → status ≠ .infeasible ∧ facts.Holds ρ) :
    Extends scope reserved st cond (status, { st with facts }) := by
  refine ⟨⟨hst.names, hst.values, hterms⟩, fun ρ hρ hc => ?_⟩
  obtain ⟨hs, hf⟩ := h ρ hρ.facts hc
  exact ⟨hs, hρ.env, hf⟩

end Steps

variable (hscope : ∀ o ∈ scope, o.1 ∉ reserved)

include hscope

theorem PathState.InScope.stableOff_env {st : PathState} (h : st.InScope scope reserved) :
    StableOff reserved (st.env.Holds (T := T)) :=
  SymEnv.stableOff fun p hp => ⟨h.names p hp, fun o ho =>
    hscope o ((h.values p.2 (List.mem_map_of_mem hp)).occs o ho)⟩

theorem PathState.InScope.stableOff_facts {st : PathState} (h : st.InScope scope reserved) :
    StableOff reserved (st.facts.Holds (T := T)) :=
  PathFacts.stableOff fun e he o ho => hscope o ((h.facts e he).occs o ho)

omit hscope

/-! ### Constraints -/

/-- Substituting and simplifying keeps the scope and, along the path, the value. -/
theorem simplifyTop_substitute_sound (hscope : ∀ o ∈ scope, o.1 ∉ reserved)
    {maxDepth fuel : ℕ} {st : PathState} (hst : st.InScope scope reserved) {e s : Expr}
    (hs : Rewrites (T := T) st.env.Holds st.env.values e s) (he : Scoped scope reserved e) :
    (simplifyTop maxDepth fuel st.facts s).Ensures fun r =>
      Scoped scope reserved r ∧ r.sort = e.sort ∧
        ∀ ρ : T.Env, st.Holds ρ → r.eval ρ = e.eval ρ := by
  have hsc : Scoped scope reserved s := he.of_rewrites hs hst.values
  refine (simplifyWithFacts_sound (T := T) (hst.stableOff_facts hscope) 0 s
    hsc.toAdmissible).mono fun r hr =>
      ⟨hsc.of_rewrites hr (by simp), hr.sort.trans hs.sort, fun ρ hρ => ?_⟩
  exact (hr.eval ρ hρ.facts).trans (hs.eval ρ hρ.env)

theorem substitute_sound (hscope : ∀ o ∈ scope, o.1 ∉ reserved) {maxDepth fuel : ℕ}
    {st : PathState} (hst : st.InScope scope reserved) {e : Expr}
    (he : Scoped scope reserved e) :
    (substitute maxDepth fuel st.env e).Ensures
      (Rewrites (T := T) st.env.Holds st.env.values e) :=
  substituteInner_sound (hst.stableOff_env hscope)
    (fun v hv => (hst.values v hv).toAdmissible) he.toAdmissible

theorem bindEnvVar_sound {maxDepth fuel : ℕ} {st : PathState}
    (hst : st.InScope scope reserved) {name : String} {value : Expr} (hname : name ∉ reserved)
    (hvalue : Scoped scope reserved value) :
    (bindEnvVar maxDepth fuel st name value).Ensures
      (Extends (T := T) scope reserved st fun ρ =>
        (Expr.var name value.sort).eval ρ = value.eval ρ) := by
  unfold bindEnvVar
  dsimp only
  split
  · exact .pure (.bind hst hname hvalue fun ρ h => h)
  · split
    · exact .pure (.bind hst hname hvalue fun ρ h => h)
    · rename_i existing hlookup
      have hmem : (name, existing) ∈ st.env := SymEnv.mem_of_lookup hlookup
      have hex : Scoped scope reserved existing := hst.values _ (List.mem_map_of_mem hmem)
      refine Ensures.bind (P := fun e => e = existing.eq value ∧ Admissible reserved e) ?_ ?_
      · refine ensures_ofOption_tryApp fun hacc => ⟨rfl, .of_tryApp hacc ?_⟩
        simpa using ⟨hex.toAdmissible, hvalue.toAdmissible⟩
      rintro e ⟨rfl, he⟩
      have hnone : StableOff reserved (PathFacts.none.Holds (T := T)) :=
        PathFacts.stableOff (by simp)
      refine (Ensures.attempt (simplifyWithFacts_sound hnone 0 _ he)).bind fun o ho => ?_
      split
      · exact .pure (.same hst (by simp))
      · refine .pure (.absurd hst fun ρ hρ heq => ?_)
        have hiff := (ho _ rfl).holds_iff (ρ := ρ) PathFacts.holds_none
        have hsort : existing.sort = value.sort := sort_eq_of_eq he
        have hbind := hρ.env _ hmem
        have hfalse : Holds ρ (.app (.boolConst false) _) := hiff.2 (holds_eq.2 (by
          rw [← hbind, hsort, heq]))
        simp [Expr.Holds, Op.interp] at hfalse
      · exact .pure (.same hst (by simp))

/-- Binding the variable on the right of an equation, where there is one. -/
theorem bindRight_sound {maxDepth fuel : ℕ} {st : PathState} {lhs rhs : Expr} {P : T.Env → Prop} :
    (∀ status, status ≠ .infeasible →
      (pure (status, st) : Walk (ConstraintStatus × PathState)).Ensures
        (Extends (T := T) scope reserved st P)) →
    (∀ name s, rhs = .var name s →
      (bindEnvVar maxDepth fuel st name lhs).Ensures (Extends (T := T) scope reserved st P)) →
    (match rhs with
      | .var name s =>
        if exprMentionsVar name lhs then pure (.feasible, st)
        else if lhs.sort ≠ s then pure (.unsupported, st)
        else bindEnvVar maxDepth fuel st name lhs
      | _ => pure (.feasible, st) : Walk (ConstraintStatus × PathState)).Ensures
        (Extends (T := T) scope reserved st P) := by
  intro hsame hright
  split
  · split_ifs
    · exact hsame _ (by simp)
    · exact hsame _ (by simp)
    · exact hright _ _ rfl
  · exact hsame _ (by simp)

/-- Taking over an equation. -/
theorem applyEq_sound {maxDepth fuel : ℕ} (hscope : ∀ o ∈ scope, o.1 ∉ reserved)
    {st : PathState} (hst : st.InScope scope reserved) {lhs rhs : Expr}
    (h : Scoped scope reserved (lhs.eq rhs)) :
    (applyEq maxDepth fuel st lhs rhs).Ensures
      (Extends (T := T) scope reserved st fun ρ => (lhs.eq rhs).Holds ρ) := by
  have hl : Scoped scope reserved lhs := h.sub (by simp)
  have hr : Scoped scope reserved rhs := h.sub (by simp)
  have hsort : lhs.sort = rhs.sort := sort_eq_of_eq h.toAdmissible
  have hsame : ∀ status, status ≠ .infeasible →
      (pure (status, st) : Walk (ConstraintStatus × PathState)).Ensures
        (Extends (T := T) scope reserved st fun ρ => (lhs.eq rhs).Holds ρ) :=
    fun _ hs => .pure (.same hst hs)
  have hright : ∀ name s, rhs = .var name s → (bindEnvVar maxDepth fuel st name lhs).Ensures
      (Extends (T := T) scope reserved st fun ρ => (lhs.eq rhs).Holds ρ) := by
    rintro name s rfl
    have hname : name ∉ reserved := hscope (name, s) (hr.occs _ (by simp))
    refine (bindEnvVar_sound hst hname hl).mono fun r hr' => hr'.mono fun ρ _ heq => ?_
    rw [hsort]
    exact (holds_eq.1 heq).symm
  have hleft : ∀ name s, lhs = .var name s → (bindEnvVar maxDepth fuel st name rhs).Ensures
      (Extends (T := T) scope reserved st fun ρ => (lhs.eq rhs).Holds ρ) := by
    rintro name s rfl
    have hname : name ∉ reserved := hscope (name, s) (hl.occs _ (by simp))
    refine (bindEnvVar_sound hst hname hr).mono fun r hr' => hr'.mono fun ρ _ heq => ?_
    rw [← hsort]
    exact holds_eq.1 heq
  unfold applyEq
  dsimp only
  split
  · split_ifs
    · exact bindRight_sound hsame hright
    · exact hsame _ (by simp)
    · exact hleft _ _ rfl
  · exact bindRight_sound hsame hright

/-! ### Bounds -/

/-- An unsigned comparison is one of its kind. -/
theorem unsignedCmpOf_eq_some {e lhs rhs : Expr} {kind : UnsignedCmp}
    (h : unsignedCmpOf e = some (lhs, rhs, kind)) : e = .bvCmp kind.toBvCmp lhs rhs := by
  unfold unsignedCmpOf at h
  split at h
  all_goals first
    | (obtain ⟨rfl, rfl, rfl⟩ : _ ∧ _ ∧ _ := by simpa using h
       rfl)
    | cases h

/-- What an oriented comparison says, negated or not. -/
theorem orientedCmp_spec {e bounded : Expr} {negated : Bool} {c w : ℕ} {kind : UnsignedCmp}
    (he : Scoped scope reserved e)
    (h : orientedCmp e negated = some (bounded, c, kind, w)) :
    Scoped scope reserved bounded ∧ bounded.sort = .bitvec w ∧ c < 2 ^ w ∧ w ≤ 128 ∧
      ∀ ρ : T.Env, (e.Holds ρ ↔ negated = false) →
        kind.fold (bits w bounded ρ).toNat c = true := by
  unfold orientedCmp at h
  simp only [Option.bind_eq_bind, Option.bind_eq_some_iff] at h
  obtain ⟨⟨lhs, rhs, kind₀⟩, hcmp, h⟩ := h
  obtain rfl := unsignedCmpOf_eq_some hcmp
  split at h
  · cases h
  · rename_i hsort
    have hsort : lhs.sort = rhs.sort := not_not.1 hsort
    simp only [Option.bind_eq_some_iff] at h
    obtain ⟨w', hw', ⟨e', c', kind'⟩, horient, h⟩ := h
    obtain ⟨rfl, rfl, rfl, rfl⟩ : e' = bounded ∧ c' = c ∧ kind' = kind ∧ w' = w := by
      simpa using h
    have hls : lhs.sort = .bitvec w' := by simpa using hw'
    obtain ⟨hs, hside, hlt, hle, hfold⟩ := orient_spec (T := T) hls (hsort ▸ hls) horient
    refine ⟨?_, hs, hlt, hle, fun ρ hρ => ?_⟩
    · rcases hside with rfl | rfl
      · exact he.sub (by simp)
      · exact he.sub (by simp)
    · rw [hfold ρ]
      rw [holds_unsignedCmp hls] at hρ
      cases negated
      · simpa using hρ
      · simpa [UnsignedCmp.fold_negated] using hρ

/-- Recording a bound that holds. -/
theorem extends_statusOfBounds {cond : T.Env → Prop} {st : PathState}
    (hst : st.InScope scope reserved) {facts : PathFacts}
    (hterms : ∀ e ∈ facts.terms, Scoped scope reserved e)
    (h : ∀ ρ, st.facts.Holds ρ → cond ρ → facts.Holds ρ) :
    Extends scope reserved st cond
      ((statusOfBounds facts).1, { st with facts := (statusOfBounds facts).2 }) := by
  refine .learn hst hterms fun ρ hρ hc => ⟨?_, h ρ hρ hc⟩
  have hok := PathFacts.boundsContradict_eq_false (h ρ hρ hc)
  simp [statusOfBounds, hok]

theorem recordUnsignedUpperBound_sound {st : PathState} (hst : st.InScope scope reserved)
    {lhs rhs : Expr} (he : Scoped scope reserved (.bvCmp .ult lhs rhs))
    {r : ConstraintStatus × PathFacts}
    (h : (recordUnsignedUpperBound lhs rhs st.facts).getD (.feasible, st.facts) = r) :
    Extends (T := T) scope reserved st (fun ρ => (Expr.bvCmp .ult lhs rhs).Holds ρ)
      (r.1, { st with facts := r.2 }) := by
  subst h
  have hl : Scoped scope reserved lhs := he.sub (by simp)
  unfold recordUnsignedUpperBound
  split
  · exact .same hst (by simp)
  · cases hconst : bvConstU128 rhs with
    | none => exact .same hst (by simp)
    | some p =>
      obtain ⟨bound, w⟩ := p
      rename_i hsorts
      obtain ⟨hrs, -⟩ := bvConstU128_spec hconst
      have hls : lhs.sort = .bitvec w := (not_not.1 (not_or.1 hsorts).1).trans hrs
      have hlt : ∀ ρ : T.Env, (Expr.bvCmp .ult lhs rhs).Holds ρ →
          (bits w lhs ρ).toNat < bound := by
        intro ρ hρ
        have hdenote := (holds_bvCmp hls).1 hρ
        rw [BvCmp.denote, BitVec.ult_eq_decide, decide_eq_true_eq,
          toNat_bits_of_const hconst] at hdenote
        exact hdenote
      simp only [Option.bind_eq_bind, Option.bind_some]
      split
      · rename_i h₀
        refine .absurd hst fun ρ _ hρ => ?_
        have := hlt ρ hρ
        omega
      · refine extends_statusOfBounds hst (fun e he' => ?_) fun ρ hρ hc =>
          hρ.addUnsignedUpperBound hls (hlt ρ hc)
        rcases PathFacts.terms_addUnsignedUpperBound he' with he' | rfl
        · exact hst.facts e he'
        · exact hl

/-- The upper bound that a comparison gives holds. -/
theorem unsignedUpperBoundFromCmp_spec {e bounded : Expr} {negated : Bool} {bound w : ℕ}
    (he : Scoped scope reserved e)
    (h : unsignedUpperBoundFromCmp e negated = some (bounded, bound, w)) :
    Scoped scope reserved bounded ∧ bounded.sort = .bitvec w ∧
      ∀ ρ : T.Env, (e.Holds ρ ↔ negated = false) → (bits w bounded ρ).toNat < bound := by
  unfold unsignedUpperBoundFromCmp at h
  simp only [Option.bind_eq_bind, Option.bind_eq_some_iff] at h
  obtain ⟨⟨bounded', c, kind, w'⟩, horient, h⟩ := h
  obtain ⟨hsc, hs, -, -, hfold⟩ := orientedCmp_spec (T := T) he horient
  cases kind with
  | lt =>
    obtain ⟨rfl, rfl, rfl⟩ : bounded' = bounded ∧ c = bound ∧ w' = w := by simpa using h
    exact ⟨hsc, hs, fun ρ hρ => by simpa [UnsignedCmp.fold] using hfold ρ hρ⟩
  | le =>
    dsimp only at h
    split_ifs at h
    obtain ⟨rfl, rfl, rfl⟩ : bounded' = bounded ∧ c + 1 = bound ∧ w' = w := by simpa using h
    refine ⟨hsc, hs, fun ρ hρ => ?_⟩
    have hle := hfold ρ hρ
    simp only [UnsignedCmp.fold, decide_eq_true_eq] at hle
    omega
  | gt => cases h
  | ge => cases h

/-- The lower bound that a comparison gives holds. -/
theorem unsignedLowerBoundFromCmp_spec {e bounded : Expr} {negated : Bool} {bound w : ℕ}
    (he : Scoped scope reserved e)
    (h : unsignedLowerBoundFromCmp e negated = some (bounded, bound, w)) :
    Scoped scope reserved bounded ∧ bounded.sort = .bitvec w ∧ w ≤ 128 ∧
      ∀ ρ : T.Env, (e.Holds ρ ↔ negated = false) → bound ≤ (bits w bounded ρ).toNat := by
  unfold unsignedLowerBoundFromCmp at h
  simp only [Option.bind_eq_bind, Option.bind_eq_some_iff] at h
  obtain ⟨⟨bounded', c, kind, w'⟩, horient, h⟩ := h
  obtain ⟨hsc, hs, -, hle, hfold⟩ := orientedCmp_spec (T := T) he horient
  cases kind with
  | lt => cases h
  | le => cases h
  | gt =>
    dsimp only at h
    split_ifs at h
    obtain ⟨rfl, rfl, rfl⟩ : bounded' = bounded ∧ c + 1 = bound ∧ w' = w := by simpa using h
    refine ⟨hsc, hs, hle, fun ρ hρ => ?_⟩
    have hlt := hfold ρ hρ
    simp only [UnsignedCmp.fold, decide_eq_true_eq] at hlt
    omega
  | ge =>
    obtain ⟨rfl, rfl, rfl⟩ : bounded' = bounded ∧ c = bound ∧ w' = w := by simpa using h
    exact ⟨hsc, hs, hle, fun ρ hρ => by simpa [UnsignedCmp.fold] using hfold ρ hρ⟩

theorem recordBoundFromCmp_sound {st : PathState} (hst : st.InScope scope reserved) {e : Expr}
    (he : Scoped scope reserved e) (negated : Bool) {r : ConstraintStatus × PathFacts}
    (h : recordBoundFromCmp e negated st.facts = r) :
    Extends (T := T) scope reserved st (fun ρ => e.Holds ρ ↔ negated = false)
      (r.1, { st with facts := r.2 }) := by
  subst h
  unfold recordBoundFromCmp
  cases hup : unsignedUpperBoundFromCmp e negated with
  | some p =>
    obtain ⟨bounded, bound, w⟩ := p
    obtain ⟨hsc, hs, hlt⟩ := unsignedUpperBoundFromCmp_spec (T := T) he hup
    simp only [recordUnsignedUpperBoundFromCmp, hup, Option.bind_eq_bind, Option.bind_some]
    split
    · rename_i r heq
      split_ifs at heq with h₀
      · obtain rfl := Option.some.inj heq
        refine .absurd hst fun ρ _ hρ => ?_
        have := hlt ρ hρ
        omega
      · obtain rfl := Option.some.inj heq
        refine extends_statusOfBounds hst (fun e' he' => ?_) fun ρ hρ hc =>
          hρ.addUnsignedUpperBound hs (hlt ρ hc)
        rcases PathFacts.terms_addUnsignedUpperBound he' with he' | rfl
        · exact hst.facts e' he'
        · exact hsc
    · rename_i heq
      split_ifs at heq
  | none =>
    simp only [recordUnsignedUpperBoundFromCmp, hup, Option.bind_eq_bind, Option.bind_none]
    cases hlow : unsignedLowerBoundFromCmp e negated with
    | none =>
      simp only [recordUnsignedLowerBoundFromCmp, hlow, Option.bind_eq_bind, Option.bind_none,
        Option.getD_none]
      exact .same hst (by simp)
    | some p =>
      obtain ⟨bounded, bound, w⟩ := p
      obtain ⟨hsc, hs, hw, hge⟩ := unsignedLowerBoundFromCmp_spec (T := T) he hlow
      simp only [recordUnsignedLowerBoundFromCmp, hlow, Option.bind_eq_bind, Option.bind_some]
      split
      · rename_i hmax
        rw [Option.getD_some]
        refine .absurd hst fun ρ _ hρ => ?_
        have hle := hge ρ hρ
        have hlt := (bits w bounded ρ).isLt
        have hnot : ¬ bound ≤ bvMask w := by omega
        rw [le_bvMask_iff hw] at hnot
        omega
      · rw [Option.getD_some]
        refine extends_statusOfBounds hst (fun e' he' => ?_) fun ρ hρ hc =>
          hρ.addUnsignedLowerBound hs (hge ρ hc)
        rcases PathFacts.terms_addUnsignedLowerBound he' with he' | rfl
        · exact hst.facts e' he'
        · exact hsc

/-! ### Constraint passes -/

theorem applyNot_sound {maxDepth fuel : ℕ} (hscope : ∀ o ∈ scope, o.1 ∉ reserved)
    {st : PathState} (hst : st.InScope scope reserved) {inner : Expr}
    (h : Scoped scope reserved inner.not) :
    (applyNot maxDepth fuel st inner).Ensures
      (Extends (T := T) scope reserved st fun ρ => inner.not.Holds ρ) := by
  have hi : Scoped scope reserved inner := h.sub (by simp)
  unfold applyNot
  split
  · rename_i lhs rhs
    have hl : Scoped scope reserved lhs := hi.sub (by simp)
    have hr : Scoped scope reserved rhs := hi.sub (by simp)
    refine .pure (.learn hst (fun e he => ?_) fun ρ hρ hc => ⟨by simp, ?_⟩)
    · rcases PathFacts.terms_addDisequality he with he | rfl | rfl
      · exact hst.facts e he
      · exact hl
      · exact hr
    · exact hρ.addDisequality fun heq => holds_not.1 hc (holds_eq.2 heq)
  · rename_i name
    have hname : name ∉ reserved := hscope (name, .bool) (hi.occs _ (by simp))
    refine (bindEnvVar_sound hst hname (.boolConst false)).mono fun r hr => hr.mono fun ρ _ hc => ?_
    refine eval_eq_of_holds_iff (by simp [Op.resultSort]) (by simp [Op.resultSort]) ?_
    rw [sort_app, Op.resultSort, holds_boolConst]
    simpa using hc
  · refine .pure ((recordBoundFromCmp_sound hst hi true rfl).mono fun ρ _ hc => ?_)
    simpa using hc

/-- Taking over a simplified constraint. -/
theorem assume_sound {maxDepth fuel : ℕ} (hscope : ∀ o ∈ scope, o.1 ∉ reserved)
    {nested : List Expr → PathState → Walk (ConstraintStatus × PathState)}
    (hnested : ∀ cs st, PathState.InScope scope reserved st →
      (∀ c ∈ cs, Scoped scope reserved c ∧ c.sort = .bool) →
      (nested cs st).Ensures (Extends (T := T) scope reserved st fun ρ => ∀ c ∈ cs, c.Holds ρ))
    {st : PathState} (hst : st.InScope scope reserved) {e : Expr} (he : Scoped scope reserved e) :
    (assume maxDepth fuel nested st e).Ensures
      (Extends (T := T) scope reserved st fun ρ => e.Holds ρ) := by
  unfold assume
  split
  · refine .pure (.absurd hst fun ρ _ hc => ?_)
    simp [Expr.Holds, Op.interp] at hc
  · exact .pure (.same hst (by simp))
  · rename_i name
    have hname : name ∉ reserved := hscope (name, .bool) (he.occs _ (by simp))
    refine (bindEnvVar_sound hst hname (.boolConst true)).mono fun r hr => hr.mono fun ρ _ hc => ?_
    refine eval_eq_of_holds_iff (by simp [Op.resultSort]) (by simp [Op.resultSort]) ?_
    rw [sort_app, Op.resultSort, holds_boolConst]
    simpa using hc
  · rename_i children
    refine (hnested children st hst fun c hc => ⟨he.sub hc, ?_⟩).mono fun r hr =>
      hr.mono fun ρ _ hc => holds_and.1 hc
    have hacc := he.accepts
    simp only [Op.accepts, List.all_map, List.all_eq_true, Function.comp_apply] at hacc
    exact SmtSort.isBool_iff.1 (hacc c hc)
  · exact applyEq_sound hscope hst he
  · exact .pure (recordUnsignedUpperBound_sound hst he rfl)
  · rename_i f args _
    split
    · refine .pure ((recordBoundFromCmp_sound hst he false rfl).mono fun ρ _ hc => ?_)
      simpa using hc
    · exact .pure (.same hst (by simp))
  · exact applyNot_sound hscope hst he
  · exact .pure (.same hst (by simp))

theorem applyConstraint_sound {maxDepth fuel : ℕ} (hscope : ∀ o ∈ scope, o.1 ∉ reserved)
    {nested : List Expr → PathState → Walk (ConstraintStatus × PathState)}
    (hnested : ∀ cs st, PathState.InScope scope reserved st →
      (∀ c ∈ cs, Scoped scope reserved c ∧ c.sort = .bool) →
      (nested cs st).Ensures (Extends (T := T) scope reserved st fun ρ => ∀ c ∈ cs, c.Holds ρ))
    {st : PathState} (hst : st.InScope scope reserved) {c : Expr} (hc : Scoped scope reserved c) :
    (applyConstraint maxDepth fuel nested st c).Ensures
      (Extends (T := T) scope reserved st fun ρ => c.Holds ρ) := by
  unfold applyConstraint
  refine (Ensures.attempt (substitute_sound (T := T) hscope hst hc)).bind fun o ho => ?_
  split
  · exact .pure (.same hst (by simp))
  · refine (Ensures.attempt (simplifyTop_substitute_sound hscope hst (ho _ rfl) hc)).bind
      fun o' ho' => ?_
    split
    · exact .pure (.same hst (by simp))
    · obtain ⟨hscr, -, heval⟩ := ho' _ rfl
      refine (assume_sound hscope hnested hst hscr).mono fun r hr => hr.mono fun ρ hρ hcρ => ?_
      rwa [Expr.Holds, heval ρ hρ]

theorem constraintPass_sound {one : PathState → Expr → Walk (ConstraintStatus × PathState)}
    {constraints : List Expr}
    (hone : ∀ c ∈ constraints, ∀ st, PathState.InScope scope reserved st →
      (one st c).Ensures (Extends (T := T) scope reserved st fun ρ => c.Holds ρ))
    {st : PathState} (hst : st.InScope scope reserved) {status : ConstraintStatus}
    (hstatus : status ≠ .infeasible) :
    (constraintPass one constraints status st).Ensures
      (Extends (T := T) scope reserved st fun ρ => ∀ c ∈ constraints, c.Holds ρ) := by
  induction constraints generalizing st status with
  | nil => exact .pure (.same hst hstatus)
  | cons c cs ih =>
    rw [constraintPass]
    refine (hone c List.mem_cons_self st hst).bind ?_
    rintro ⟨status₁, st₁⟩ ⟨hst₁, hstep⟩
    have hrest : ∀ status' : ConstraintStatus, status' ≠ .infeasible →
        (constraintPass one cs status' st₁).Ensures
          (Extends (T := T) scope reserved st fun ρ => ∀ c' ∈ c :: cs, c'.Holds ρ) := by
      intro status' hs'
      refine (ih (fun c' hc' => hone c' (List.mem_cons_of_mem c hc')) hst₁ hs').mono ?_
      rintro r ⟨hr, hrun⟩
      refine ⟨hr, fun ρ hρ hall => ?_⟩
      have h₁ := (hstep ρ hρ (hall c List.mem_cons_self)).2
      exact hrun ρ h₁ fun c' hc' => hall c' (List.mem_cons_of_mem c hc')
    cases status₁ with
    | infeasible =>
      refine .pure ⟨hst₁, fun ρ hρ hall => ?_⟩
      exact absurd rfl (hstep ρ hρ (hall c List.mem_cons_self)).1
    | unsupported => exact hrest .unsupported (by simp)
    | feasible => exact hrest status hstatus

theorem constraintPasses_sound {one : PathState → Expr → Walk (ConstraintStatus × PathState)}
    {constraints : List Expr}
    (hone : ∀ c ∈ constraints, ∀ st, PathState.InScope scope reserved st →
      (one st c).Ensures (Extends (T := T) scope reserved st fun ρ => c.Holds ρ))
    {passes : ℕ} {st : PathState} (hst : st.InScope scope reserved) :
    (constraintPasses one constraints passes st).Ensures
      (Extends (T := T) scope reserved st fun ρ => ∀ c ∈ constraints, c.Holds ρ) := by
  induction passes generalizing st with
  | zero => exact .pure (.same hst (by simp))
  | succ passes ih =>
    rw [constraintPasses]
    refine (constraintPass_sound hone hst
      (by simp : ConstraintStatus.feasible ≠ .infeasible)).bind ?_
    rintro ⟨status, st₁⟩ hpass
    dsimp only
    split
    · exact .pure hpass
    · refine (ih hpass.1).mono ?_
      rintro r ⟨hr, hrun⟩
      exact ⟨hr, fun ρ hρ hall => hrun ρ (hpass.2 ρ hρ hall).2 hall⟩

/-- **Running the constraints** of a rule: the bindings and facts it returns hold whenever
the constraints do, and it reports `infeasible` only if they cannot. -/
theorem applyConstraintFixpoint_sound {maxDepth fuel nesting : ℕ}
    (hscope : ∀ o ∈ scope, o.1 ∉ reserved) {constraints : List Expr} {st : PathState}
    (hst : st.InScope scope reserved)
    (hcs : ∀ c ∈ constraints, Scoped scope reserved c ∧ c.sort = .bool) :
    (applyConstraintFixpoint maxDepth fuel nesting constraints st).Ensures
      (Extends (T := T) scope reserved st fun ρ => ∀ c ∈ constraints, c.Holds ρ) := by
  induction nesting generalizing constraints st with
  | zero => exact .pure (.same hst (by simp))
  | succ nesting ih =>
    rw [applyConstraintFixpoint]
    refine constraintPasses_sound (fun c hc st' hst' => ?_) hst
    exact applyConstraint_sound hscope (fun cs st'' hst'' hcs'' => ih hst'' hcs'') hst' (hcs c hc).1

end Scope

end Straightline

end TrustMc
