import Mathlib.Data.List.Nodup
import TrustMc.Columns.Narrow
import TrustMc.ConstProp.Soundness

/-!
# Exactness of dropping columns

What dropping columns of relations means for the query of a verification condition.

* `narrow_exact`: no derivation of the query is lost, and a derivation by uninfluenced steps is
  none that was not there.
* `unsafe_iff_of_unread`: if every rule at most hands its dropped columns on, nothing changes.
-/

namespace TrustMc

variable {T : Theory} {cols : Columns} {narrow : Rule → Rule} {vc vc' : ChcVc}

/-- The query is derivable in the narrowed rules by steps that what is dropped does not
influence. -/
def ChcVc.UnsafeUninfluenced (T : Theory) (cols : Columns) (narrow : Rule → Rule)
    (vc : ChcVc) : Prop :=
  ∃ t vs, vc.target = some t ∧ DerivesUninfluenced T cols narrow vc.rules (t, vs)

/-- The query is derivable if it is by uninfluenced steps, whatever becomes of the constraints. -/
theorem unsafe_of_uninfluenced
    (h : ∀ r ∈ vc.rules, (narrow r).head = cols.stripApp r.head ∧
      (narrow r).body.relation = r.body.relation.map cols.stripApp)
    (h' : vc.UnsafeUninfluenced T cols narrow) : vc.Unsafe T := by
  obtain ⟨t, vs, ht, hder⟩ := h'
  obtain ⟨⟨t', vs'⟩, hder', heq⟩ := exists_of_derivesUninfluenced h hder
  obtain rfl : t' = t := congrArg Prod.fst heq
  exact ⟨t', vs', ht, hder'⟩

/-- **Exactness along uninfluenced steps**: the narrowed rules derive the kept columns of every
derivable fact, and what they derive by uninfluenced steps are the kept columns of one. -/
theorem narrow_exact (h : ∀ r ∈ vc.rules, r.NarrowsIn T cols (narrow r))
    (hrules : vc'.rules = vc.rules.map narrow) (htarget : vc'.target = vc.target) :
    (∀ f : Fact T, Derives T vc.rules f → Derives T vc'.rules (cols.stripFact f)) ∧
      (∀ f' : Fact T, DerivesUninfluenced T cols narrow vc.rules f' →
        ∃ f, Derives T vc.rules f ∧ cols.stripFact f = f') ∧
      (vc.Unsafe T → vc'.Unsafe T) ∧ (vc.UnsafeUninfluenced T cols narrow → vc.Unsafe T) := by
  have hstrip : ∀ f : Fact T, Derives T vc.rules f → Derives T vc'.rules (cols.stripFact f) :=
    fun f hf => hrules ▸ hf.stripFact h
  have happs : ∀ r ∈ vc.rules, (narrow r).head = cols.stripApp r.head ∧
      (narrow r).body.relation = r.body.relation.map cols.stripApp :=
    fun r hr => ⟨(h r hr).head, (h r hr).relation⟩
  refine ⟨hstrip, fun f' hf => exists_of_derivesUninfluenced happs hf, ?_,
    unsafe_of_uninfluenced happs⟩
  rintro ⟨t, vs, ht, hder⟩
  exact ⟨t, _, htarget.trans ht, hstrip (t, vs) hder⟩

/-! ### Sorts of facts -/

/-- Derivable facts have the sorts of their relation's declaration. -/
theorem sorts_of_derives (hwf : vc.WellFormed) {f : Fact T} (hf : Derives T vc.rules f) :
    ∃ d ∈ vc.relations, d.name = f.1 ∧ f.2.map (·.1) = d.argSorts := by
  have hrule : ∀ r ∈ vc.rules, ∀ ρ : T.Env,
      ∃ d ∈ vc.relations, d.name = (r.head.fact ρ).1 ∧ (r.head.fact ρ).2.map (·.1) =
        d.argSorts := by
    intro r hr ρ
    obtain ⟨d, hd, hname, hsorts⟩ := hwf.declared r hr r.head List.mem_cons_self
    refine ⟨d, hd, hname, hsorts ▸ ?_⟩
    simp [RelationApp.fact]
  cases hf with
  | fact h =>
    obtain ⟨r, hr, ρ, -, -, rfl⟩ := h
    exact hrule r hr ρ
  | step _ h =>
    obtain ⟨r, hr, ρ, -, -, rfl⟩ := h
    exact hrule r hr ρ

/-- Facts that a rule's premise may be have the sorts of its arguments. -/
theorem sorts_of_premise (hwf : vc.WellFormed) {r : Rule} (hr : r ∈ vc.rules) {a : RelationApp}
    (ha : a ∈ r.body.relation) {vs : List T.Val} (h : Derives T vc.rules (a.name, vs)) :
    vs.map (·.1) = a.args.map Expr.sort := by
  obtain ⟨d, hd, hname, hsorts⟩ := sorts_of_derives hwf h
  obtain ⟨d', hd', hname', hsorts'⟩ :=
    hwf.declared r hr a (by simp [Rule.apps, Option.mem_def.1 ha])
  obtain rfl : d = d' :=
    List.inj_on_of_nodup_map hwf.relations_nodup hd hd' (hname.trans hname'.symm)
  exact hsorts.trans hsorts'.symm

/-- **Unread columns**: if every rule at most hands its dropped columns on, the query is
derivable in the narrowed rules exactly if it was before. -/
theorem unsafe_iff_of_unread (hwf : vc.WellFormed)
    (h : ∀ r ∈ vc.rules, r.Narrows cols (narrow r)) (hrules : vc'.rules = vc.rules.map narrow)
    (htarget : vc'.target = vc.target)
    (hunread : ∀ r ∈ vc.rules, ∃ source, r.Unread cols (narrow r) source) :
    vc'.Unsafe T ↔ vc.Unsafe T := by
  obtain ⟨-, -, hforward, hbackward⟩ := narrow_exact (T := T)
    (fun r hr => (h r hr).narrowsIn) hrules htarget
  refine ⟨fun hunsafe => hbackward ?_, hforward⟩
  obtain ⟨t, vs, ht, hder⟩ := hunsafe
  rw [hrules] at hder
  refine ⟨t, vs, htarget.symm.trans ht,
    derivesUninfluenced_of_forall (fun r hr ρ hρ => ?_) hder⟩
  obtain ⟨source, hsource⟩ := hunread r hr
  exact r.uninfluenced_of_unread hsource (fun a ha vs h => sorts_of_premise hwf hr ha h) hρ

end TrustMc
