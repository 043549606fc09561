import TrustMc.Core.Vc
import TrustMc.Horn.Projection

/-!
# Dropping columns of relations

A pass that drops columns of relations, and perhaps constraints, projects the Horn system of the
rules. A step of the result is **uninfluenced** by what is dropped when the rule it comes from
fires from every derivable fact that has the premise's kept columns, with the same kept columns
of its head. The result derives what the rules derive, and by uninfluenced steps nothing else.

* `Derives.stripFact`: the kept columns of a derivable fact are derivable.
* `exists_of_derivesUninfluenced`: a derivation by uninfluenced steps is one of a derivable fact.
* `uninfluenced_of_unread`: a rule that only hands dropped columns on is uninfluenced.
-/

namespace TrustMc

/-! ### Columns -/

/-- The columns to drop of a relation whose application has so many arguments. -/
abbrev Columns : Type := String → ℕ → Option (List Bool)

/-- Drops what is flagged; what has no flag goes too. -/
def dropFlagged {α : Type} (dropped : List Bool) (xs : List α) : List α :=
  ((xs.zip dropped).filter fun p => !p.2).map Prod.fst

section Flags

variable {α β : Type}

@[simp]
theorem dropFlagged_nil_left (xs : List α) : dropFlagged [] xs = [] := by
  simp [dropFlagged]

@[simp]
theorem dropFlagged_cons (d : Bool) (dropped : List Bool) (x : α) (xs : List α) :
    dropFlagged (d :: dropped) (x :: xs) =
      if d then dropFlagged dropped xs else x :: dropFlagged dropped xs := by
  cases d <;> simp [dropFlagged]

theorem map_dropFlagged (f : α → β) (dropped : List Bool) (xs : List α) :
    (dropFlagged dropped xs).map f = dropFlagged dropped (xs.map f) := by
  induction xs generalizing dropped with
  | nil => rfl
  | cons x xs ih =>
    cases dropped with
    | nil => simp
    | cons d dropped => cases d <;> simp [ih]

theorem dropFlagged_replicate_false (xs : List α) :
    dropFlagged (List.replicate xs.length false) xs = xs := by
  induction xs with
  | nil => rfl
  | cons x xs ih =>
    rw [List.length_cons, List.replicate_succ, dropFlagged_cons, if_neg (by simp), ih]

theorem mem_of_mem_dropFlagged {dropped : List Bool} {xs : List α} {x : α}
    (h : x ∈ dropFlagged dropped xs) : x ∈ xs := by
  obtain ⟨p, hp, rfl⟩ := List.mem_map.1 h
  exact (List.of_mem_zip (List.mem_filter.1 hp).1).1

/-- What is kept is the same. -/
theorem getElem?_eq_of_dropFlagged {dropped : List Bool} {xs ys : List α}
    (hlen : xs.length = ys.length) (h : dropFlagged dropped xs = dropFlagged dropped ys) {i : ℕ}
    (hi : dropped[i]? = some false) : xs[i]? = ys[i]? := by
  induction xs generalizing dropped ys i with
  | nil =>
    obtain rfl := List.length_eq_zero_iff.1 hlen.symm
    rfl
  | cons x xs ih =>
    cases ys with
    | nil => cases hlen
    | cons y ys =>
      cases dropped with
      | nil => cases hi
      | cons d dropped =>
        rw [dropFlagged_cons, dropFlagged_cons] at h
        cases i with
        | zero =>
          obtain rfl : d = false := Option.some.inj hi
          exact congrArg some (List.cons.inj h).1
        | succ i =>
          refine ih (Nat.succ.inj hlen) ?_ hi
          cases d
          · exact (List.cons.inj h).2
          · exact h

end Flags

namespace Columns

variable {α β : Type} (cols : Columns)

/-- The columns of an application that are kept. -/
def strip (name : String) (xs : List α) : List α :=
  match cols name xs.length with
  | none => xs
  | some dropped => dropFlagged dropped xs

/-- An application without the dropped columns. -/
def stripApp (a : RelationApp) : RelationApp := ⟨a.name, cols.strip a.name a.args⟩

/-- A fact without the dropped columns. -/
def stripFact {T : Theory} (f : Fact T) : Fact T := (f.1, cols.strip f.1 f.2)

variable {cols}

theorem map_strip (f : α → β) (name : String) (xs : List α) :
    (cols.strip name xs).map f = cols.strip name (xs.map f) := by
  unfold strip
  rw [List.length_map]
  cases cols name xs.length with
  | none => rfl
  | some dropped => exact map_dropFlagged f dropped xs

@[simp]
theorem fact_stripApp {T : Theory} (ρ : T.Env) (a : RelationApp) :
    (cols.stripApp a).fact ρ = cols.stripFact (a.fact ρ) :=
  Prod.ext rfl (map_strip _ _ _)

end Columns

/-! ### Narrowed rules -/

/-- The rule without the dropped columns, and perhaps without some constraints. -/
structure Rule.Narrows (cols : Columns) (r r' : Rule) : Prop where
  /-- The head keeps its columns. -/
  head : r'.head = cols.stripApp r.head
  /-- The body keeps its columns. -/
  relation : r'.body.relation = r.body.relation.map cols.stripApp
  /-- No constraint is new. -/
  constraints : ∀ c ∈ r'.body.constraints, c ∈ r.body.constraints

/-- The rule without the dropped columns, with constraints that hold where its own do. -/
structure Rule.NarrowsIn (T : Theory) (cols : Columns) (r r' : Rule) : Prop where
  /-- The head keeps its columns. -/
  head : r'.head = cols.stripApp r.head
  /-- The body keeps its columns. -/
  relation : r'.body.relation = r.body.relation.map cols.stripApp
  /-- The constraints follow from the rule's own. -/
  constraints : ∀ ρ : T.Env, (∀ c ∈ r.body.constraints, c.Holds ρ) →
    ∀ c ∈ r'.body.constraints, c.Holds ρ

section Narrow

open TrustMc.Expr

variable {T : Theory} {cols : Columns} {rules : List Rule} {narrow : Rule → Rule}

theorem Rule.Narrows.narrowsIn {r r' : Rule} (h : r.Narrows cols r') : r.NarrowsIn T cols r' :=
  ⟨h.head, h.relation, fun _ hc c hcr => hc c (h.constraints c hcr)⟩

/-- **Nothing is lost**: the kept columns of a derivable fact are derivable. -/
theorem Derives.stripFact (h : ∀ r ∈ rules, r.NarrowsIn T cols (narrow r)) {f : Fact T}
    (hf : Derives T rules f) : Derives T (rules.map narrow) (cols.stripFact f) := by
  refine Horn.System.Derivable.project (fun p f => ?_) hf
  rintro ⟨r, hr, ρ, rfl, hc, rfl⟩
  have hn := h r hr
  refine ⟨narrow r, List.mem_map_of_mem hr, ρ, ?_, hn.constraints ρ hc, ?_⟩
  · rw [hn.relation, Option.map_map, Option.map_map]
    exact Option.map_congr fun a _ => Columns.fact_stripApp ρ a
  · rw [hn.head, Columns.fact_stripApp]

/-- What is dropped does not influence the rule under the assignment: from every derivable fact
with the kept columns of its premise the rule fires, with the kept columns of its head. -/
def Rule.Uninfluenced (cols : Columns) (rules : List Rule) (r : Rule) (ρ : T.Env) : Prop :=
  ∀ p : Option (Fact T), (∀ g ∈ p, Derives T rules g) →
    p.map cols.stripFact = (r.body.relation.map (·.fact ρ)).map cols.stripFact →
    ∃ ρ' : T.Env, r.body.relation.map (·.fact ρ') = p ∧
      (∀ c ∈ r.body.constraints, c.Holds ρ') ∧
      cols.stripFact (r.head.fact ρ') = cols.stripFact (r.head.fact ρ)

variable (T) in
/-- The steps of the narrowed rules that what is dropped does not influence. -/
def uninfluencedSystem (cols : Columns) (narrow : Rule → Rule) (rules : List Rule) :
    Horn.System (Fact T) :=
  ⟨fun p f => ∃ r ∈ rules, ∃ ρ : T.Env, (narrow r).body.relation.map (·.fact ρ) = p ∧
    (∀ c ∈ (narrow r).body.constraints, c.Holds ρ) ∧ (narrow r).head.fact ρ = f ∧
    r.Uninfluenced cols rules ρ⟩

variable (T) in
/-- The narrowed rules derive the fact by steps that what is dropped does not influence. -/
abbrev DerivesUninfluenced (cols : Columns) (narrow : Rule → Rule) (rules : List Rule)
    (f : Fact T) : Prop :=
  (uninfluencedSystem T cols narrow rules).Derivable f

/-- **Nothing is added by uninfluenced steps**: each of them is answered. -/
theorem exists_of_derivesUninfluenced
    (h : ∀ r ∈ rules, (narrow r).head = cols.stripApp r.head ∧
      (narrow r).body.relation = r.body.relation.map cols.stripApp) {f' : Fact T}
    (hf : DerivesUninfluenced T cols narrow rules f') :
    ∃ f, Derives T rules f ∧ cols.stripFact f = f' := by
  refine Horn.System.Derivable.lift (fun p' f' => ?_) hf
  rintro ⟨r, hr, ρ, rfl, -, rfl, hun⟩ p hp hpremise
  obtain ⟨hheads, hrelation⟩ := h r hr
  have hkept : p.map cols.stripFact = (r.body.relation.map (·.fact ρ)).map cols.stripFact := by
    rw [hpremise, hrelation, Option.map_map, Option.map_map]
    exact Option.map_congr fun a _ => Columns.fact_stripApp ρ a
  obtain ⟨ρ', hbody, hconstraints, hhead⟩ := hun p hp hkept
  refine ⟨r.head.fact ρ', ⟨r, hr, ρ', hbody, hconstraints, rfl⟩, ?_⟩
  rw [hhead, hheads, Columns.fact_stripApp]

/-- Where what is dropped influences no rule, every derivation is by uninfluenced steps. -/
theorem derivesUninfluenced_of_forall
    (h : ∀ r ∈ rules, ∀ ρ : T.Env, (∀ c ∈ (narrow r).body.constraints, c.Holds ρ) →
      r.Uninfluenced cols rules ρ) {f : Fact T} (hf : Derives T (rules.map narrow) f) :
    DerivesUninfluenced T cols narrow rules f := by
  refine Horn.System.Derivable.mono (fun p f => ?_) hf
  rintro ⟨r', hr', ρ, hbody, hconstraints, hhead⟩
  obtain ⟨r, hr, rfl⟩ := List.mem_map.1 hr'
  exact ⟨r, hr, ρ, hbody, hconstraints, hhead, h r hr ρ hconstraints⟩

/-! ### Rules that hand dropped columns on -/

/-- What the value of an unread variable is copied from: a dropped column of the premise, or a
term. -/
inductive Source
  | column (i : ℕ)
  | term (e : Expr)

/-- The rule at most hands its dropped body columns on: it reads them into variables of their
own, and these occur only in dropped columns of its head and in constraints that equate
variables with one source, or a variable with its source. -/
structure Rule.Unread (cols : Columns) (r r' : Rule) (source : String → Option Source) :
    Prop where
  /-- A dropped body column is a variable whose source it is. -/
  dropped : ∀ a ∈ r.body.relation, ∀ flags, cols a.name a.args.length = some flags →
    ∀ i e, a.args[i]? = some e → flags[i]? ≠ some false →
      ∃ x s, e = .var x s ∧ source x = some (.column i)
  /-- The columns that are kept of the body have no source. -/
  body : ∀ a ∈ r.body.relation, ∀ (i : ℕ) (e : Expr), a.args[i]? = some e →
    (∀ flags, cols a.name a.args.length = some flags → flags[i]? = some false) →
      ∀ x ∈ e.freeVars, source x = none
  /-- Nor those that are kept of the head. -/
  head : ∀ e : Expr, e ∈ cols.strip r.head.name r.head.args → ∀ x ∈ e.freeVars, source x = none
  /-- Sources that are terms have none themselves. -/
  term : ∀ x e, source x = some (.term e) → ∀ y ∈ e.freeVars, source y = none
  /-- A constraint is kept and has no source, or equates what has one source. -/
  constraints : ∀ c ∈ r.body.constraints,
    c ∈ r'.body.constraints ∧ (∀ x ∈ c.freeVars, source x = none) ∨
      (∃ x y s src, c = (Expr.var x s).eq (.var y s) ∧ source x = some src ∧
        source y = some src) ∨
      ∃ x e, (c = (Expr.var x e.sort).eq e ∨ c = e.eq (.var x e.sort)) ∧
        source x = some (.term e)

/-- The assignment that reads unread variables from their sources. -/
noncomputable def Source.assign (source : String → Option Source) (ρ : T.Env)
    (vs : List T.Val) : T.Env := fun x s =>
  match source x with
  | none => ρ x s
  | some (.column i) => (vs.getD i (Carriers.Val.ofBool false)).as s
  | some (.term e) => (e.eval ρ).as s

section Assign

variable {source : String → Option Source} {ρ : T.Env} {vs : List T.Val}

theorem Source.assign_of_none {x : String} (h : source x = none) :
    Source.assign source ρ vs x = ρ x := by
  funext s
  simp only [Source.assign, h]

theorem Source.eval_assign {e : Expr} (h : ∀ x ∈ e.freeVars, source x = none) :
    e.eval (Source.assign source ρ vs) = e.eval ρ :=
  eval_congr fun x hx => Source.assign_of_none (h x hx)

theorem Source.eval_assign_column {x : String} {s : SmtSort} {i : ℕ} {v : T.Val}
    (h : source x = some (.column i)) (hv : vs[i]? = some v) (hs : v.1 = s) :
    (Expr.var x s).eval (Source.assign source ρ vs) = v := by
  have hval : Source.assign source ρ vs x s = v.as s := by
    simp only [Source.assign, h, List.getD_eq_getElem?_getD, hv, Option.getD_some]
  rw [eval_var, hval]
  exact Carriers.Val.mk_as hs

theorem Source.eval_assign_term {x : String} {e : Expr} (h : source x = some (.term e)) :
    (Expr.var x e.sort).eval (Source.assign source ρ vs) = e.eval ρ := by
  have hval : Source.assign source ρ vs x e.sort = (e.eval ρ).as e.sort := by
    simp only [Source.assign, h]
  rw [eval_var, hval]
  exact Carriers.Val.mk_as (eval_sort e ρ)

/-- Variables with one source have one value. -/
theorem Source.eval_assign_eq {x y : String} {s : SmtSort} {src : Source}
    (hx : source x = some src) (hy : source y = some src) :
    (Expr.var x s).eval (Source.assign source ρ vs) =
      (Expr.var y s).eval (Source.assign source ρ vs) := by
  rw [eval_var, eval_var]
  cases src <;> simp only [Source.assign, hx, hy]

end Assign

/-- The assignment reads the premise's arguments as any values with its kept columns. -/
theorem Rule.Unread.eval_args {r r' : Rule} {source : String → Option Source}
    (h : r.Unread cols r' source) {a : RelationApp} (ha : a ∈ r.body.relation) {ρ : T.Env}
    {ws : List T.Val} (hsort : ws.map (·.1) = a.args.map Expr.sort)
    (hstrip : cols.strip a.name ws = cols.strip a.name (a.args.map (·.eval ρ))) :
    a.args.map (·.eval (Source.assign source ρ ws)) = ws := by
  have hlen : ws.length = a.args.length := by simpa using congrArg List.length hsort
  refine List.ext_getElem? fun i => ?_
  rw [List.getElem?_map]
  cases he : a.args[i]? with
  | none => rw [Option.map_none, List.getElem?_eq_none (hlen ▸ List.getElem?_eq_none_iff.1 he)]
  | some e =>
    have hi : i < ws.length := hlen ▸ (List.getElem?_eq_some_iff.1 he).1
    have hkept : (∀ flags, cols a.name a.args.length = some flags → flags[i]? = some false) →
        some (e.eval (Source.assign source ρ ws)) = ws[i]? := by
      intro hflags
      rw [Source.eval_assign (h.body a ha i e he hflags)]
      have hargs : (a.args.map (·.eval ρ))[i]? = some (e.eval ρ) := by
        rw [List.getElem?_map, he, Option.map_some]
      unfold Columns.strip at hstrip
      rw [List.length_map, hlen] at hstrip
      cases hcols : cols a.name a.args.length with
      | none =>
        simp only [hcols] at hstrip
        rw [hstrip, hargs]
      | some flags =>
        simp only [hcols] at hstrip
        rw [getElem?_eq_of_dropFlagged (by simpa using hlen) hstrip (hflags flags hcols), hargs]
    rw [Option.map_some]
    cases hcols : cols a.name a.args.length with
    | none => exact hkept fun flags hflags => by rw [hcols] at hflags; cases hflags
    | some flags =>
      by_cases hflag : flags[i]? = some false
      · refine hkept fun flags' hflags' => ?_
        obtain rfl := Option.some.inj (hcols.symm.trans hflags')
        exact hflag
      · obtain ⟨x, s, rfl, hsource⟩ := h.dropped a ha flags hcols i e he hflag
        have hs : ws[i].1 = s := by
          have := congrArg (·[i]?) hsort
          simpa [he, hi] using this
        rw [Source.eval_assign_column hsource (List.getElem?_eq_getElem hi) hs,
          List.getElem?_eq_getElem hi]

/-- **An unread rule is uninfluenced** where derivable facts have the sorts of its premise. -/
theorem Rule.uninfluenced_of_unread {r r' : Rule} {source : String → Option Source}
    (h : r.Unread cols r' source)
    (hsorts : ∀ a ∈ r.body.relation, ∀ vs, Derives T rules (a.name, vs) →
      vs.map (·.1) = a.args.map Expr.sort) {ρ : T.Env}
    (hρ : ∀ c ∈ r'.body.constraints, c.Holds ρ) : r.Uninfluenced cols rules ρ := by
  intro p hp hpremise
  refine ⟨Source.assign source ρ ((p.map Prod.snd).getD []), ?_, fun c hc => ?_, ?_⟩
  · cases hrel : r.body.relation with
    | none =>
      rw [hrel] at hpremise
      cases p with
      | none => rfl
      | some g => cases hpremise
    | some a =>
      rw [hrel] at hpremise
      cases p with
      | none => cases hpremise
      | some g =>
        obtain ⟨name, ws⟩ := g
        have hstrip : cols.stripFact (name, ws) = cols.stripFact (a.fact ρ) :=
          Option.some.inj hpremise
        obtain rfl : name = a.name := congrArg Prod.fst hstrip
        exact congrArg some (Prod.ext rfl
          (h.eval_args hrel (hsorts a hrel ws (hp _ rfl)) (congrArg Prod.snd hstrip)))
  · rcases h.constraints c hc with ⟨hkept, hnone⟩ | ⟨x, y, s, src, rfl, hx, hy⟩ |
      ⟨x, e, hc, hx⟩
    · exact (holds_congr fun x hx => Source.assign_of_none (hnone x hx)).2 (hρ c hkept)
    · rw [holds_eq]
      exact Source.eval_assign_eq hx hy
    · -- the source of a variable has the same value with and without the sources
      have heq : (Expr.var x e.sort).eval (Source.assign source ρ ((p.map Prod.snd).getD [])) =
          e.eval (Source.assign source ρ ((p.map Prod.snd).getD [])) := by
        rw [Source.eval_assign_term hx, Source.eval_assign (h.term x e hx)]
      rcases hc with rfl | rfl
      · exact holds_eq.2 heq
      · exact holds_eq.2 heq.symm
  · rw [← Columns.fact_stripApp, ← Columns.fact_stripApp]
    exact Prod.ext rfl (List.map_congr_left fun e he => Source.eval_assign (h.head e he))

end Narrow

end TrustMc
