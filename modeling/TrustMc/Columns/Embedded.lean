import TrustMc.Columns.Exact
import TrustMc.Relations.Arity

/-!
# Columns of applications inside constraints

A relation may also be applied inside a constraint. Such a rule is not linear, and in a term the
application may stand anywhere, so the query is asked of every reading of the relations that makes
the rules true: it is **entailed** if it has an instance in each of them.

* `eval_stripTerm`: a term without the columns means what the term means when its relations are
  read without them.
* `entailed_of_strip`: no entailed query is lost where every application loses its columns.
* `entailed_iff_unsafe`: where no constraint applies a relation, a query is entailed exactly if it
  is derivable.
-/

namespace TrustMc

open Carriers Carriers.Val Relations

/-! ### Applications inside a term -/

namespace Relations

theorem funcAppsList_eq (es : List Expr) : funcAppsList es = es.flatMap funcApps := by
  induction es with
  | nil => rw [funcAppsList, List.flatMap_nil]
  | cons e es ih => rw [funcAppsList, ih, List.flatMap_cons]

theorem funcApps_app {op : Op} (hop : ∀ name s, op ≠ .funcApp name s) (args : List Expr) :
    funcApps (.app op args) = args.flatMap funcApps := by
  rw [← funcAppsList_eq]
  cases op
  case funcApp name s => exact absurd rfl (hop name s)
  all_goals rw [funcApps]; exact fun name s h => hop name s h

theorem funcApps_funcApp (name : String) (s : SmtSort) (args : List Expr) :
    funcApps (.app (.funcApp name s) args) = args.flatMap funcApps ++ [(name, args)] := by
  rw [funcApps, funcAppsList_eq]

theorem mem_funcApps_of_mem {op : Op} {args : List Expr} {a : Expr} (ha : a ∈ args)
    {app : String × List Expr} (happ : app ∈ funcApps a) : app ∈ funcApps (.app op args) := by
  have hmem : app ∈ args.flatMap funcApps := List.mem_flatMap.2 ⟨a, ha, happ⟩
  by_cases hop : ∃ name s, op = .funcApp name s
  · obtain ⟨name, s, rfl⟩ := hop
    rw [funcApps_funcApp]
    exact List.mem_append_left _ hmem
  · rwa [funcApps_app fun name s h => hop ⟨name, s, h⟩]

end Relations

namespace Columns

variable {cols : Columns}

theorem mem_of_mem_strip {α : Type} {name : String} {xs : List α} {x : α}
    (h : x ∈ cols.strip name xs) : x ∈ xs := by
  rw [strip] at h
  cases hcols : cols name xs.length with
  | none => rwa [hcols] at h
  | some dropped =>
    rw [hcols] at h
    exact mem_of_mem_dropFlagged h

theorem strip_nil {α : Type} (name : String) : cols.strip name ([] : List α) = [] :=
  List.eq_nil_iff_forall_not_mem.2 fun _ hx => List.not_mem_nil (mem_of_mem_strip hx)

theorem strip_of_none {α : Type} {name : String} {xs : List α} (h : cols name xs.length = none) :
    cols.strip name xs = xs := by
  rw [strip, h]

variable (cols)

mutual

/-- The term without the columns of the applications inside it. -/
def stripTerm : Expr → Expr
  | .var n s => .var n s
  | .app op args =>
    match op with
    | .funcApp name s => .app (.funcApp name s) (cols.strip name (stripTerms args))
    | op => .app op (stripTerms args)
  | .quant q vs b => .quant q vs (stripTerm b)

/-- A list of terms without the columns. -/
def stripTerms : List Expr → List Expr
  | [] => []
  | e :: es => stripTerm e :: stripTerms es

end

/-- A rule without the columns, also inside its constraints. -/
def stripRule (r : Rule) : Rule where
  body := ⟨r.body.relation.map cols.stripApp, r.body.constraints.map cols.stripTerm⟩
  head := cols.stripApp r.head

/-- A declaration without the columns. -/
def stripDecl (d : RelationDecl) : RelationDecl := ⟨d.name, cols.strip d.name d.argSorts⟩

variable {cols}

@[simp]
theorem stripTerms_eq (es : List Expr) : cols.stripTerms es = es.map cols.stripTerm := by
  induction es with
  | nil => rw [stripTerms, List.map_nil]
  | cons e es ih => rw [stripTerms, ih, List.map_cons]

@[simp]
theorem stripTerm_var (n : String) (s : SmtSort) : cols.stripTerm (.var n s) = .var n s := by
  rw [stripTerm]

@[simp]
theorem stripTerm_funcApp (name : String) (s : SmtSort) (args : List Expr) :
    cols.stripTerm (.app (.funcApp name s) args) =
      .app (.funcApp name s) (cols.strip name (args.map cols.stripTerm)) := by
  rw [stripTerm, stripTerms_eq]

theorem stripTerm_app {op : Op} (hop : ∀ name s, op ≠ .funcApp name s) (args : List Expr) :
    cols.stripTerm (.app op args) = .app op (args.map cols.stripTerm) := by
  rw [stripTerm.eq_def, ← stripTerms_eq]
  dsimp only
  split
  · exact absurd rfl (hop _ _)
  · rfl

@[simp]
theorem stripTerm_quant (q : Quantifier) (vs : List (String × SmtSort)) (b : Expr) :
    cols.stripTerm (.quant q vs b) = .quant q vs (cols.stripTerm b) := by rw [stripTerm]

/-- Dropping columns inside a term keeps its sort. -/
@[simp]
theorem sort_stripTerm (e : Expr) : (cols.stripTerm e).sort = e.sort := by
  induction e with
  | var n s => rw [stripTerm_var]
  | app op args ih =>
    by_cases hop : ∃ name s, op = .funcApp name s
    · obtain ⟨name, s, rfl⟩ := hop
      rw [stripTerm_funcApp, Expr.sort_app, Expr.sort_app]
      rfl
    · rw [stripTerm_app fun name s h => hop ⟨name, s, h⟩, Expr.sort_app, Expr.sort_app,
        List.map_map]
      exact congrArg _ (List.map_congr_left ih)
  | quant q vs b ih => rw [stripTerm_quant, Expr.sort_quant, Expr.sort_quant]

/-- The applications inside the term are those before, without the columns. -/
theorem mem_funcApps_stripTerm {e : Expr} {app : String × List Expr}
    (h : app ∈ funcApps (cols.stripTerm e)) :
    ∃ args, (app.1, args) ∈ funcApps e ∧ app.2 = cols.strip app.1 (args.map cols.stripTerm) := by
  induction e with
  | var n s =>
    rw [stripTerm_var, funcApps] at h
    cases h
  | app op args ih =>
    have harg : ∀ {args' : List Expr}, (∀ a ∈ args', a ∈ args.map cols.stripTerm) →
        app ∈ args'.flatMap funcApps → ∃ as, (app.1, as) ∈ funcApps (.app op args) ∧
          app.2 = cols.strip app.1 (as.map cols.stripTerm) := by
      intro args' hsub happ
      obtain ⟨a', ha', happ⟩ := List.mem_flatMap.1 happ
      obtain ⟨a, ha, rfl⟩ := List.mem_map.1 (hsub a' ha')
      obtain ⟨as, has, heq⟩ := ih a ha happ
      exact ⟨as, mem_funcApps_of_mem ha has, heq⟩
    by_cases hop : ∃ name s, op = .funcApp name s
    · obtain ⟨name, s, rfl⟩ := hop
      rw [stripTerm_funcApp, funcApps_funcApp] at h
      rcases List.mem_append.1 h with h | h
      · exact harg (fun a ha => mem_of_mem_strip ha) h
      · -- the application itself
        obtain rfl := List.mem_singleton.1 h
        rw [funcApps_funcApp]
        exact ⟨args, List.mem_append_right _ (List.mem_singleton_self _), rfl⟩
    · rw [stripTerm_app fun name s h => hop ⟨name, s, h⟩,
        funcApps_app fun name s h => hop ⟨name, s, h⟩] at h
      exact harg (fun a ha => ha) h
  | quant q vs b ih =>
    rw [stripTerm_quant, funcApps] at h
    rw [funcApps]
    exact ih h

/-- No variable is new. -/
theorem freeOccs_stripTerm_subset (e : Expr) : (cols.stripTerm e).freeOccs ⊆ e.freeOccs := by
  induction e with
  | var n s => rw [stripTerm_var]; exact fun _ ho => ho
  | app op args ih =>
    intro o ho
    have harg : ∀ {args' : List Expr}, (∀ a ∈ args', a ∈ args.map cols.stripTerm) →
        o ∈ args'.flatMap Expr.freeOccs → o ∈ args.flatMap Expr.freeOccs := by
      intro args' hsub ho
      obtain ⟨a', ha', ho⟩ := List.mem_flatMap.1 ho
      obtain ⟨a, ha, rfl⟩ := List.mem_map.1 (hsub a' ha')
      exact List.mem_flatMap.2 ⟨a, ha, ih a ha ho⟩
    rw [Expr.freeOccs_app]
    by_cases hop : ∃ name s, op = .funcApp name s
    · obtain ⟨name, s, rfl⟩ := hop
      rw [stripTerm_funcApp, Expr.freeOccs_app] at ho
      exact harg (fun a ha => mem_of_mem_strip ha) ho
    · rw [stripTerm_app fun name s h => hop ⟨name, s, h⟩, Expr.freeOccs_app] at ho
      exact harg (fun a ha => ha) ho
  | quant q vs b ih =>
    intro o ho
    rw [stripTerm_quant] at ho
    obtain ⟨ho, hvs⟩ := Expr.mem_freeOccs_quant.1 ho
    exact Expr.mem_freeOccs_quant.2 ⟨ih ho, hvs⟩

/-- A term in which no application loses a column stays as it is. -/
theorem stripTerm_eq_self {e : Expr}
    (h : ∀ app ∈ funcApps e, cols.strip app.1 app.2 = app.2) : cols.stripTerm e = e := by
  induction e with
  | var n s => rw [stripTerm_var]
  | app op args ih =>
    have hself : args.map cols.stripTerm = args := by
      conv_rhs => rw [← List.map_id args]
      exact List.map_congr_left fun a ha =>
        ih a ha fun app happ => h app (mem_funcApps_of_mem ha happ)
    by_cases hop : ∃ name s, op = .funcApp name s
    · obtain ⟨name, s, rfl⟩ := hop
      have hmem : (name, args) ∈ funcApps (.app (.funcApp name s) args) := by
        rw [funcApps_funcApp]
        exact List.mem_append_right _ (List.mem_singleton_self _)
      rw [stripTerm_funcApp, hself, h _ hmem]
    · rw [stripTerm_app fun name s h => hop ⟨name, s, h⟩, hself]
  | quant q vs b ih =>
    rw [funcApps] at h
    rw [stripTerm_quant, ih h]

end Columns

/-! ### Readings of functions -/

/-- Readings of functions, of the given sorts. -/
abbrev Theory.Funcs (T : Theory) : Type :=
  String → SmtSort → List T.Val → (s : SmtSort) → T.Dom s

/-- The theory with another reading of its functions. -/
def Theory.withFuncs (T : Theory) (h : T.Funcs) : Theory where
  toCarriers := T.toCarriers
  app op vs s :=
    match op with
    | .funcApp name s' => h name s' vs s
    | op => T.app op vs s

/-- The theory's own reading. -/
def Theory.funcs (T : Theory) : T.Funcs := fun name s' vs s => T.app (.funcApp name s') vs s

namespace Expr

variable {T : Theory} {h h' : T.Funcs} {cols : Columns}

/-- The value of a term where its functions are read so. -/
noncomputable def evalWith (h : T.Funcs) (e : Expr) (ρ : T.Env) : T.Val :=
  e.eval (T := T.withFuncs h) ρ

/-- The formula is true where its functions are read so. -/
def HoldsWith (h : T.Funcs) (ρ : T.Env) (e : Expr) : Prop := (e.evalWith h ρ).toBool = true

theorem evalWith_var (n : String) (s : SmtSort) (ρ : T.Env) :
    (var n s).evalWith h ρ = ⟨s, ρ n s⟩ := eval_var (T := T.withFuncs h) n s ρ

/-- The other operators keep their meaning. -/
theorem interp_withFuncs {op : Op} (hop : ∀ name s, op ≠ .funcApp name s) (vs : List T.Val) :
    (op.interp (T := T.withFuncs h) vs : T.Val) = op.interp (T := T) vs := by
  cases op
  case funcApp name s => exact absurd rfl (hop name s)
  -- an operator of fixed arity looks at the list, and some at the sort of the first value
  all_goals first
    | rfl
    | rcases vs with _ | ⟨v, _ | ⟨v', _ | ⟨v₂, _ | ⟨v₃, vs⟩⟩⟩⟩ <;>
        first
        | rfl
        | obtain ⟨s, x⟩ := v; cases s <;> rfl

theorem evalWith_app {op : Op} (hop : ∀ name s, op ≠ .funcApp name s) (args : List Expr)
    (ρ : T.Env) : (app op args).evalWith h ρ = op.interp (args.map (·.evalWith h ρ)) :=
  (eval_app (T := T.withFuncs h) op args ρ).trans (interp_withFuncs hop _)

theorem evalWith_funcApp (name : String) (s : SmtSort) (args : List Expr) (ρ : T.Env) :
    (app (.funcApp name s) args).evalWith h ρ = ⟨s, h name s (args.map (·.evalWith h ρ)) s⟩ :=
  eval_app (T := T.withFuncs h) (.funcApp name s) args ρ

theorem evalWith_sort (e : Expr) (ρ : T.Env) : (e.evalWith h ρ).1 = e.sort :=
  eval_sort (T := T.withFuncs h) e ρ

open Classical in
theorem evalWith_quant (q : Quantifier) (vs : List (String × SmtSort)) (b : Expr) (ρ : T.Env) :
    (quant q vs b).evalWith h ρ = ofBool (match q with
      | .all => decide (∀ ρ', Theory.AgreeOff (vs.map Prod.fst) ρ ρ' → HoldsWith h ρ' b)
      | .ex => decide (∃ ρ', Theory.AgreeOff (vs.map Prod.fst) ρ ρ' ∧ HoldsWith h ρ' b)) := by
  cases q <;> exact eval.eq_def (T := T.withFuncs h) _ _

theorem evalWith_self (e : Expr) (ρ : T.Env) : e.evalWith T.funcs ρ = e.eval ρ := by
  have happ : (T.withFuncs T.funcs).app = T.app := by
    funext op vs s
    cases op <;> rfl
  have heval : ∀ g, g = T.app → (e.eval (T := ⟨T.toCarriers, g⟩) ρ : T.Val) = e.eval ρ := by
    rintro _ rfl
    rfl
  exact heval _ happ

/-- **A term without the columns** means what the term means where its functions are read without
them. -/
theorem evalWith_stripTerm {e : Expr} (he : ∀ app ∈ funcApps e, ∀ s vs s',
      h app.1 s vs s' = h' app.1 s (cols.strip app.1 vs) s') (ρ : T.Env) :
    e.evalWith h ρ = (cols.stripTerm e).evalWith h' ρ := by
  induction e generalizing ρ with
  | var n s => rw [Columns.stripTerm_var, evalWith_var, evalWith_var]
  | app op args ih =>
    have hargs : args.map (·.evalWith h ρ) = (args.map cols.stripTerm).map (·.evalWith h' ρ) := by
      rw [List.map_map]
      exact List.map_congr_left fun a ha =>
        ih a ha (fun app happ => he app (mem_funcApps_of_mem ha happ)) ρ
    by_cases hop : ∃ name s, op = .funcApp name s
    · obtain ⟨name, s, rfl⟩ := hop
      have hmem : (name, args) ∈ funcApps (.app (.funcApp name s) args) := by
        rw [funcApps_funcApp]
        exact List.mem_append_right _ (List.mem_singleton_self _)
      rw [Columns.stripTerm_funcApp, evalWith_funcApp, evalWith_funcApp, Columns.map_strip, ← hargs,
        he _ hmem]
    · have hne : ∀ name s, op ≠ .funcApp name s := fun name s h => hop ⟨name, s, h⟩
      rw [Columns.stripTerm_app hne, evalWith_app hne, evalWith_app hne, hargs]
  | quant q vs b ih =>
    have hb : ∀ ρ', HoldsWith h ρ' b ↔ HoldsWith h' ρ' (cols.stripTerm b) := fun ρ' => by
      rw [HoldsWith, HoldsWith, ih (by rwa [funcApps] at he)]
    rw [Columns.stripTerm_quant, evalWith_quant, evalWith_quant]
    cases q with
    | all => exact congrArg ofBool (decide_eq_decide.2 (forall₂_congr fun ρ' _ => hb ρ'))
    | ex =>
      exact congrArg ofBool (decide_eq_decide.2
        (exists_congr fun ρ' => and_congr_right' (hb ρ')))

theorem evalWith_eq_eval {e : Expr} (he : ∀ app ∈ funcApps e, ∀ s vs s',
      h app.1 s vs s' = T.funcs app.1 s vs s') (ρ : T.Env) : e.evalWith h ρ = e.eval ρ := by
  have hnone : ∀ (name : String) {α : Type} (xs : List α),
      Columns.strip (fun _ _ => none) name xs = xs := fun _ _ _ => Columns.strip_of_none rfl
  have hstrip : e.evalWith h ρ = (Columns.stripTerm (fun _ _ => none) e).evalWith T.funcs ρ :=
    evalWith_stripTerm (fun app happ s vs s' => by rw [hnone, he app happ]) ρ
  rw [hstrip, Columns.stripTerm_eq_self fun app _ => hnone app.1 app.2, evalWith_self]

end Expr

/-! ### Entailed queries -/

section Entailed

variable {T : Theory} {cols : Columns} {vc vc' : ChcVc}

/-- The relation holds of the values. -/
def Theory.Funcs.Relates (h : T.Funcs) (name : String) (vs : List T.Val) : Prop :=
  toBool (⟨.bool, h name .bool vs .bool⟩ : T.Val) = true

/-- A relation application as a formula. -/
def RelationApp.formula (a : RelationApp) : Expr := .app (.funcApp a.name .bool) a.args

/-- The rule is true for all values of its variables. -/
def Rule.TrueIn (h : T.Funcs) (r : Rule) : Prop :=
  ∀ ρ : T.Env, (∀ a ∈ r.body.relation, a.formula.HoldsWith h ρ) →
    (∀ c ∈ r.body.constraints, c.HoldsWith h ρ) → r.head.formula.HoldsWith h ρ

/-- The declared relations are read as given. -/
def ChcVc.reading (vc : ChcVc) (f : T.Funcs) : T.Funcs := fun name s vs s' =>
  if name ∈ vc.relations.map (·.name) then f name s vs s' else T.funcs name s vs s'

/-- The query has an instance in every reading of the relations that makes the rules true. -/
def ChcVc.Entailed (T : Theory) (vc : ChcVc) : Prop :=
  ∀ f : T.Funcs, (∀ r ∈ vc.rules, r.TrueIn (vc.reading f)) →
    ∃ t vs, vc.target = some t ∧ (vc.reading f).Relates t vs

theorem RelationApp.holdsWith_formula {h : T.Funcs} {ρ : T.Env} {a : RelationApp} :
    a.formula.HoldsWith h ρ ↔ h.Relates a.name (a.args.map (·.evalWith h ρ)) := by
  rw [Expr.HoldsWith, formula, Expr.evalWith_funcApp, Theory.Funcs.Relates]

/-- The arguments of the applications lose no column themselves. -/
def ChcVc.PlainArgs (cols : Columns) (vc : ChcVc) : Prop :=
  ∀ r ∈ vc.rules, ∀ a ∈ r.apps, ∀ e ∈ a.args, ∀ app ∈ funcApps e,
    cols.strip app.1 app.2 = app.2

/-- **No entailed query is lost** where all applications lose the same columns. -/
theorem ChcVc.Entailed.strip (hentailed : vc.Entailed T)
    (hcols : ∀ name n flags, cols name n = some flags → name ∈ vc.relations.map (·.name))
    (hargs : vc.PlainArgs cols) (hrelations : vc'.relations = vc.relations.map cols.stripDecl)
    (hrules : vc'.rules = vc.rules.map cols.stripRule) (htarget : vc'.target = vc.target) :
    vc'.Entailed T := by
  intro f' hf'
  -- the relations of the rules before are read without the columns
  let f : T.Funcs := fun name s vs s' => f' name s (cols.strip name vs) s'
  have hnames : vc'.relations.map (·.name) = vc.relations.map (·.name) := by
    rw [hrelations, List.map_map]
    rfl
  have hread : ∀ name s vs s',
      vc.reading f name s vs s' = vc'.reading f' name s (cols.strip name vs) s' := by
    intro name s vs s'
    simp only [ChcVc.reading, hnames]
    split_ifs with hname
    · rfl
    · have hnone : cols name vs.length = none :=
        Option.eq_none_iff_forall_ne_some.2 fun flags hflags => hname (hcols _ _ _ hflags)
      rw [Columns.strip_of_none hnone]
  have hterm : ∀ (e : Expr) (ρ : T.Env),
      e.evalWith (vc.reading f) ρ = (cols.stripTerm e).evalWith (vc'.reading f') ρ :=
    fun e ρ => Expr.evalWith_stripTerm (fun app _ => hread app.1) ρ
  have happ : ∀ r ∈ vc.rules, ∀ a ∈ r.apps, ∀ ρ : T.Env,
      (cols.stripApp a).formula.HoldsWith (vc'.reading f') ρ ↔
        a.formula.HoldsWith (vc.reading f) ρ := by
    intro r hr a ha ρ
    have hplain : a.args.map (·.evalWith (vc'.reading f') ρ) =
        a.args.map (·.evalWith (vc.reading f) ρ) := List.map_congr_left fun e he => by
      rw [hterm, Columns.stripTerm_eq_self (hargs r hr a ha e he)]
    rw [RelationApp.holdsWith_formula, RelationApp.holdsWith_formula, Theory.Funcs.Relates,
      Theory.Funcs.Relates, hread, Columns.stripApp, Columns.map_strip, hplain]
  obtain ⟨t, vs, ht, hvs⟩ := hentailed f fun r hr ρ hrel hc => by
    refine (happ r hr r.head List.mem_cons_self ρ).1 (hf' (cols.stripRule r) ?_ ρ ?_ ?_)
    · exact hrules ▸ List.mem_map_of_mem hr
    · intro a' ha'
      obtain ⟨a, ha, rfl⟩ := Option.map_eq_some_iff.1 ha'
      exact (happ r hr a (by simp [Rule.apps, ha]) ρ).2 (hrel a ha)
    · intro c' hc'
      obtain ⟨c, hcr, rfl⟩ := List.mem_map.1 hc'
      rw [Expr.HoldsWith, ← hterm]
      exact hc c hcr
  refine ⟨t, cols.strip t vs, htarget.trans ht, ?_⟩
  rwa [Theory.Funcs.Relates, ← hread]

/-- No term of the rules applies a declared relation. -/
def ChcVc.Linear (vc : ChcVc) : Prop :=
  ∀ r ∈ vc.rules, ∀ e ∈ r.terms, ∀ app ∈ funcApps e, app.1 ∉ vc.relations.map (·.name)

theorem ChcVc.Linear.evalWith_eq (hlin : vc.Linear) (f : T.Funcs) {r : Rule} (hr : r ∈ vc.rules)
    {e : Expr} (he : e ∈ r.terms) (ρ : T.Env) : e.evalWith (vc.reading f) ρ = e.eval ρ :=
  Expr.evalWith_eq_eval (fun app happ s vs s' => by
    rw [ChcVc.reading, if_neg (hlin r hr e he app happ)]) ρ

theorem ChcVc.Linear.holdsWith_formula (hlin : vc.Linear) (f : T.Funcs) {r : Rule}
    (hr : r ∈ vc.rules) {a : RelationApp} (ha : a ∈ r.apps) (ρ : T.Env) :
    a.formula.HoldsWith (vc.reading f) ρ ↔
      (vc.reading f).Relates a.name (a.args.map (·.eval ρ)) := by
  have hargs : a.args.map (·.evalWith (vc.reading f) ρ) = a.args.map (·.eval ρ) :=
    List.map_congr_left fun e he => hlin.evalWith_eq f hr (Rule.mem_terms.2 (by
      rcases List.mem_cons.1 ha with rfl | ha
      · exact .inr (.inr he)
      · exact .inl ⟨a, by simpa [Rule.apps] using ha, he⟩)) ρ
  rw [RelationApp.holdsWith_formula, hargs]

/-- **Derivability**: where no term applies a relation, the query is entailed exactly if the rules
derive it. -/
theorem ChcVc.entailed_iff_unsafe (hwf : vc.WellFormed) (hlin : vc.Linear)
    (htarget : ∀ t ∈ vc.target, t ∈ vc.relations.map (·.name)) :
    vc.Entailed T ↔ vc.Unsafe T := by
  classical
  have happ : ∀ r ∈ vc.rules, ∀ a ∈ r.body.relation, a ∈ r.apps := fun r _ a ha => by
    rw [Rule.apps, Option.mem_def.1 ha]
    exact List.mem_cons_of_mem _ List.mem_cons_self
  have hconstraint : ∀ r ∈ vc.rules, ∀ c ∈ r.body.constraints, ∀ (f : T.Funcs) (ρ : T.Env),
      c.HoldsWith (vc.reading f) ρ ↔ c.Holds ρ := fun r hr c hc f ρ => by
    rw [Expr.HoldsWith, hlin.evalWith_eq f hr (Rule.mem_terms.2 (.inr (.inl hc))), Expr.Holds]
  constructor
  · intro hentailed
    -- the least reading
    let f : T.Funcs := fun name _ vs s' => (ofBool (decide (Derives T vc.rules (name, vs)))).as s'
    have hrelates : ∀ name ∈ vc.relations.map (·.name), ∀ vs : List T.Val,
        (vc.reading f).Relates name vs ↔ Derives T vc.rules (name, vs) := fun name hname vs => by
      have hval : (⟨.bool, (ofBool (decide (Derives T vc.rules (name, vs)))).as .bool⟩ : T.Val) =
          ofBool (decide (Derives T vc.rules (name, vs))) := mk_as rfl
      rw [Theory.Funcs.Relates, ChcVc.reading, if_pos hname, hval, toBool_ofBool,
        decide_eq_true_iff]
    have hdeclared : ∀ r ∈ vc.rules, ∀ a ∈ r.apps, a.name ∈ vc.relations.map (·.name) :=
      fun r hr a ha => by
        obtain ⟨d, hd, hname, -⟩ := hwf.declared r hr a ha
        exact hname ▸ List.mem_map_of_mem hd
    obtain ⟨t, vs, ht, hvs⟩ := hentailed f fun r hr ρ hrel hc => by
      have hhead : r.head ∈ r.apps := List.mem_cons_self
      rw [hlin.holdsWith_formula f hr hhead, hrelates _ (hdeclared r hr r.head hhead)]
      refine Derives.of_rule hr (fun a ha => ?_) fun c hcr => ?_
      · have hmem := happ r hr a ha
        have hholds := hrel a ha
        rwa [hlin.holdsWith_formula f hr hmem, hrelates _ (hdeclared r hr a hmem)] at hholds
      · exact (hconstraint r hr c hcr f ρ).1 (hc c hcr)
    exact ⟨t, vs, ht, (hrelates t (htarget t ht) vs).1 hvs⟩
  · rintro ⟨t, vs, ht, hder⟩ f hf
    refine ⟨t, vs, ht, ?_⟩
    have hfires : ∀ (p : Option (Fact T)) (g : Fact T), (system T vc.rules).fires p g →
        (∀ q ∈ p, (vc.reading f).Relates q.1 q.2) → (vc.reading f).Relates g.1 g.2 := by
      rintro p g ⟨r, hr, ρ, rfl, hc, rfl⟩ hp
      refine (hlin.holdsWith_formula f hr List.mem_cons_self ρ).1 (hf r hr ρ (fun a ha => ?_)
        fun c hcr => (hconstraint r hr c hcr f ρ).2 (hc c hcr))
      exact (hlin.holdsWith_formula f hr (happ r hr a ha) ρ).2
        (hp _ (Option.mem_map_of_mem (·.fact ρ) ha))
    exact Horn.System.Derivable.invariant
      (P := fun g : Fact T => (vc.reading f).Relates g.1 g.2)
      (fun g hg => hfires none g hg (by simp))
      (fun q g _ hq hg => hfires (some q) g hg (by simpa using hq)) hder

/-! ### Columns without influence -/

/-- The values have the sorts of a declaration of the relation. -/
def ChcVc.Sorted (vc : ChcVc) (name : String) (vs : List T.Val) : Prop :=
  ∃ d ∈ vc.relations, d.name = name ∧ vs.map (·.1) = d.argSorts

open Classical in
/-- The relations without the columns: they hold of what is left of their well-sorted facts. -/
noncomputable def ChcVc.project (vc : ChcVc) (cols : Columns) (f : T.Funcs) : T.Funcs :=
  fun name _ vs' s' => (ofBool (decide (∃ vs, cols.strip name vs = vs' ∧
    vc.Sorted name vs ∧ f.Relates name vs))).as s'

/-- What is dropped does not influence the rule: where the body holds without the columns, it
holds with them for some values, and the head keeps its columns. -/
def Rule.UninfluencedIn (T : Theory) (vc : ChcVc) (cols : Columns) (r : Rule) : Prop :=
  ∀ (f : T.Funcs) (ρ : T.Env),
    (∀ a ∈ r.body.relation,
      (cols.stripApp a).formula.HoldsWith (vc.reading (vc.project cols f)) ρ) →
    (∀ c ∈ r.body.constraints, (cols.stripTerm c).HoldsWith (vc.reading (vc.project cols f)) ρ) →
    ∃ ρ' : T.Env, (∀ a ∈ r.body.relation, a.formula.HoldsWith (vc.reading f) ρ') ∧
      (∀ c ∈ r.body.constraints, c.HoldsWith (vc.reading f) ρ') ∧
      cols.strip r.head.name (r.head.args.map (·.evalWith (vc.reading f) ρ')) =
        (cols.stripApp r.head).args.map (·.evalWith (vc.reading (vc.project cols f)) ρ)

theorem ChcVc.relates_project {f : T.Funcs} {name : String}
    (hname : name ∈ vc.relations.map (·.name)) {vs' : List T.Val} :
    (vc.reading (vc.project cols f)).Relates name vs' ↔
      ∃ vs, cols.strip name vs = vs' ∧ vc.Sorted name vs ∧ f.Relates name vs := by
  classical
  have hval : ∀ b : Bool, (⟨.bool, (ofBool b).as .bool⟩ : T.Val) = ofBool b := fun _ => mk_as rfl
  rw [Theory.Funcs.Relates, ChcVc.reading, if_pos hname, ChcVc.project, hval, toBool_ofBool,
    decide_eq_true_iff]

/-- **No query is new** where no rule is influenced by what is dropped. -/
theorem ChcVc.Entailed.of_strip (hentailed : vc'.Entailed T) (hwf : vc.WellFormed)
    (hrelations : vc'.relations = vc.relations.map cols.stripDecl)
    (hrules : vc'.rules = vc.rules.map cols.stripRule) (htarget : vc'.target = vc.target)
    (hdeclared : ∀ t ∈ vc.target, t ∈ vc.relations.map (·.name))
    (hun : ∀ r ∈ vc.rules, r.UninfluencedIn T vc cols) : vc.Entailed T := by
  intro f hf
  have hnames : vc'.relations.map (·.name) = vc.relations.map (·.name) := by
    rw [hrelations, List.map_map]
    rfl
  have hread : vc'.reading (vc.project cols f) = vc.reading (vc.project cols f) := by
    funext name s vs s'
    rw [ChcVc.reading, ChcVc.reading, hnames]
  have hself : ∀ name ∈ vc.relations.map (·.name), ∀ vs,
      (vc.reading f).Relates name vs ↔ f.Relates name vs := fun name hname vs => by
    rw [Theory.Funcs.Relates, ChcVc.reading, if_pos hname, Theory.Funcs.Relates]
  obtain ⟨t, vs', ht, hvs'⟩ := hentailed (vc.project cols f) fun r' hr' ρ hrel hc => by
    rw [hread] at hrel hc ⊢
    obtain ⟨r, hr, rfl⟩ := List.mem_map.1 (hrules ▸ hr')
    obtain ⟨ρ', hrel', hc', hhead⟩ := hun r hr f ρ
      (fun a ha => hrel _ (Option.mem_map_of_mem cols.stripApp ha))
      fun c hcr => hc _ (List.mem_map_of_mem hcr)
    have hholds := RelationApp.holdsWith_formula.1 (hf r hr ρ' hrel' hc')
    obtain ⟨d, hd, hname, hsorts⟩ := hwf.declared r hr r.head List.mem_cons_self
    have hmem : r.head.name ∈ vc.relations.map (·.name) := hname ▸ List.mem_map_of_mem hd
    -- the fact of the head before is well-sorted
    refine RelationApp.holdsWith_formula.2 ((ChcVc.relates_project hmem).2
      ⟨_, hhead, ⟨d, hd, hname, ?_⟩, (hself _ hmem _).1 hholds⟩)
    rw [List.map_map, ← hsorts]
    exact List.map_congr_left fun e _ => Expr.evalWith_sort e ρ'
  rw [hread] at hvs'
  obtain ⟨vs, -, -, hvs⟩ := (ChcVc.relates_project (hdeclared t (htarget ▸ ht))).1 hvs'
  exact ⟨t, vs, htarget ▸ ht, (hself t (hdeclared t (htarget ▸ ht)) vs).2 hvs⟩

end Entailed

end TrustMc
