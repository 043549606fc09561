import TrustMc.Horn.System
import TrustMc.Smt.Eval

/-!
# Verification conditions

A constrained-Horn-clause verification condition is a list of Horn rules over relations,
each with at most one relation application in its body. A rule is read as universally
quantified over its own variables, so its instances are its readings under all
assignments, and the least model is that of the linear Horn system of these instances.

* `Rule.Fires`: the instances of one rule.
* `system`: the linear Horn system of a list of rules.
* `ChcVc.Unsafe`: the query relation is derivable.
-/

namespace TrustMc

/-- A relation application. -/
structure RelationApp where
  /-- The relation's name. -/
  name : String
  /-- The argument terms. -/
  args : List Expr
  deriving DecidableEq

/-- `RelationApp::nullary`. -/
def RelationApp.nullary (name : String) : RelationApp := ⟨name, []⟩

/-- The premises of a rule. -/
structure RuleBody where
  /-- The optional relation application. -/
  relation : Option RelationApp
  /-- The constraints that must hold. -/
  constraints : List Expr
  deriving DecidableEq

/-- A Horn rule. -/
structure Rule where
  /-- The premises. -/
  body : RuleBody
  /-- The conclusion. -/
  head : RelationApp
  deriving DecidableEq

/-- A relation declaration. -/
structure RelationDecl where
  /-- The relation's name. -/
  name : String
  /-- The sorts of its arguments. -/
  argSorts : List SmtSort
  deriving DecidableEq

/-- A verification condition. -/
structure ChcVc where
  /-- The implicitly quantified variables of the rules. -/
  vars : List (String × SmtSort)
  /-- The relation declarations. -/
  relations : List RelationDecl
  /-- The Horn rules. -/
  rules : List Rule
  /-- The relation queried for reachability. -/
  target : Option String
  /-- Set when the rules were emptied after the obligations were proved by other means. -/
  triviallySafeDischarged : Bool
  deriving DecidableEq

/-- `ChcVc::add_var`: a name is declared once. -/
def ChcVc.addVar (vc : ChcVc) (name : String) (sort : SmtSort) : ChcVc :=
  if name ∈ vc.vars.map Prod.fst then vc else { vc with vars := vc.vars ++ [(name, sort)] }

/-- `ChcVc::add_rule`. -/
def ChcVc.addRule (vc : ChcVc) (r : Rule) : ChcVc := { vc with rules := vc.rules ++ [r] }

@[simp]
theorem ChcVc.rules_addVar (vc : ChcVc) (n : String) (s : SmtSort) :
    (vc.addVar n s).rules = vc.rules := by
  unfold addVar
  split <;> rfl

@[simp]
theorem ChcVc.relations_addVar (vc : ChcVc) (n : String) (s : SmtSort) :
    (vc.addVar n s).relations = vc.relations := by
  unfold addVar
  split <;> rfl

/-- Declarations of variables leave the rules and the relations alone. -/
theorem ChcVc.foldl_addVar (vars : List (String × SmtSort)) (vc : ChcVc) :
    (vars.foldl (fun vc (n, s) => vc.addVar n s) vc).rules = vc.rules ∧
      (vars.foldl (fun vc (n, s) => vc.addVar n s) vc).relations = vc.relations := by
  induction vars generalizing vc with
  | nil => exact ⟨rfl, rfl⟩
  | cons v vars ih =>
    obtain ⟨hrules, hrelations⟩ := ih (vc.addVar v.1 v.2)
    exact ⟨hrules.trans (vc.rules_addVar _ _), hrelations.trans (vc.relations_addVar _ _)⟩

/-! ### Terms of a rule -/

/-- The terms of a rule. -/
def Rule.terms (r : Rule) : List Expr :=
  (r.body.relation.map RelationApp.args).getD [] ++ r.body.constraints ++ r.head.args

/-- The free variable occurrences of a rule. -/
def Rule.freeOccs (r : Rule) : List (String × SmtSort) := r.terms.flatMap Expr.freeOccs

/-- The names bound in the terms of a rule. -/
def Rule.boundVars (r : Rule) : List String := r.terms.flatMap Expr.boundVars

/-- The terms of a rule are well sorted and its constraints are formulas. -/
structure Rule.WellSorted (r : Rule) : Prop where
  /-- Every term is well sorted. -/
  terms : ∀ e ∈ r.terms, e.WellSorted
  /-- Constraints are Boolean. -/
  constraints : ∀ c ∈ r.body.constraints, c.sort = .bool

/-- Every rule is well sorted. -/
def ChcVc.WellSorted (vc : ChcVc) : Prop := ∀ r ∈ vc.rules, r.WellSorted

theorem Rule.mem_terms {r : Rule} {e : Expr} :
    e ∈ r.terms ↔ (∃ a, r.body.relation = some a ∧ e ∈ a.args) ∨ e ∈ r.body.constraints ∨
      e ∈ r.head.args := by
  unfold terms
  cases r.body.relation <;> simp

/-! ### Meaning -/

section Meaning

variable (T : Theory)

/-- The ground facts of a verification condition: a relation applied to values. -/
abbrev Fact : Type := String × List T.Val

variable {T}

/-- A relation application read under an assignment. -/
noncomputable def RelationApp.fact (ρ : T.Env) (a : RelationApp) : Fact T :=
  (a.name, a.args.map (·.eval ρ))

/-- The rule derives `f` from the optional premise `p` under some assignment. -/
def Rule.Fires (r : Rule) (p : Option (Fact T)) (f : Fact T) : Prop :=
  ∃ ρ : T.Env, r.body.relation.map (·.fact ρ) = p ∧
    (∀ c ∈ r.body.constraints, c.Holds ρ) ∧ r.head.fact ρ = f

variable (T)

/-- The linear Horn system of a list of rules. -/
def system (rules : List Rule) : Horn.System (Fact T) :=
  ⟨fun p f => ∃ r ∈ rules, r.Fires p f⟩

/-- The fact is in the least model of the rules. -/
abbrev Derives (rules : List Rule) (f : Fact T) : Prop := (system T rules).Derivable f

/-- The query relation is derivable. -/
def ChcVc.Unsafe (vc : ChcVc) : Prop :=
  ∃ t vs, vc.target = some t ∧ Derives T vc.rules (t, vs)

variable {T}

@[simp]
theorem system_fires {rules : List Rule} {p : Option (Fact T)} {f : Fact T} :
    (system T rules).fires p f ↔ ∃ r ∈ rules, r.Fires p f := Iff.rfl

/-- A rule of the list derives its head from its derivable premise. -/
theorem Derives.of_rule {rules : List Rule} {r : Rule} (hr : r ∈ rules) {ρ : T.Env}
    (hrel : ∀ a, r.body.relation = some a → Derives T rules (a.fact ρ))
    (hc : ∀ c ∈ r.body.constraints, c.Holds ρ) : Derives T rules (r.head.fact ρ) := by
  cases h : r.body.relation with
  | none => exact .fact ⟨r, hr, ρ, by simp [h], hc, rfl⟩
  | some a => exact .step (hrel a h) ⟨r, hr, ρ, by simp [h], hc, rfl⟩

/-- **Two rules**: what the second derives from its premise it derives from the first, whose
relation no other rule has. -/
theorem derives_pair_iff {r₁ r₂ : Rule} {a : RelationApp} (h₁ : r₁.body.relation = none)
    (h₂ : r₂.body.relation = some a) (ha : a.name ≠ r₂.head.name)
    (hne : r₁.head.name ≠ r₂.head.name) {f : Fact T} (hf : f.1 = r₂.head.name) :
    Derives T [r₁, r₂] f ↔ ∃ ρ ρ' : T.Env, (∀ c ∈ r₁.body.constraints, c.Holds ρ) ∧
      r₁.head.fact ρ = a.fact ρ' ∧ (∀ c ∈ r₂.body.constraints, c.Holds ρ') ∧
      r₂.head.fact ρ' = f := by
  have hfact : ∀ {f : Fact T}, (system T [r₁, r₂]).fires none f →
      ∃ ρ, (∀ c ∈ r₁.body.constraints, c.Holds ρ) ∧ r₁.head.fact ρ = f := by
    rintro f ⟨r, hr, ρ, hp, hc, hhead⟩
    rcases List.mem_pair.1 hr with rfl | rfl
    · exact ⟨ρ, hc, hhead⟩
    · simp [h₂] at hp
  have hstep : ∀ {g f : Fact T}, (system T [r₁, r₂]).fires (some g) f →
      ∃ ρ, a.fact ρ = g ∧ (∀ c ∈ r₂.body.constraints, c.Holds ρ) ∧ r₂.head.fact ρ = f := by
    rintro g f ⟨r, hr, ρ, hp, hc, hhead⟩
    rcases List.mem_pair.1 hr with rfl | rfl
    · simp [h₁] at hp
    · rw [h₂, Option.map_some] at hp
      exact ⟨ρ, Option.some.inj hp, hc, hhead⟩
  constructor
  · intro hder
    rcases Horn.System.derivable_iff.1 hder with h | ⟨g, hg, h⟩
    · obtain ⟨ρ, -, rfl⟩ := hfact h
      exact absurd hf hne
    · obtain ⟨ρ', rfl, hc', hhead⟩ := hstep h
      rcases Horn.System.derivable_iff.1 hg with hg | ⟨g', -, hg⟩
      · obtain ⟨ρ, hc, hprem⟩ := hfact hg
        exact ⟨ρ, ρ', hc, hprem, hc', hhead⟩
      · obtain ⟨ρ, -, -, hprem⟩ := hstep hg
        exact absurd (congrArg Prod.fst hprem).symm ha
  · rintro ⟨ρ, ρ', hc, hprem, hc', hhead⟩
    have hfirst : Derives T [r₁, r₂] (r₁.head.fact ρ) :=
      .fact ⟨r₁, List.mem_cons_self, ρ, by rw [h₁]; rfl, hc, rfl⟩
    exact .step hfirst ⟨r₂, by simp, ρ', by rw [h₂, hprem]; rfl, hc', hhead⟩

end Meaning

end TrustMc
