import TrustMc.Bmc.WellTyped

/-!
# The encoding grows by definitions

What every part of the encoder does to its state, before anything is said of values.

* `Symbol.Known`: the symbols that a state has used; the others are fresh.
* `StatementCodegen.Wf`: the terms of a state are over known names and of the sorts of the
  places, and an edge carries the places that are assigned on some path to its target.
* `StatementCodegen.Grows`: the state after a part of a block: its constraints are those before
  and definitions of fresh names, and where the part is not run nothing changes.

The terms keep to what is known because a place is assigned before it is read: no version is
defined by itself.
-/

namespace TrustMc.Bmc

open LoopUnroll Arithmetic TrustMc.Expr

/-! ### Folds -/

section Folds

variable {α β : Type} {P : β → Prop} {Q : α → Prop} {g : β → α → β}

theorem foldl_and (h : ∀ b a, P (g b a) ↔ P b ∧ Q a) (l : List α) (b : β) :
    P (l.foldl g b) ↔ P b ∧ ∀ a ∈ l, Q a := by
  induction l generalizing b with
  | nil => simp
  | cons a l ih => simp [ih, h, and_assoc]

theorem foldl_or (h : ∀ b a, P (g b a) ↔ P b ∨ Q a) (l : List α) (b : β) :
    P (l.foldl g b) ↔ P b ∨ ∃ a ∈ l, Q a := by
  induction l generalizing b with
  | nil => simp
  | cons a l ih => simp [ih, h, or_assoc]

end Folds

/-! ### Names in use -/

/-- The symbols that a state has used. -/
def Symbol.Known (S : StatementCodegen) : Symbol → Prop
  | ssa p v => v < S.ssaVersion p
  | init _ => True
  | any n | assumeCtx n => n < S.nameCounter
  | violation _ n | reach _ n => n < S.labelCounter
  | assumeFinal => False

/-- The symbols that are never defined. -/
def Symbol.Free : Symbol → Prop
  | any _ | init _ => True
  | _ => False

/-- The formula of a condition that may be absent. -/
def GuardOk (known : String → Prop) (guard : Option Expr) : Prop :=
  ∀ e, guard = some e → e.sort = .bool ∧ e.Over known

/-- A term of a type. -/
def Typed (known : String → Prop) (e : Expr) (t : ScalarTy) : Prop := e.sort = t.sort ∧ e.Over known

namespace Env

/-- The environment has a value for the place. -/
def Has (env : Env) (p : Place) : Prop := (env.lookup p).isSome = true

/-- The values are terms of the sorts of the places. -/
def Ok (f : Function) (known : String → Prop) (env : Env) : Prop :=
  ∀ p e, env.lookup p = some e → e.sort = f.placeSort p ∧ e.Over known

variable {f : Function} {known known' : String → Prop} {env : Env} {p q : Place} {e : Expr}

theorem lookup_cons (env : Env) (p q : Place) (e : Expr) :
    List.lookup q ((p, e) :: env) = if q = p then some e else env.lookup q := by
  rw [List.lookup_cons]
  split_ifs with h
  · rw [beq_iff_eq.2 h]
  · rw [beq_eq_false_iff_ne.2 h]

theorem Has.cons (h : env.Has q) : Has ((p, e) :: env) q := by
  rw [Has, lookup_cons]
  split_ifs
  · rfl
  · exact h

theorem has_cons_self : Has ((p, e) :: env) p := by
  rw [Has, lookup_cons, if_pos rfl]
  rfl

theorem Ok.cons (h : env.Ok f known) (he : e.sort = f.placeSort p ∧ e.Over known) :
    Ok f known ((p, e) :: env) := by
  intro q e' hq
  rw [lookup_cons] at hq
  split_ifs at hq with hqp
  · cases hq
    exact hqp ▸ he
  · exact h q e' hq

theorem Ok.mono (h : env.Ok f known) (hknown : ∀ n, known n → known' n) : env.Ok f known' :=
  fun p e he => ⟨(h p e he).1, (h p e he).2.mono hknown⟩

end Env

section Guards

variable {known known' : String → Prop} {g h : Option Expr} {e : Expr}

theorem guardOk_none : GuardOk known none := fun _ h => by cases h

theorem guardOk_some (hsort : e.sort = .bool) (hover : e.Over known) : GuardOk known (some e) :=
  fun _ h => by
    cases h
    exact ⟨hsort, hover⟩

theorem GuardOk.mono (hg : GuardOk known g) (hknown : ∀ n, known n → known' n) :
    GuardOk known' g :=
  fun e he => ⟨(hg e he).1, (hg e he).2.mono hknown⟩

theorem Typed.mono {t : ScalarTy} (he : Typed known e t) (hknown : ∀ n, known n → known' n) :
    Typed known' e t :=
  ⟨he.1, he.2.mono hknown⟩

theorem GuardOk.over_conj (hg : GuardOk known g) (he : e.Over known) : (conj g e).Over known := by
  cases g with
  | none => exact he
  | some g => simpa [conj, he] using (hg g rfl).2

theorem sort_conj (he : e.sort = .bool) : (conj g e).sort = .bool := by
  cases g with
  | none => exact he
  | some g => simp [conj, Op.resultSort]

theorem guardOk_conjGuards (hg : GuardOk known g) (hh : GuardOk known h) :
    GuardOk known (conjGuards g h) := by
  cases g with
  | none => exact hh
  | some a =>
    cases h with
    | none => exact hg
    | some b =>
      exact guardOk_some (by simp [Op.resultSort]) (by simpa using ⟨(hg a rfl).2, (hh b rfl).2⟩)

theorem guardOk_orEdge (hg : GuardOk known g) (hh : GuardOk known h) :
    GuardOk known (StatementCodegen.orEdge g h) := by
  cases g with
  | none => exact guardOk_none
  | some a =>
    cases h with
    | none => exact guardOk_none
    | some b => exact guardOk_some rfl (by simpa using ⟨(hg a rfl).2, (hh b rfl).2⟩)

theorem disjGuards_some : StatementCodegen.disjGuards (some g) h = StatementCodegen.orEdge g h := by
  cases g <;> cases h <;> rfl

theorem guardOk_disjGuards {old : Option (Option Expr)} (hold : ∀ g, old = some g → GuardOk known g)
    (hh : GuardOk known h) : GuardOk known (StatementCodegen.disjGuards old h) := by
  cases old with
  | none => exact hh
  | some g =>
    rw [disjGuards_some]
    exact guardOk_orEdge (hold g rfl) hh

end Guards

namespace StatementCodegen

/-! ### States -/

section Defs

variable (f : Function) (config : Config)

/-- The names of the symbols that the state has used. -/
def Known (S : StatementCodegen) (n : String) : Prop :=
  ∃ s : Symbol, s.name f.name config.hash = n ∧ s.Known S

/-- The names that are never defined. -/
def Free (n : String) : Prop := ∃ s : Symbol, s.name f.name config.hash = n ∧ s.Free

/-- A state of the encoder between two parts of a block. -/
structure Wf (S : StatementCodegen) : Prop where
  constraints : ∀ c ∈ S.constraints, c.Over (S.Known f config)
  violations : ∀ v ∈ S.propertyViolations, v.Over (S.Known f config)
  assumption : GuardOk (S.Known f config) S.assumptionContext
  pathCondition : GuardOk (S.Known f config) S.currentPathCondition
  env : S.currentEnv.Ok f (S.Known f config)
  pathConditions : ∀ b g, S.blockPathConditions b = some g → GuardOk (S.Known f config) g
  edges : ∀ b, ∀ edge ∈ S.incomingEdges b, GuardOk (S.Known f config) edge.edgePredicate ∧
    edge.env.Ok f (S.Known f config) ∧ ∃ A, f.Assigns b A ∧ ∀ p, A p → edge.env.Has p

end Defs

section Meaning

variable {T : Theory} (ν : T.Env)

def GuardHolds (guard : Option Expr) : Prop := ∀ e, guard = some e → Holds ν e

/-- The constraints hold. -/
def Meets (S : StatementCodegen) : Prop := ∀ c ∈ S.constraints, Holds ν c

/-- The assumptions so far hold. -/
def Assumes (S : StatementCodegen) : Prop := GuardHolds ν S.assumptionContext

/-- The encoded run gets here. -/
def Active (S : StatementCodegen) : Prop := GuardHolds ν S.currentPathCondition ∧ Assumes ν S

/-- Some check fails. -/
def Flagged (S : StatementCodegen) : Prop := ∃ v ∈ S.propertyViolations, Holds ν v

variable {ν} {g h : Option Expr} {e : Expr}

@[simp] theorem guardHolds_none : GuardHolds ν none := fun _ h => by cases h

@[simp] theorem guardHolds_some : GuardHolds ν (some e) ↔ Holds ν e := by simp [GuardHolds]

@[simp] theorem holds_conj : Holds ν (conj g e) ↔ GuardHolds ν g ∧ Holds ν e := by
  cases g <;> simp [conj]

@[simp]
theorem guardHolds_conjGuards :
    GuardHolds ν (conjGuards g h) ↔ GuardHolds ν g ∧ GuardHolds ν h := by
  cases g <;> cases h <;> simp [conjGuards]

@[simp]
theorem guardHolds_orEdge : GuardHolds ν (orEdge g h) ↔ GuardHolds ν g ∨ GuardHolds ν h := by
  cases g <;> cases h <;> simp [orEdge]

end Meaning

variable {f : Function} {config : Config} {S S' S'' : StatementCodegen}

/-- The names in use, symbol by symbol. -/
@[simp]
theorem known_name {s : Symbol} : S.Known f config (s.name f.name config.hash) ↔ s.Known S := by
  refine ⟨fun ⟨s', h, hs⟩ => ?_, fun h => ⟨s, rfl, h⟩⟩
  rwa [Symbol.eq_of_name_eq h] at hs

@[simp]
theorem free_name {s : Symbol} : Free f config (s.name f.name config.hash) ↔ s.Free := by
  refine ⟨fun ⟨s', h, hs⟩ => ?_, fun h => ⟨s, rfl, h⟩⟩
  rwa [Symbol.eq_of_name_eq h] at hs

@[simp]
theorem over_symbol {s : Symbol} {sort : SmtSort} :
    (var f config s sort).Over (S.Known f config) ↔ s.Known S := by
  rw [var, over_var, known_name]

theorem Known.mono (hssa : ∀ p, S.ssaVersion p ≤ S'.ssaVersion p)
    (hname : S.nameCounter ≤ S'.nameCounter) (hlabel : S.labelCounter ≤ S'.labelCounter) :
    ∀ n, S.Known f config n → S'.Known f config n := by
  rintro n ⟨s, rfl, hs⟩
  refine ⟨s, rfl, ?_⟩
  cases s with
  | ssa p v => exact hs.trans_le (hssa p)
  | init p => trivial
  | any n | assumeCtx n => exact hs.trans_le hname
  | violation l n | reach l n => exact hs.trans_le hlabel
  | assumeFinal => exact hs

/-! ### Growth -/

variable (f config) in
/-- The state after a part of a block. -/
structure Grows (S S' : StatementCodegen) : Prop where
  wf : S'.Wf f config
  extension : Extends (Free f config) (S.Known f config) (S'.Known f config) S.constraints
    S'.constraints
  pathCondition : S'.currentPathCondition = S.currentPathCondition
  pathConditions : S'.blockPathConditions = S.blockPathConditions
  edges : S'.incomingEdges = S.incomingEdges
  places : ∀ p, S.currentEnv.Has p → S'.currentEnv.Has p
  violations : S.propertyViolations ⊆ S'.propertyViolations
  assumes : ∀ {T : Theory} {ν : T.Env}, Meets ν S' → Assumes ν S' → Assumes ν S
  /-- Where the part is not run, it neither fails a check nor assumes anything. -/
  idle : ∀ {T : Theory} {ν : T.Env}, Meets ν S' → ¬ Active ν S →
    (Flagged ν S' → Flagged ν S) ∧ (Assumes ν S → Assumes ν S')

namespace Grows

theorem refl (h : S.Wf f config) : Grows f config S S where
  wf := h
  extension := .refl
  pathCondition := rfl
  pathConditions := rfl
  edges := rfl
  places _ := id
  violations := List.Subset.refl _
  assumes _ := id
  idle _ _ := ⟨id, id⟩

/-- More definitions, and maybe more checks and assumptions. -/
theorem of_extends (h : S.Wf f config)
    (hext : Extends (Free f config) (S.Known f config) (S'.Known f config) S.constraints
      S'.constraints)
    (hframe : S'.currentPathCondition = S.currentPathCondition ∧
      S'.blockPathConditions = S.blockPathConditions ∧ S'.incomingEdges = S.incomingEdges)
    (henv : S'.currentEnv.Ok f (S'.Known f config))
    (hplaces : ∀ p, S.currentEnv.Has p → S'.currentEnv.Has p)
    (hviol : ∃ vs, S'.propertyViolations = S.propertyViolations ++ vs ∧
      ∀ v ∈ vs, v.Over (S'.Known f config))
    (hctx : S'.assumptionContext = S.assumptionContext ∨
      GuardOk (S'.Known f config) S'.assumptionContext)
    (hassumes : ∀ {T : Theory} {ν : T.Env}, Meets ν S' → Assumes ν S' → Assumes ν S)
    (hidle : ∀ {T : Theory} {ν : T.Env}, Meets ν S' → ¬ Active ν S →
      (Flagged ν S' → Flagged ν S) ∧ (Assumes ν S → Assumes ν S')) : Grows f config S S' := by
  obtain ⟨hpc, hbpc, hedges⟩ := hframe
  obtain ⟨vs, hvs, hover⟩ := hviol
  exact {
    wf := {
      constraints := hext.forall_over h.constraints
      violations := fun v hv => (List.mem_append.1 (hvs ▸ hv)).elim
        (fun hv => (h.violations v hv).mono hext.1) (hover v)
      assumption := hctx.elim (fun heq => heq ▸ h.assumption.mono hext.1) id
      pathCondition := hpc ▸ h.pathCondition.mono hext.1
      env := henv
      pathConditions := fun b g hg => (h.pathConditions b g (hbpc ▸ hg)).mono hext.1
      edges := fun b edge hedge => by
        obtain ⟨hguard, hok, hA⟩ := h.edges b edge (hedges ▸ hedge)
        exact ⟨hguard.mono hext.1, hok.mono hext.1, hA⟩ }
    extension := hext
    pathCondition := hpc
    pathConditions := hbpc
    edges := hedges
    places := hplaces
    violations := hvs ▸ List.subset_append_left _ _
    assumes := hassumes
    idle := hidle }

theorem meets (h : Grows f config S S') {T : Theory} {ν : T.Env} (hν : Meets ν S') : Meets ν S :=
  h.extension.holds hν

theorem flagged (h : Grows f config S S') {T : Theory} {ν : T.Env} (hS : Flagged ν S) :
    Flagged ν S' := by
  obtain ⟨v, hv, hholds⟩ := hS
  exact ⟨v, h.violations hv, hholds⟩

theorem trans (h : Grows f config S S') (h' : Grows f config S' S'') : Grows f config S S'' where
  wf := h'.wf
  extension := h.extension.trans h'.extension
  pathCondition := h'.pathCondition.trans h.pathCondition
  pathConditions := h'.pathConditions.trans h.pathConditions
  edges := h'.edges.trans h.edges
  places p := h'.places p ∘ h.places p
  violations := List.Subset.trans h.violations h'.violations
  assumes hν hS := h.assumes (h'.meets hν) (h'.assumes hν hS)
  idle := by
    intro T ν hν hS
    have hS' : ¬ Active ν S' := fun ⟨hpc, hctx⟩ =>
      hS ⟨h.pathCondition ▸ hpc, h.assumes (h'.meets hν) hctx⟩
    exact ⟨(h.idle (h'.meets hν) hS).1 ∘ (h'.idle hν hS').1,
      (h'.idle hν hS').2 ∘ (h.idle (h'.meets hν) hS).2⟩

end Grows

/-! ### Checks and assumptions -/

section Checks

variable {violation cond : Expr} {label : Label} {guard : Option Expr} {T : Theory} {ν : T.Env}

variable (f config S violation label guard) in
/-- What a check adds: the definition of its flag, and maybe that of its reachability. -/
theorem recordPropertyViolationWithGuard_spec :
    ∃ reach : Option Expr, (∀ e, reach = some e → conjGuards S.assumptionContext guard = some e) ∧
      S.recordPropertyViolationWithGuard f config violation label guard = { S with
        constraints := S.constraints ++
          [.eq (var f config (.violation label S.labelCounter) .bool)
            (conj S.assumptionContext violation)] ++
          (reach.map fun e => .eq (var f config (.reach label S.labelCounter) .bool) e).toList
        labelCounter := S.labelCounter + 1
        propertyViolations :=
          S.propertyViolations ++ [var f config (.violation label S.labelCounter) .bool] } := by
  simp only [recordPropertyViolationWithGuard]
  split
  · exact ⟨none, by simp, by simp [StatementCodegen.assert]⟩
  · rename_i reach hreach
    split_ifs at hreach
    exact ⟨some reach, by simpa using hreach, by simp [StatementCodegen.assert]⟩

theorem flagged_recordPropertyViolationWithGuard
    (hν : Meets ν (S.recordPropertyViolationWithGuard f config violation label guard)) :
    Flagged ν (S.recordPropertyViolationWithGuard f config violation label guard) ↔
      Flagged ν S ∨ Assumes ν S ∧ Holds ν violation := by
  obtain ⟨reach, -, heq⟩ :=
    recordPropertyViolationWithGuard_spec f config S violation label guard
  rw [heq] at hν ⊢
  have hpred : Holds ν (var f config (.violation label S.labelCounter) .bool) ↔
      Assumes ν S ∧ Holds ν violation := by
    have := holds_eq.1 (hν (.eq (var f config (.violation label S.labelCounter) .bool)
      (conj S.assumptionContext violation)) (by simp))
    rw [Holds, this, ← Holds, holds_conj]
    rfl
  simp only [Flagged, List.mem_append, List.mem_singleton, or_and_right, exists_or,
    exists_eq_left, hpred]

theorem flagged_recordViolationGuarded
    (hν : Meets ν (S.recordViolationGuarded f config violation label)) :
    Flagged ν (S.recordViolationGuarded f config violation label) ↔
      Flagged ν S ∨ Active ν S ∧ Holds ν violation := by
  rw [recordViolationGuarded, flagged_recordPropertyViolationWithGuard hν, holds_conj, Active,
    and_assoc, and_left_comm]

theorem grows_recordViolationGuarded (h : S.Wf f config) (hsort : violation.sort = .bool)
    (hover : violation.Over (S.Known f config)) :
    Grows f config S (S.recordViolationGuarded f config violation label) := by
  have hflag : ∀ {T : Theory} {ν : T.Env},
      Meets ν (S.recordViolationGuarded f config violation label) →
      (Flagged ν (S.recordViolationGuarded f config violation label) ↔
        Flagged ν S ∨ Active ν S ∧ Holds ν violation) := flagged_recordViolationGuarded
  obtain ⟨reach, hreach, heq⟩ := recordPropertyViolationWithGuard_spec f config S
    (conj S.currentPathCondition violation) label S.currentPathCondition
  rw [recordViolationGuarded] at hflag ⊢
  generalize S.recordPropertyViolationWithGuard f config _ label _ = S' at heq hflag ⊢
  have hviol : S'.propertyViolations =
      S.propertyViolations ++ [var f config (.violation label S.labelCounter) .bool] := by rw [heq]
  have hlabel : S.labelCounter < S'.labelCounter := by
    rw [heq]
    exact Nat.lt_succ_self _
  have hmono : ∀ n, S.Known f config n → S'.Known f config n :=
    Known.mono (fun p => by rw [heq]) (by rw [heq]) hlabel.le
  have henv : S'.currentEnv = S.currentEnv := by rw [heq]
  have hctx : S'.assumptionContext = S.assumptionContext := by rw [heq]
  -- the flag is defined first, and its reachability after it
  let mid : String → Prop := fun n => S.Known f config n ∨
    n = (Symbol.violation label S.labelCounter).name f.name config.hash
  have hfirst : Extends (Free f config) (S.Known f config) mid S.constraints (S.constraints ++
      [.eq (var f config (.violation label S.labelCounter) .bool)
        (conj S.assumptionContext (conj S.currentPathCondition violation))]) :=
    .define (fun n => .inl) (d := ⟨_, .bool, conj _ _⟩) (sort_conj (sort_conj hsort))
      (fun hn => (lt_irrefl _ (known_name.1 hn))) (fun hn => free_name.1 hn) (.inr rfl)
      (h.assumption.over_conj (h.pathCondition.over_conj hover))
  have hmid : ∀ n, mid n → S'.Known f config n := by
    rintro n (hn | rfl)
    · exact hmono n hn
    · exact known_name.2 hlabel
  have hext : Extends (Free f config) (S.Known f config) (S'.Known f config) S.constraints
      S'.constraints := by
    rw [heq] at hmid ⊢
    refine hfirst.trans ?_
    cases reach with
    | none =>
      rw [Option.map_none, Option.toList_none, List.append_nil]
      exact .of_known hmid
    | some e =>
      obtain ⟨he, hknown⟩ := guardOk_conjGuards h.assumption h.pathCondition e (hreach e rfl)
      refine .define hmid (d := ⟨_, .bool, e⟩) he ?_ (fun hn => free_name.1 hn)
        (known_name.2 (heq ▸ hlabel)) (hknown.mono fun n => .inl)
      rintro (hn | hn)
      · exact lt_irrefl _ (known_name.1 hn)
      · cases Symbol.eq_of_name_eq hn
  refine .of_extends h hext (by rw [heq]; exact ⟨rfl, rfl, rfl⟩) (henv ▸ h.env.mono hmono)
    (fun p hp => henv ▸ hp) ⟨_, hviol, ?_⟩ (.inl hctx) (fun _ hS => by rwa [Assumes, ← hctx])
    fun hν hidle => ⟨fun hS => ((hflag hν).1 hS).resolve_right fun hS => hidle hS.1,
      fun hS => by rwa [Assumes, hctx]⟩
  rintro v hv
  obtain rfl := List.mem_singleton.1 hv
  exact over_symbol.2 hlabel

theorem assumes_assume (hν : Meets ν (S.assume f config cond)) :
    Assumes ν (S.assume f config cond) ↔
      Assumes ν S ∧ (GuardHolds ν S.currentPathCondition → Holds ν cond) := by
  have hdef := hν (.eq (var f config (.assumeCtx S.nameCounter) .bool) (conj S.assumptionContext _))
    (List.mem_append_right _ (List.mem_singleton.2 rfl))
  change GuardHolds ν (some (var f config (.assumeCtx S.nameCounter) .bool)) ↔ _
  rw [guardHolds_some, Holds, holds_eq.1 hdef, ← Holds, holds_conj]
  refine and_congr_right fun _ => ?_
  cases S.currentPathCondition <;> simp

theorem grows_assume (h : S.Wf f config) (hsort : cond.sort = .bool)
    (hover : cond.Over (S.Known f config)) : Grows f config S (S.assume f config cond) := by
  have hname : S.nameCounter < (S.assume f config cond).nameCounter := Nat.lt_succ_self _
  have hmono : ∀ n, S.Known f config n → (S.assume f config cond).Known f config n :=
    Known.mono (fun p => le_rfl) hname.le le_rfl
  have hext : Extends (Free f config) (S.Known f config) ((S.assume f config cond).Known f config)
      S.constraints (S.assume f config cond).constraints := by
    refine .define hmono (d := ⟨_, .bool, conj S.assumptionContext _⟩) (sort_conj ?_)
      (fun hn => lt_irrefl _ (known_name.1 hn)) (fun hn => free_name.1 hn)
      (known_name.2 hname) (h.assumption.over_conj ?_)
    -- under a path condition the term is an implication
    · cases S.currentPathCondition with
      | none => exact hsort
      | some pc => rfl
    · cases hpc : S.currentPathCondition with
      | none => exact hover
      | some pc => simpa [hover] using (h.pathCondition pc hpc).2
  exact .of_extends h hext ⟨rfl, rfl, rfl⟩ (h.env.mono hmono) (fun _ => id)
    ⟨[], (List.append_nil _).symm, by simp⟩ (.inr (guardOk_some rfl (over_symbol.2 hname)))
    (fun hν hS => ((assumes_assume hν).1 hS).1)
    fun hν hidle => ⟨id, fun hS => (assumes_assume hν).2 ⟨hS, fun hpc => absurd ⟨hpc, hS⟩ hidle⟩⟩

end Checks

/-! ### Versions -/

section Versions

variable {p : Place} {rhs e : Expr} {T : Theory} {ν : T.Env}

/-- The next version of a place is taken. -/
def bump (S : StatementCodegen) (p : Place) : StatementCodegen := (S.nextSsaVersion p).2

variable (f config) in
/-- The next version of a place is defined. -/
def bindFresh (S : StatementCodegen) (p : Place) (rhs : Expr) : StatementCodegen :=
  (S.bump p).bindVersion f config p (S.ssaVersion p) rhs

theorem le_bump (q : Place) : S.ssaVersion q ≤ (S.bump p).ssaVersion q := by
  rw [bump, nextSsaVersion]
  rcases eq_or_ne q p with rfl | hne
  · simp
  · simp [hne]

theorem lt_bump : S.ssaVersion p < (S.bump p).ssaVersion p := by simp [bump, nextSsaVersion]

/-- The definition of a version: where the path condition holds, it is the right-hand side. -/
theorem bindFresh_spec (h : S.Wf f config) (hsort : rhs.sort = f.placeSort p)
    (hover : rhs.Over (S.Known f config)) :
    ∃ value : Expr, value.sort = rhs.sort ∧ value.Over (S.Known f config) ∧
      (∀ {T : Theory} {ν : T.Env}, GuardHolds ν S.currentPathCondition →
        value.eval ν = rhs.eval ν) ∧
      S.bindFresh f config p rhs = { (S.bump p) with
        constraints := S.constraints ++
          [.eq (var f config (.ssa p (S.ssaVersion p)) rhs.sort) value]
        currentEnv := (p, var f config (.ssa p (S.ssaVersion p)) rhs.sort) :: S.currentEnv } := by
  cases hpc : S.currentPathCondition with
  | none =>
    refine ⟨rhs, rfl, hover, fun _ => rfl, ?_⟩
    simp only [bindFresh, bindVersion, assertSsaDef, bump, nextSsaVersion, hpc]
    rfl
  | some pc =>
    obtain ⟨hprev, hprevOver⟩ :
        ((S.envLookup p).getD (var f config (.init p) rhs.sort)).sort = rhs.sort ∧
        ((S.envLookup p).getD (var f config (.init p) rhs.sort)).Over (S.Known f config) := by
      cases hp : S.envLookup p with
      | none => exact ⟨rfl, over_symbol.2 trivial⟩
      | some e => exact ⟨(h.env p e hp).1.trans hsort.symm, (h.env p e hp).2⟩
    refine ⟨.ite pc rhs ((S.envLookup p).getD (var f config (.init p) rhs.sort)), ?_, ?_, ?_, ?_⟩
    · simp [Op.resultSort]
    · simpa [hover, hprevOver] using (h.pathCondition pc hpc).2
    · intro T ν hν
      rw [eval_ite hprev.symm, if_pos (guardHolds_some.1 hν)]
    · simp only [bindFresh, bindVersion, assertSsaDef, bump, nextSsaVersion, hpc]
      rfl

/-- Where the path condition holds, the new version is the right-hand side. -/
theorem eval_bindFresh (h : S.Wf f config) (hsort : rhs.sort = f.placeSort p)
    (hover : rhs.Over (S.Known f config)) (hν : Meets ν (S.bindFresh f config p rhs))
    (hpc : GuardHolds ν S.currentPathCondition) :
    (var f config (.ssa p (S.ssaVersion p)) rhs.sort).eval ν = rhs.eval ν := by
  obtain ⟨value, -, -, hvalue, heq⟩ := bindFresh_spec h hsort hover
  rw [heq] at hν
  rw [← hvalue hpc]
  exact holds_eq.1 (hν _ (List.mem_append_right _ (List.mem_singleton.2 rfl)))

theorem currentEnv_bindFresh : (S.bindFresh f config p rhs).currentEnv =
    (p, var f config (.ssa p (S.ssaVersion p)) rhs.sort) :: S.currentEnv := by
  simp only [bindFresh, bindVersion, assertSsaDef, bump, nextSsaVersion]
  split <;> rfl

theorem grows_bindFresh (h : S.Wf f config) (hsort : rhs.sort = f.placeSort p)
    (hover : rhs.Over (S.Known f config)) : Grows f config S (S.bindFresh f config p rhs) := by
  obtain ⟨value, hvalue, hvalueOver, -, heq⟩ := bindFresh_spec h hsort hover
  rw [heq]
  generalize hS' : ({ (S.bump p) with
    constraints := _
    currentEnv := _ } : StatementCodegen) = S'
  have hversion : S.ssaVersion p < S'.ssaVersion p := hS' ▸ lt_bump
  have hmono : ∀ n, S.Known f config n → S'.Known f config n :=
    Known.mono (fun q => hS' ▸ le_bump q) (hS' ▸ le_rfl) (hS' ▸ le_rfl)
  have hext : Extends (Free f config) (S.Known f config) (S'.Known f config) S.constraints
      S'.constraints := by
    rw [← hS'] at hmono hversion ⊢
    exact .define hmono (d := ⟨_, rhs.sort, value⟩) hvalue
      (fun hn => lt_irrefl _ (known_name.1 hn)) (fun hn => free_name.1 hn)
      (known_name.2 hversion) hvalueOver
  have henv : S'.currentEnv = (p, var f config (.ssa p (S.ssaVersion p)) rhs.sort) ::
    S.currentEnv := by rw [← hS']
  refine .of_extends h hext (by rw [← hS']; exact ⟨rfl, rfl, rfl⟩) ?_ (fun q hq => henv ▸ hq.cons)
    ⟨[], by rw [← hS', List.append_nil]; rfl, by simp⟩ (.inl (by rw [← hS']; rfl))
    (fun _ hS => by rwa [← hS'] at hS) fun _ _ => by rw [← hS']; exact ⟨id, id⟩
  rw [henv]
  exact (h.env.mono hmono).cons ⟨hsort, over_symbol.2 hversion⟩

theorem grows_codegenKaniAnyRaw (h : S.Wf f config) :
    Grows f config S (S.codegenKaniAnyRaw f config p) := by
  have hname : S.nameCounter < (S.codegenKaniAnyRaw f config p).nameCounter := Nat.lt_succ_self _
  have hmono : ∀ n, S.Known f config n → (S.codegenKaniAnyRaw f config p).Known f config n :=
    Known.mono le_bump hname.le le_rfl
  exact .of_extends h (.of_known hmono) ⟨rfl, rfl, rfl⟩
    ((h.env.mono hmono).cons ⟨rfl, over_symbol.2 hname⟩) (fun q hq => hq.cons)
    ⟨[], (List.append_nil _).symm, by simp⟩ (.inl rfl) (fun _ => id) fun _ _ => ⟨id, id⟩

end Versions

end StatementCodegen

end TrustMc.Bmc
