import TrustMc.DirectSmt.Crate
import TrustMc.Words.Separator

/-!
# Clauses with their own variables

The variables of a clause are bound in the clause, so before clauses are composed into one
formula each of them gets variables of its own: the `j`-th variable of clause `i` is called
`{namespace}c{i}_v{j}`.

* `alphaRenamedClauses_eq`: where the renaming succeeds, every clause has been renamed, in every
  variable.
* `renamedVar_inj`: a new variable belongs to one clause and stands for one of its variables.
* `eval_renamed`: a renamed term has the value of the term under the assignment that reads the
  new variables.
-/

namespace TrustMc.DirectSmt

open Native

/-- `name.starts_with(prefix)`. -/
def startsWith (name start : String) : Bool := start.toList.isPrefixOf name.toList

/-- The candidates for the namespace. -/
def namespaceCandidate (namespaceId : ℕ) : String :=
  "__trust_mc_direct_smt_alpha_" ++ toString namespaceId ++ "_"

/-- The search for a namespace no name lies in; the counter may overflow. -/
def freshNamespace (names : List String) : ℕ → ℕ → Option String
  | 0, _ => none
  | fuel + 1, namespaceId =>
    if names.all fun name => !startsWith name (namespaceCandidate namespaceId) then
      some (namespaceCandidate namespaceId)
    else freshNamespace names fuel (namespaceId + 1)

/-- The new name of a variable. -/
def replacementName (ns : String) (clauseIndex variableIndex : ℕ) : String :=
  ns ++ "c" ++ toString clauseIndex ++ "_v" ++ toString variableIndex

section Rename

variable (crate : ExprCrate)

/-- The replacements of a clause's variables. -/
def substitutions (ns : String) (clauseIndex : ℕ) (clause : HornClause) :
    List (ChcVar × ChcExpr) :=
  (crate.clauseVars clause).zipIdx.map fun (v, variableIndex) =>
    (v, .var ⟨replacementName ns clauseIndex variableIndex, v.sort⟩)

/-- The renaming of one clause, with the check that every variable was renamed. -/
def renameClause (ns : String) (clauseIndex : ℕ) (clause : HornClause) : Option HornClause :=
  let σ := substitutions crate ns clauseIndex clause
  let body : ClauseBody :=
    ⟨clause.body.predicates.map fun app => (app.1, app.2.map (crate.substitute · σ)),
      clause.body.constraint.map (crate.substitute · σ)⟩
  let head : Option ClauseHead :=
    match clause.head with
    | .predicate id args => some (.predicate id (args.map (crate.substitute · σ)))
    | .false => some .false
    | .unrecognized => none
  head.bind fun head =>
    let renamed : HornClause := ⟨body, head⟩
    if (crate.clauseVars renamed).all fun v => startsWith v.name ns then some renamed else none

/-- `alpha_renamed_clauses`. -/
def alphaRenamedClauses (problem : ChcProblem) : Option (List HornClause) :=
  if !problem.clauses.all (clauseFitsAlphaSubstitutionLimits crate) then none
  else
    let originalNames := (problem.clauses.flatMap crate.clauseVars).map ChcVar.name
    (freshNamespace originalNames (2 ^ 64) 0).bind fun ns =>
      problem.clauses.zipIdx.mapM fun (clause, clauseIndex) =>
        renameClause crate ns clauseIndex clause

/-! ### The renamed clauses -/

/-- The new variable for a variable of a clause. -/
def renamedVar (ns : String) (clauseIndex : ℕ) (clause : HornClause) (v : ChcVar) : ChcVar :=
  ⟨replacementName ns clauseIndex ((crate.clauseVars clause).idxOf v), v.sort⟩

/-- A clause with every variable renamed. -/
def renamed (ns : String) (clauseIndex : ℕ) (clause : HornClause) : HornClause :=
  let σ := substitutions crate ns clauseIndex clause
  { body := ⟨clause.body.predicates.map fun app => (app.1, app.2.map (ChcExpr.subst σ)),
      clause.body.constraint.map (ChcExpr.subst σ)⟩
    head :=
      match clause.head with
      | .predicate id args => .predicate id (args.map (ChcExpr.subst σ))
      | head => head }

variable {crate}

/-- A clause whose terms fit is renamed in every term. -/
theorem renameClause_eq (hcrate : crate.Lawful) {ns : String} {i : ℕ} {c c' : HornClause}
    (hfits : clauseFitsAlphaSubstitutionLimits crate c = true)
    (h : renameClause crate ns i c = some c') : c' = renamed crate ns i c := by
  have hsubst : ∀ e ∈ terms c, crate.substitute e (substitutions crate ns i c) =
      e.subst (substitutions crate ns i c) := fun e he =>
    hcrate.substitute_eq e _ (fits_of_mem_terms hfits he)
  have hbody : (c.body.predicates.map fun app =>
        (app.1, app.2.map (crate.substitute · (substitutions crate ns i c)))) =
      c.body.predicates.map fun app =>
        (app.1, app.2.map (ChcExpr.subst (substitutions crate ns i c))) := by
    refine List.map_congr_left fun app happ => Prod.ext rfl ?_
    exact List.map_congr_left fun e he => hsubst e <| by
      simp only [terms, List.mem_append, HornClause.bodyArgs]
      exact .inl (.inr (List.mem_flatMap.2 ⟨app, happ, he⟩))
  have hconstraint : c.body.constraint.map (crate.substitute · (substitutions crate ns i c)) =
      c.body.constraint.map (ChcExpr.subst (substitutions crate ns i c)) :=
    Option.map_congr fun e he => hsubst e (by simp [terms, he])
  simp only [renameClause, hbody, hconstraint] at h
  obtain ⟨head, hhead, h⟩ := Option.bind_eq_some_iff.1 h
  split_ifs at h
  obtain rfl := Option.some.inj h
  rw [renamed]
  congr
  cases hc : c.head with
  | predicate id args =>
    rw [hc] at hhead
    obtain rfl := Option.some.inj hhead
    refine congrArg _ (List.map_congr_left fun e he => hsubst e ?_)
    simp [terms, hc, ClauseHead.args, he]
  | «false» =>
    rw [hc] at hhead
    exact (Option.some.inj hhead).symm
  | unrecognized =>
    rw [hc] at hhead
    cases hhead

/-- What is made of each element and its index. -/
private theorem getElem?_of_mapM_zipIdx {α β : Type} {f : α → ℕ → Option β} {g : ℕ → α → β}
    {l : List α} {l' : List β} {k : ℕ} (hf : ∀ a ∈ l, ∀ i b, f a i = some b → b = g i a)
    (h : (l.zipIdx k).mapM (fun p => f p.1 p.2) = some l') (i : ℕ) :
    l'[i]? = l[i]?.map (g (k + i)) := by
  induction l generalizing k l' i with
  | nil =>
    obtain rfl : l' = [] := by simpa using h.symm
    simp
  | cons a l ih =>
    rw [List.zipIdx_cons, List.mapM_cons] at h
    obtain ⟨b, hb, h⟩ := Option.bind_eq_some_iff.1 h
    obtain ⟨bs, hbs, h⟩ := Option.bind_eq_some_iff.1 h
    obtain rfl := Option.some.inj h
    cases i with
    | zero => simp [hf a List.mem_cons_self k b hb]
    | succ i =>
      have hnext := ih (fun a ha => hf a (List.mem_cons_of_mem _ ha)) hbs i
      rw [List.getElem?_cons_succ, List.getElem?_cons_succ, hnext]
      congr 2
      omega

/-- **Renaming**: where it succeeds, every clause has been renamed in every term. -/
theorem alphaRenamedClauses_eq (hcrate : crate.Lawful) {problem : ChcProblem}
    {clauses : List HornClause} (h : alphaRenamedClauses crate problem = some clauses) :
    (∀ c ∈ problem.clauses, clauseFitsAlphaSubstitutionLimits crate c = true) ∧
      ∃ ns, ∀ i, clauses[i]? = problem.clauses[i]?.map (renamed crate ns i) := by
  rw [alphaRenamedClauses] at h
  split_ifs at h with hfits
  have hfits : ∀ c ∈ problem.clauses, clauseFitsAlphaSubstitutionLimits crate c = true := by
    simpa using hfits
  obtain ⟨ns, -, h⟩ := Option.bind_eq_some_iff.1 h
  refine ⟨hfits, ns, fun i => ?_⟩
  have hget := getElem?_of_mapM_zipIdx (g := renamed crate ns)
    (fun c hc i c' hc' => renameClause_eq hcrate (hfits c hc) hc') h i
  rwa [Nat.zero_add] at hget

/-! ### New variables -/

theorem replacementName_inj {ns : String} {i i' j j' : ℕ}
    (h : replacementName ns i j = replacementName ns i' j') : i = i' ∧ j = j' := by
  have hlist := congrArg String.toList h
  simp only [replacementName, String.toList_append, List.append_assoc, List.append_cancel_left_eq]
    at hlist
  have hsep : Words.Unbordered "_v".toList := by decide
  have hnot : ∀ k : ℕ, ¬ "_v".toList <:+: (toString k).toList := fun k => by
    rw [show (toString k).toList = Nat.toDigits 10 k from Nat.toList_repr]
    exact Words.not_infix_toDigits ⟨'_', by decide, by decide⟩
  obtain ⟨hi, hj⟩ := Words.append_inj_of_unbordered hsep (hnot i) (hnot i') hlist
  constructor
  · refine Words.toDigits_inj ?_
    rw [← Nat.toList_repr, ← Nat.toList_repr]
    exact hi
  · refine Words.toDigits_inj ?_
    rw [← Nat.toList_repr, ← Nat.toList_repr]
    exact hj

/-- **A new variable** belongs to one clause and stands for one of its variables. -/
theorem renamedVar_inj {ns : String} {i i' : ℕ} {c c' : HornClause} {v v' : ChcVar}
    (h : renamedVar crate ns i c v = renamedVar crate ns i' c' v') :
    i = i' ∧ (c = c' → v ∈ crate.clauseVars c → v = v') := by
  obtain ⟨hi, hj⟩ := replacementName_inj (congrArg ChcVar.name h)
  refine ⟨hi, ?_⟩
  rintro rfl hv
  exact (List.idxOf_inj hv).1 hj

/-- A variable of the clause is replaced by its new variable. -/
theorem subst_var {ns : String} {i : ℕ} {c : HornClause} {v : ChcVar}
    (hv : v ∈ crate.clauseVars c) :
    (ChcExpr.var v).subst (substitutions crate ns i c) = .var (renamedVar crate ns i c v) := by
  have hlookup : ∀ (l : List ChcVar) (k : ℕ), v ∈ l →
      ((l.zipIdx k).map fun p =>
        (p.1, ChcExpr.var ⟨replacementName ns i p.2, p.1.sort⟩)).lookup v =
          some (.var ⟨replacementName ns i (k + l.idxOf v), v.sort⟩) := by
    intro l
    induction l with
    | nil => exact fun _ h => absurd h List.not_mem_nil
    | cons w l ih =>
      intro k hmem
      by_cases hw : v = w
      · subst hw
        simp
      · have hl : v ∈ l := (List.mem_cons.1 hmem).resolve_left hw
        have hbeq : (v == w) = false := by simpa using hw
        rw [List.zipIdx_cons, List.map_cons, List.lookup_cons, hbeq, ih (k + 1) hl,
          List.idxOf_cons_ne _ (Ne.symm hw), Nat.succ_eq_add_one, Nat.add_right_comm,
          Nat.add_assoc]
  rw [ChcExpr.subst, substitutions, hlookup _ 0 hv]
  simp [renamedVar]

/-- The assignment of a clause's variables that reads the new variables. -/
def readRenamed (crate : ExprCrate) (ns : String) (i : ℕ) (c : HornClause) {T : Theory}
    (ρ : ChcEnv T) : ChcEnv T :=
  fun v => ρ (renamedVar crate ns i c v)

section Eval

variable {T : Theory} {ns : String} {i : ℕ} {c : HornClause}

/-- **A renamed term** has the value of the term under the assignment that reads the new
variables. -/
theorem eval_renamed (hcrate : crate.Lawful)
    (hfits : clauseFitsAlphaSubstitutionLimits crate c = true) {e : ChcExpr}
    (he : e ∈ terms c) (ρ : ChcEnv T) :
    (e.subst (substitutions crate ns i c)).eval ρ = e.eval (readRenamed crate ns i c ρ) := by
  refine ChcExpr.eval_subst fun v hv => ?_
  rw [subst_var ((hcrate.mem_clauseVars c hfits v).2 (mem_vars_iff.2 ⟨e, he, hv⟩)),
    ChcExpr.eval_var, ChcExpr.eval_var]
  rfl

/-- The variables of a renamed term are new ones. -/
theorem vars_renamed (hcrate : crate.Lawful)
    (hfits : clauseFitsAlphaSubstitutionLimits crate c = true) {e : ChcExpr}
    (he : e ∈ terms c) {w : ChcVar} :
    w ∈ (e.subst (substitutions crate ns i c)).vars ↔
      ∃ v ∈ e.vars, renamedVar crate ns i c v = w := by
  rw [ChcExpr.vars_subst]
  refine exists_congr fun v => and_congr_right fun hv => ?_
  rw [subst_var ((hcrate.mem_clauseVars c hfits v).2 (mem_vars_iff.2 ⟨e, he, hv⟩))]
  simp [ChcExpr.vars, eq_comm]

/-- The values of renamed terms. -/
theorem map_eval_renamed (hcrate : crate.Lawful)
    (hfits : clauseFitsAlphaSubstitutionLimits crate c = true) {es : List ChcExpr}
    (hes : ∀ e ∈ es, e ∈ terms c) (ρ : ChcEnv T) :
    (es.map (ChcExpr.subst (substitutions crate ns i c))).map (·.eval ρ) =
      es.map (·.eval (readRenamed crate ns i c ρ)) := by
  rw [List.map_map]
  exact List.map_congr_left fun e he => eval_renamed hcrate hfits (hes e he) ρ

end Eval

/-! ### The parts of a renamed clause -/

section Parts

variable {ns : String} {i : ℕ} {c : HornClause}

theorem renamed_body : (renamed crate ns i c).body.predicates = c.body.predicates.map fun app =>
    (app.1, app.2.map (ChcExpr.subst (substitutions crate ns i c))) := rfl

theorem renamed_constraint : (renamed crate ns i c).body.constraint =
    c.body.constraint.map (ChcExpr.subst (substitutions crate ns i c)) := rfl

theorem renamed_head {pred : ℕ} {args' : List ChcExpr} :
    (renamed crate ns i c).head = .predicate pred args' ↔ ∃ args, c.head = .predicate pred args ∧
      args' = args.map (ChcExpr.subst (substitutions crate ns i c)) := by
  rw [renamed]
  cases c.head <;> simp [eq_comm]

theorem renamed_head_false : (renamed crate ns i c).head = .false ↔ c.head = .false := by
  rw [renamed]
  cases c.head <;> simp

theorem renamed_head_unrecognized :
    (renamed crate ns i c).head = .unrecognized ↔ c.head = .unrecognized := by
  rw [renamed]
  cases c.head <;> simp

theorem mem_terms_body {app : ℕ × List ChcExpr} (happ : app ∈ c.body.predicates) {e : ChcExpr}
    (he : e ∈ app.2) : e ∈ terms c := by
  simp only [terms, HornClause.bodyArgs, List.mem_append, List.mem_flatMap]
  exact .inl (.inr ⟨app, happ, he⟩)

theorem mem_terms_head {pred : ℕ} {args : List ChcExpr} (hhead : c.head = .predicate pred args)
    {e : ChcExpr} (he : e ∈ args) : e ∈ terms c := by
  simp [terms, hhead, ClauseHead.args, he]

/-- The terms of a renamed clause are the renamed terms of the clause. -/
theorem exists_of_mem_terms_renamed {e' : ChcExpr} (he' : e' ∈ terms (renamed crate ns i c)) :
    ∃ e ∈ terms c, e.subst (substitutions crate ns i c) = e' := by
  simp only [terms, HornClause.bodyArgs, List.mem_append] at he'
  rcases he' with (he' | he') | he'
  · rw [renamed_constraint, Option.mem_toList, Option.map_eq_some_iff] at he'
    obtain ⟨e, he, rfl⟩ := he'
    exact ⟨e, by simp [terms, he], rfl⟩
  · rw [renamed_body, List.mem_flatMap] at he'
    obtain ⟨app', happ', he'⟩ := he'
    obtain ⟨app, happ, rfl⟩ := List.mem_map.1 happ'
    obtain ⟨e, he, rfl⟩ := List.mem_map.1 he'
    exact ⟨e, mem_terms_body happ he, rfl⟩
  · cases hhead : (renamed crate ns i c).head with
    | predicate pred args' =>
      obtain ⟨args, hargs, rfl⟩ := renamed_head.1 hhead
      rw [hhead] at he'
      obtain ⟨e, he, rfl⟩ := List.mem_map.1 he'
      exact ⟨e, mem_terms_head hargs he, rfl⟩
    | «false» | unrecognized =>
      rw [hhead] at he'
      exact absurd he' List.not_mem_nil

/-- The constraint of a renamed clause. -/
theorem holds_renamed_constraint (hcrate : crate.Lawful)
    (hfits : clauseFitsAlphaSubstitutionLimits crate c = true) {T : Theory} {ρ : ChcEnv T} :
    (∀ k ∈ (renamed crate ns i c).body.constraint, k.Holds ρ) ↔
      ∀ k ∈ c.body.constraint, k.Holds (readRenamed crate ns i c ρ) := by
  rw [renamed_constraint]
  have heval : ∀ k ∈ c.body.constraint, (k.subst (substitutions crate ns i c)).eval ρ =
      k.eval (readRenamed crate ns i c ρ) := fun k hk =>
    eval_renamed hcrate hfits (by simp [terms, Option.mem_def.1 hk]) ρ
  simp only [Option.mem_map, forall_exists_index, and_imp, forall_apply_eq_imp_iff₂]
  refine forall₂_congr fun k hk => ?_
  rw [ChcExpr.Holds, ChcExpr.Holds, heval k hk]

end Parts

end Rename

end TrustMc.DirectSmt
