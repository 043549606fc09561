import TrustMc.Native.BoundedUnroll
import TrustMc.Words.Separator
import Mathlib.Tactic.Ring

/-!
# The unrolled problem is the bounded fragment

The copies of the clauses fire exactly the copies of the clauses' instances, a retreating
edge leading one level up (`copyClause_fires`); so the unrolled problem is a system of level
copies of the input (`copies_of_unroll`), and its query is derivable exactly when the input
has a derivation of its query that traverses at most `k` retreating edges.

Names matter in one place only: the level suffix keeps the names of the copies apart
(`levelName_inj`), so each copy is declared as a predicate of its own.
-/

namespace TrustMc

namespace Native

open Horn.System

/-! ### Names of copies -/

theorem unbordered_unrollLevelMarker : Words.Unbordered unrollLevelMarker.toList := by
  decide

/-- The name of a copy determines the predicate and the level. -/
theorem levelName_inj {a b : String} {l l' : ℕ} (ha : ¬ unrollLevelMarker.toList <:+: a.toList)
    (hb : ¬ unrollLevelMarker.toList <:+: b.toList) (h : levelName a l = levelName b l') :
    a = b ∧ l = l' := by
  have hlist := congrArg String.toList h
  simp only [levelName, String.toList_append, List.append_assoc] at hlist
  obtain ⟨hab, hl⟩ := Words.append_inj_of_unbordered unbordered_unrollLevelMarker ha hb hlist
  refine ⟨String.toList_inj.1 hab, Words.toDigits_inj ?_⟩
  rw [← Nat.toList_repr, ← Nat.toList_repr]
  exact hl

/-- No name holds the reserved marker. -/
def MarkerFree (predicates : List Predicate) : Prop :=
  ∀ p ∈ predicates, ¬ unrollLevelMarker.toList <:+: p.name.toList

/-! ### Declaring the copies -/

section Declare

variable {crate : ChcCrate}

/-- The names declared in a problem. -/
abbrev ChcProblem.names (problem : ChcProblem) : List String :=
  problem.predicates.map Predicate.name

/-- One level is declared under consecutive indices. -/
theorem declareLevel_spec (hc : crate.Lawful) {level : ℕ} {predicates : List Predicate}
    (hfree : MarkerFree predicates) (hnodup : (predicates.map Predicate.name).Nodup)
    {u : ChcProblem} (hfresh : ∀ p ∈ predicates, levelName p.name level ∉ u.names) :
    (declareLevel crate level predicates u).1.names =
        u.names ++ predicates.map (levelName ·.name level) ∧
      (declareLevel crate level predicates u).1.clauses = u.clauses ∧
      (declareLevel crate level predicates u).2 =
        List.range' u.predicates.length predicates.length := by
  induction predicates generalizing u with
  | nil => simp [declareLevel]
  | cons p predicates ih =>
    obtain ⟨hp, hnodup⟩ := List.nodup_cons.1 hnodup
    obtain ⟨hpreds, hid⟩ := hc.declare_fresh u (levelName p.name level) p.argSorts
      (hfresh p List.mem_cons_self)
    have hnames : (crate.declarePredicate u (levelName p.name level) p.argSorts).1.names =
        u.names ++ [levelName p.name level] := by
      rw [ChcProblem.names, hpreds, List.map_append]
      rfl
    have hfresh' : ∀ q ∈ predicates, levelName q.name level ∉
        (crate.declarePredicate u (levelName p.name level) p.argSorts).1.names := by
      intro q hq hmem
      rw [hnames, List.mem_append, List.mem_singleton] at hmem
      rcases hmem with hmem | heq
      · exact hfresh q (List.mem_cons_of_mem _ hq) hmem
      · obtain ⟨heq, -⟩ := levelName_inj (hfree q (List.mem_cons_of_mem _ hq))
          (hfree p List.mem_cons_self) heq
        exact hp (List.mem_map.2 ⟨q, hq, heq⟩)
    obtain ⟨h₁, h₂, h₃⟩ := ih (fun q hq => hfree q (List.mem_cons_of_mem _ hq)) hnodup hfresh'
    simp only [declareLevel]
    refine ⟨?_, ?_, ?_⟩
    · rw [h₁, hnames, List.append_assoc]
      rfl
    · rw [h₂, hc.clauses_declare]
    · rw [h₃, hid, hpreds, List.length_append]
      rfl

/-- The levels are declared one after the other. -/
theorem declareLevels_spec (hc : crate.Lawful) {predicates : List Predicate}
    (hfree : MarkerFree predicates) (hnodup : (predicates.map Predicate.name).Nodup)
    {levels : List ℕ} (hlevels : levels.Nodup) {u : ChcProblem}
    (hfresh : ∀ l ∈ levels, ∀ p ∈ predicates, levelName p.name l ∉ u.names) :
    (declareLevels crate predicates levels u).1.clauses = u.clauses ∧
      ∀ l i, levelId (declareLevels crate predicates levels u).2 l i =
        if l < levels.length ∧ i < predicates.length then
          some (u.predicates.length + l * predicates.length + i)
        else none := by
  induction levels generalizing u with
  | nil => simp [declareLevels, levelId]
  | cons level levels ih =>
    obtain ⟨hlevel, hlevels⟩ := List.nodup_cons.1 hlevels
    obtain ⟨hnames, hclauses, hrow⟩ := declareLevel_spec hc hfree hnodup
      (hfresh level List.mem_cons_self)
    have hfresh' : ∀ l ∈ levels, ∀ p ∈ predicates,
        levelName p.name l ∉ (declareLevel crate level predicates u).1.names := by
      intro l hl p hp hmem
      rw [hnames, List.mem_append] at hmem
      rcases hmem with hmem | hmem
      · exact hfresh l (List.mem_cons_of_mem _ hl) p hp hmem
      · obtain ⟨q, hq, heq⟩ := List.mem_map.1 hmem
        obtain ⟨-, rfl⟩ := levelName_inj (hfree q hq) (hfree p hp) heq
        exact hlevel hl
    have hlen : (declareLevel crate level predicates u).1.predicates.length =
        u.predicates.length + predicates.length := by
      have := congrArg List.length hnames
      simpa using this
    obtain ⟨h₁, h₂⟩ := ih hlevels hfresh'
    refine ⟨h₁.trans hclauses, fun l i => ?_⟩
    cases l with
    | zero =>
      simp only [declareLevels, levelId, List.getElem?_cons_zero, Option.bind_some, hrow,
        List.length_cons]
      split <;> simp_all
    | succ l =>
      have hsucc := h₂ l i
      simp only [levelId] at hsucc
      simp only [declareLevels, levelId, List.getElem?_cons_succ, hsucc, hlen, List.length_cons,
        Nat.add_lt_add_iff_right]
      refine if_congr Iff.rfl ?_ rfl
      congr 1
      ring

end Declare

/-! ### Adding the copies -/

/-- What `addCopies` adds. -/
theorem mem_addCopies {crate : ChcCrate} (hc : crate.Lawful)
    {copy : ℕ × HornClause → Option (Option HornClause)} {lcs : List (ℕ × HornClause)}
    {u u' : ChcProblem} (h : addCopies crate copy lcs u = some u') :
    (∀ lc ∈ lcs, ∃ r, copy lc = some r) ∧
      ∀ c, c ∈ u'.clauses ↔ c ∈ u.clauses ∨ ∃ lc ∈ lcs, copy lc = some (some c) := by
  induction lcs generalizing u with
  | nil =>
    obtain rfl := Option.some.inj h
    simp
  | cons lc lcs ih =>
    unfold addCopies at h
    cases hcopy : copy lc with
    | none => simp [hcopy] at h
    | some r =>
      cases r with
      | none =>
        simp only [hcopy] at h
        obtain ⟨hall, hmem⟩ := ih h
        refine ⟨?_, fun c => ?_⟩
        · simpa [hcopy] using hall
        · rw [hmem]
          simp [hcopy]
      | some clause =>
        simp only [hcopy] at h
        obtain ⟨hall, hmem⟩ := ih h
        refine ⟨?_, fun c => ?_⟩
        · simpa [hcopy] using hall
        · rw [hmem, hc.clauses_add]
          simp [hcopy, or_assoc, eq_comm]

theorem mem_leveledClauses {levels : ℕ} {clauses : List HornClause} {l : ℕ} {c : HornClause} :
    (l, c) ∈ leveledClauses levels clauses ↔ l < levels ∧ c ∈ clauses := by
  simp [leveledClauses]

/-! ### Instances of the copies -/

section Copy

variable {M : Reading} {edges : List (ℕ × ℕ)} {count k : ℕ}

/-- The copy of a fact at a level. -/
def copyFact (count level : ℕ) (f : ChcFact M) : ChcFact M :=
  f.map fun p => (level * count + p.1, p.2)

/-- The cost of an instance. -/
def stepCost (edges : List (ℕ × ℕ)) (p : Option (ChcFact M)) (f : ChcFact M) : ℕ :=
  p.elim 0 (traversal edges · f)

/-- The predicates of the levels `0, …, k` stand at consecutive indices. -/
def Consecutive (levelPredicates : List (List ℕ)) (count k : ℕ) : Prop :=
  ∀ l i, levelId levelPredicates l i =
    if l < k + 1 ∧ i < count then some (l * count + i) else none

/-- The instances of a clause that start at level `l` and stay within the levels. -/
def CopiedInstance (edges : List (ℕ × ℕ)) (count k l : ℕ) (c : HornClause)
    (p' : Option (ChcFact M)) (f' : ChcFact M) : Prop :=
  ∃ p f, c.Fires p f ∧ (p = none → l = 0) ∧ l + stepCost edges p f ≤ k ∧
    p.map (copyFact count l) = p' ∧ copyFact count (l + stepCost edges p f) f = f'

/-- The body's copy reads the copies of the body's facts. -/
theorem mapM_levelId {levelPredicates : List (List ℕ)} (hlp : Consecutive levelPredicates count k)
    {l : ℕ} {apps apps' : List (ℕ × List ChcExpr)}
    (h : apps.mapM (fun app => (levelId levelPredicates l app.1).map fun id => (id, app.2)) =
      some apps') :
    (∀ app ∈ apps, app.1 < count) ∧ ∀ ρ : M.Env,
      apps'.map (appFact ρ) = (apps.map (appFact ρ)).map (copyFact count l) := by
  induction apps generalizing apps' with
  | nil =>
    obtain rfl : apps' = [] := by simpa using h.symm
    exact ⟨by simp, fun _ => rfl⟩
  | cons app apps ih =>
    rw [List.mapM_cons] at h
    obtain ⟨app', happ, h⟩ := Option.bind_eq_some_iff.1 h
    obtain ⟨apps', htail, h⟩ := Option.bind_eq_some_iff.1 h
    obtain rfl := Option.some.inj h
    obtain ⟨id, hid, rfl⟩ := Option.map_eq_some_iff.1 happ
    rw [hlp] at hid
    split at hid
    · rename_i hlt
      obtain rfl := Option.some.inj hid
      obtain ⟨hrange, hcopy⟩ := ih htail
      refine ⟨List.forall_mem_cons.2 ⟨hlt.2, hrange⟩, fun ρ => ?_⟩
      rw [List.map_cons, List.map_cons, List.map_cons, hcopy]
      rfl
    · simp at hid

/-- A back edge costs one level. -/
theorem stepCost_predicate {c : HornClause} {p : Option (ChcFact M)} {ρ : M.Env}
    (hbody : c.body.predicates.map (appFact ρ) = p.toList) (id : ℕ) (args : List ChcExpr) :
    stepCost edges p (appFact ρ (id, args)) = if isBackEdge edges c id then 1 else 0 := by
  cases p with
  | none =>
    have hnil : c.body.predicates = [] := by simpa using hbody
    simp [stepCost, isBackEdge, hnil]
  | some g =>
    obtain ⟨app, hsingle, rfl⟩ : ∃ app, c.body.predicates = [app] ∧ appFact ρ app = g := by
      simpa [List.map_eq_singleton_iff] using hbody
    simp [stepCost, isBackEdge, hsingle, traversal, appFact]

/-- The premises of a copy are the copies of the premises. -/
theorem map_appFact_copy {levelPredicates : List (List ℕ)}
    (hlp : Consecutive levelPredicates count k) {l : ℕ} {apps apps' : List (ℕ × List ChcExpr)}
    (hlinear : apps.length ≤ 1)
    (h : apps.mapM (fun app => (levelId levelPredicates l app.1).map fun id => (id, app.2)) =
      some apps') (ρ : M.Env) (p' : Option (ChcFact M)) :
    apps'.map (appFact ρ) = p'.toList ↔
      ∃ p : Option (ChcFact M), apps.map (appFact ρ) = p.toList ∧
        p.map (copyFact count l) = p' := by
  rw [(mapM_levelId hlp h).2 ρ]
  match apps, hlinear with
  | [], _ =>
    refine ⟨fun hp' => ⟨none, rfl, ?_⟩, ?_⟩
    · have hp' : p' = none := by simpa using hp'
      exact hp'.symm
    · rintro ⟨p, hp, rfl⟩
      obtain rfl : p = none := by simpa using hp
      rfl
  | [app], _ =>
    refine ⟨fun hp' => ⟨some (appFact ρ app), rfl, ?_⟩, ?_⟩
    · cases p' with
      | none => simp at hp'
      | some g' => simpa using hp'
    · rintro ⟨p, hp, rfl⟩
      cases p with
      | none => simp at hp
      | some g =>
        obtain rfl : appFact ρ app = g := by simpa using hp
        rfl

/-- **Instances of a copy**: when `copyClause` does not decline, what it adds fires exactly
the copies of the clause's instances that start at its level and stay within the levels. -/
theorem copyClause_fires {levelPredicates : List (List ℕ)}
    (hlp : Consecutive levelPredicates count k) {l : ℕ} (hl : l ≤ k) {c : HornClause}
    (hlinear : c.body.predicates.length ≤ 1) {r : Option HornClause}
    (h : copyClause levelPredicates edges (k + 1) l c = some r) (p' : Option (ChcFact M))
    (f' : ChcFact M) :
    (∃ c', r = some c' ∧ c'.Fires p' f') ↔ CopiedInstance edges count k l c p' f' := by
  unfold copyClause at h
  split at h
  · -- a fact above level `0` has no copy
    rename_i hskip
    obtain rfl := Option.some.inj h
    have hnil : c.body.predicates = [] := List.isEmpty_iff.1 hskip.1
    refine ⟨by simp, ?_⟩
    rintro ⟨p, f, ⟨ρ, hbody, -⟩, hzero, -⟩
    have hp : p = none := by
      rw [hnil] at hbody
      simpa using hbody
    have := hzero hp
    omega
  · rename_i hskip
    obtain ⟨apps', hmap, h⟩ := Option.bind_eq_some_iff.1 h
    have hbody := fun ρ p' => map_appFact_copy (M := M) hlp hlinear hmap ρ p'
    have hzero : ∀ {ρ : M.Env} {p : Option (ChcFact M)},
        c.body.predicates.map (appFact ρ) = p.toList → p = none → l = 0 := by
      rintro ρ p hp rfl
      have hnil : c.body.predicates = [] := by simpa using hp
      by_contra hpos
      exact hskip ⟨by simp [hnil], by omega⟩
    cases hhead : c.head with
    | unrecognized => simp [hhead] at h
    | false =>
      simp only [hhead] at h
      obtain rfl := Option.some.inj h
      have hcost : ∀ p : Option (ChcFact M), stepCost edges p none = 0 := by
        rintro (- | - | -) <;> rfl
      constructor
      · rintro ⟨c', hc', ρ, hp', hcon, hf'⟩
        obtain rfl := Option.some.inj hc'
        obtain rfl := ClauseHead.fact_false.1 hf'
        obtain ⟨p, hp, rfl⟩ := (hbody ρ p').1 hp'
        refine ⟨p, none, ⟨ρ, hp, hcon, ?_⟩, hzero hp, ?_, rfl, rfl⟩
        · rw [hhead]
          exact .false
        · rw [hcost]
          exact hl
      · rintro ⟨p, f, ⟨ρ, hp, hcon, hf⟩, -, -, rfl, rfl⟩
        rw [hhead] at hf
        obtain rfl := ClauseHead.fact_false.1 hf
        exact ⟨_, rfl, ρ, (hbody ρ _).2 ⟨p, hp, rfl⟩, hcon, .false⟩
    | predicate id args =>
      simp only [hhead] at h
      set headLevel := if isBackEdge edges c id then l + 1 else l with hlevel
      have hcost : ∀ {ρ : M.Env} {p : Option (ChcFact M)},
          c.body.predicates.map (appFact ρ) = p.toList →
          l + stepCost edges p (appFact ρ (id, args)) = headLevel := by
        intro ρ p hp
        rw [stepCost_predicate hp, hlevel]
        split <;> rfl
      split at h
      · -- the head would stand above the last level
        rename_i hlast
        obtain rfl := Option.some.inj h
        refine ⟨by simp, ?_⟩
        rintro ⟨p, f, ⟨ρ, hp, -, hf⟩, -, hle, -⟩
        rw [hhead] at hf
        obtain rfl := ClauseHead.fact_predicate.1 hf
        rw [hcost hp] at hle
        omega
      · rename_i hlast
        obtain ⟨id', hid, rfl⟩ := Option.map_eq_some_iff.1 h
        rw [hlp] at hid
        split at hid
        · obtain rfl := Option.some.inj hid
          constructor
          · rintro ⟨c', hc', ρ, hp', hcon, hf'⟩
            obtain rfl := Option.some.inj hc'
            obtain rfl := ClauseHead.fact_predicate.1 hf'
            obtain ⟨p, hp, rfl⟩ := (hbody ρ p').1 hp'
            refine ⟨p, appFact ρ (id, args), ⟨ρ, hp, hcon, ?_⟩, hzero hp, ?_, rfl, ?_⟩
            · rw [hhead]
              exact .predicate id args
            · rw [hcost hp]
              omega
            · rw [hcost hp]
              rfl
          · rintro ⟨p, f, ⟨ρ, hp, hcon, hf⟩, -, -, rfl, rfl⟩
            rw [hhead] at hf
            obtain rfl := ClauseHead.fact_predicate.1 hf
            refine ⟨_, rfl, ρ, (hbody ρ _).2 ⟨p, hp, rfl⟩, hcon, ?_⟩
            rw [hcost hp]
            exact .predicate _ args
        · simp at hid

/-- The body predicates of a copied clause are declared. -/
theorem body_lt_of_copyClause {levelPredicates : List (List ℕ)}
    (hlp : Consecutive levelPredicates count k) {c : HornClause} {r : Option HornClause}
    (h : copyClause levelPredicates edges (k + 1) 0 c = some r) :
    ∀ app ∈ c.body.predicates, app.1 < count := by
  rw [copyClause, if_neg (by simp)] at h
  obtain ⟨apps', hmap, -⟩ := Option.bind_eq_some_iff.1 h
  exact (mapM_levelId (M := ⟨Unit, Unit, fun _ _ => (), fun _ _ => True⟩) hlp hmap).1

/-- The head predicate of a copy within the levels is declared. -/
theorem head_lt_of_copyClause {levelPredicates : List (List ℕ)}
    (hlp : Consecutive levelPredicates count k) {l : ℕ} {c : HornClause}
    (hzero : c.body.predicates = [] → l = 0) {r : Option HornClause}
    (h : copyClause levelPredicates edges (k + 1) l c = some r) {id : ℕ} {args : List ChcExpr}
    (hhead : c.head = .predicate id args)
    (hle : l + (if isBackEdge edges c id then 1 else 0) ≤ k) : id < count := by
  have hskip : ¬ (c.body.predicates.isEmpty ∧ 0 < l) := by
    rintro ⟨hnil, hpos⟩
    have := hzero (List.isEmpty_iff.1 hnil)
    omega
  rw [copyClause, if_neg hskip] at h
  obtain ⟨apps', -, h⟩ := Option.bind_eq_some_iff.1 h
  have hlevel : (if isBackEdge edges c id then l + 1 else l) =
      l + if isBackEdge edges c id then 1 else 0 := by
    split <;> rfl
  simp only [hhead, hlevel] at h
  rw [if_neg (by omega)] at h
  obtain ⟨id', hid, -⟩ := Option.map_eq_some_iff.1 h
  by_contra hge
  rw [hlp, if_neg fun hlt => hge hlt.2] at hid
  simp at hid

end Copy

/-! ### The unrolled problem -/

section Unroll

variable {crate : ChcCrate} {M : Reading} {problem : ChcProblem} {k : UInt32}
  {u : BoundedUnrolledChc}

/-- What a successful run has checked and built. -/
theorem boundedUnroll_eq_some
    (h : boundedUnrollChcForRefutation crate problem k = some u) :
    inDomain crate problem = true ∧ u.k = k ∧
      addCopies crate
        (fun lc => copyClause
          (declareLevels crate problem.predicates (List.range (k.toNat + 1)) crate.new).2
          (dfsRetreatingEdges crate problem problem.predicates.length) (k.toNat + 1) lc.1 lc.2)
        (leveledClauses (k.toNat + 1) problem.clauses)
        (declareLevels crate problem.predicates (List.range (k.toNat + 1)) crate.new).1 =
          some u.problem := by
  unfold boundedUnrollChcForRefutation at h
  split at h
  · simp at h
  · rename_i hdom
    obtain ⟨levels, hlevels, h⟩ := Option.bind_eq_some_iff.1 h
    obtain ⟨preds, -, h⟩ := Option.bind_eq_some_iff.1 h
    obtain ⟨clauses, -, h⟩ := Option.bind_eq_some_iff.1 h
    split at h
    · simp at h
    · obtain ⟨unrolled, hadd, h⟩ := Option.bind_eq_some_iff.1 h
      split at h
      · simp at h
      · obtain rfl := Option.some.inj h
        obtain rfl : k.toNat + 1 = levels := by
          unfold checkedAdd at hlevels
          split at hlevels
          · exact Option.some.inj hlevels
          · simp at hlevels
        exact ⟨by simpa using hdom, rfl, hadd⟩

/-- The copies of the predicates stand at consecutive indices. -/
theorem consecutive_declareLevels (hc : crate.Lawful) (hfree : MarkerFree problem.predicates)
    (k : ℕ) :
    (declareLevels crate problem.predicates (List.range (k + 1)) crate.new).1.clauses = [] ∧
      Consecutive (declareLevels crate problem.predicates (List.range (k + 1)) crate.new).2
        problem.predicates.length k := by
  obtain ⟨hclauses, hids⟩ := declareLevels_spec hc hfree problem.names_nodup
    (List.nodup_range (n := k + 1)) (u := crate.new)
    (by simp [ChcProblem.names, hc.predicates_new])
  refine ⟨hclauses.trans hc.clauses_new, fun l i => ?_⟩
  rw [hids]
  simp [hc.predicates_new]

/-- The unrolled problem is a system of level copies of the input. -/
theorem copies_of_unroll (hc : crate.Lawful)
    (h : boundedUnrollChcForRefutation crate problem k = some u) :
    Copies (problem.system M)
      (traversal (dfsRetreatingEdges crate problem problem.predicates.length)) k.toNat
      (u.problem.system M) (copyFact problem.predicates.length) := by
  obtain ⟨hdom, -, hadd⟩ := boundedUnroll_eq_some h
  simp only [inDomain, Bool.and_eq_true, Bool.not_eq_true', List.any_eq_false,
    decide_eq_true_eq] at hdom
  obtain ⟨⟨⟨⟨-, hlinear⟩, -⟩, hfree⟩, -⟩ := hdom
  set edges := dfsRetreatingEdges crate problem problem.predicates.length
  set count := problem.predicates.length
  obtain ⟨hclauses, hlp⟩ := consecutive_declareLevels hc hfree k.toNat
  have hlin : ∀ c ∈ problem.clauses, c.body.predicates.length ≤ 1 :=
    fun c hcl => Nat.le_of_not_lt (hlinear c hcl)
  obtain ⟨hall, hmem⟩ := mem_addCopies hc hadd
  have hcopied : ∀ l ≤ k.toNat, ∀ c ∈ problem.clauses, ∃ r, copyClause
      (declareLevels crate problem.predicates (List.range (k.toNat + 1)) crate.new).2 edges
      (k.toNat + 1) l c = some r := by
    intro l hl c hcl
    exact hall (l, c) (mem_leveledClauses.2 ⟨by omega, hcl⟩)
  have hfires : ∀ p' f', (u.problem.system M).fires p' f' ↔
      ∃ l ≤ k.toNat, ∃ c ∈ problem.clauses, CopiedInstance edges count k.toNat l c p' f' := by
    intro p' f'
    constructor
    · rintro ⟨c', hc', hf'⟩
      rw [hmem, hclauses] at hc'
      obtain ⟨⟨l, c⟩, hlc, hcopy⟩ := hc'.resolve_left (by simp)
      obtain ⟨hl, hcl⟩ := mem_leveledClauses.1 hlc
      have hle : l ≤ k.toNat := by omega
      exact ⟨l, hle, c, hcl, (copyClause_fires hlp hle (hlin c hcl) hcopy p' f').1
        ⟨c', rfl, hf'⟩⟩
    · rintro ⟨l, hl, c, hcl, hinst⟩
      obtain ⟨r, hr⟩ := hcopied l hl c hcl
      obtain ⟨c', rfl, hf'⟩ := (copyClause_fires hlp hl (hlin c hcl) hr p' f').2 hinst
      exact ⟨c', (hmem c').2 (Or.inr ⟨(l, c), mem_leveledClauses.2 ⟨by omega, hcl⟩, hr⟩), hf'⟩
  -- a fact derived within the levels has a copied clause, so its predicate is declared
  have hdeclared : ∀ {n : ℕ} {q : ℕ × List M.Val}, n ≤ k.toNat →
      (problem.system M).DerivableIn (traversal edges) n (some q) → q.1 < count := by
    have hinst : ∀ {l : ℕ} {p : Option (ChcFact M)} {q : ℕ × List M.Val} {c : HornClause},
        c ∈ problem.clauses → c.Fires p (some q) → (p = none → l = 0) →
        l + stepCost edges p (some q) ≤ k.toNat → q.1 < count := by
      rintro l p q c hcl ⟨ρ, hbody, -, hf⟩ hzero hle
      obtain ⟨r, hr⟩ := hcopied l (by omega) c hcl
      cases hhead : c.head with
      | false => simp [hhead] at hf
      | unrecognized =>
        rw [hhead] at hf
        nomatch hf
      | predicate id args =>
        rw [hhead] at hf
        obtain rfl : q = (id, args.map (M.eval · ρ)) :=
          Option.some.inj (ClauseHead.fact_predicate.1 hf)
        refine head_lt_of_copyClause hlp (fun hnil => hzero ?_) hr hhead ?_
        · rw [hnil] at hbody
          simpa using hbody
        · rwa [← stepCost_predicate hbody id args]
    rintro n q hn (⟨c, hcl, hf⟩ | ⟨hg, c, hcl, hf⟩)
    · exact hinst hcl hf (fun _ => rfl) (Nat.zero_le _)
    · exact hinst hcl hf (by simp) hn
  refine ⟨fun f' => ?_, fun g' f' => ?_, ?_⟩
  · rw [hfires]
    constructor
    · rintro ⟨l, -, c, hcl, p, f, hf, hzero, -, hp, rfl⟩
      obtain rfl : p = none := by simpa using hp
      obtain rfl := hzero rfl
      exact ⟨f, ⟨c, hcl, hf⟩, rfl⟩
    · rintro ⟨f, ⟨c, hcl, hf⟩, rfl⟩
      exact ⟨0, by omega, c, hcl, none, f, hf, fun _ => rfl, Nat.zero_le _, rfl, rfl⟩
  · rw [hfires]
    constructor
    · rintro ⟨l, -, c, hcl, p, f, hf, -, hle, hp, rfl⟩
      obtain ⟨g, rfl, rfl⟩ := Option.map_eq_some_iff.1 hp
      exact ⟨l, g, f, ⟨c, hcl, hf⟩, hle, rfl, rfl⟩
    · rintro ⟨l, g, f, ⟨c, hcl, hf⟩, hle, rfl, rfl⟩
      exact ⟨l, by omega, c, hcl, some g, f, hf, by simp, hle, rfl, rfl⟩
  · rintro l l' g g' f hl hl' ⟨c, hcl, ρ, hbody, -, -⟩ hg' hcopy
    obtain ⟨app, hsingle, rfl⟩ : ∃ app, c.body.predicates = [app] ∧ appFact ρ app = g := by
      simpa [List.map_eq_singleton_iff] using hbody
    obtain ⟨r, hr⟩ := hcopied 0 (Nat.zero_le _) c hcl
    have happ : app.1 < count := body_lt_of_copyClause hlp hr app (by simp [hsingle])
    cases g' with
    | none => simp [copyFact, appFact] at hcopy
    | some q =>
      have hq : q.1 < count := hdeclared hl' hg'
      have heq : l * count + app.1 = l' * count + q.1 ∧ app.2.map (M.eval · ρ) = q.2 := by
        simpa [copyFact, appFact] using hcopy
      have hcount : 0 < count := Nat.zero_lt_of_lt happ
      obtain ⟨hdiv, hmod⟩ := (Nat.div_mod_unique hcount).2
        ⟨(Nat.add_comm app.1 (count * l)).trans (by rw [Nat.mul_comm]), happ⟩
      obtain ⟨hdiv', hmod'⟩ := (Nat.div_mod_unique hcount).2
        ⟨(Nat.add_comm q.1 (count * l')).trans (by rw [Nat.mul_comm]), hq⟩
      rw [heq.1] at hdiv hmod
      obtain rfl : l = l' := hdiv.symm.trans hdiv'
      refine ⟨rfl, ?_⟩
      rw [appFact, hmod.symm.trans hmod', heq.2]

/-- **Bounded unrolling is the bounded fragment.** The unrolled problem's query is derivable
exactly when the input's query has a derivation that traverses at most `k` retreating edges;
so a refutation of the unrolled problem is one of the input, and a larger `k` refutes more. -/
theorem boundedUnroll_exact (hc : crate.Lawful) (M : Reading)
    (h : boundedUnrollChcForRefutation crate problem k = some u) :
    (u.problem.Refuted M ↔ problem.RefutedWithin M
        (dfsRetreatingEdges crate problem problem.predicates.length) k.toNat) ∧
      (u.problem.Refuted M → problem.Refuted M) ∧
      ∀ k' u', k ≤ k' → boundedUnrollChcForRefutation crate problem k' = some u' →
        u.problem.Refuted M → u'.problem.Refuted M := by
  have hexact : ∀ {k : UInt32} {u : BoundedUnrolledChc},
      boundedUnrollChcForRefutation crate problem k = some u →
      (u.problem.Refuted M ↔ problem.RefutedWithin M
        (dfsRetreatingEdges crate problem problem.predicates.length) k.toNat) := by
    intro k u h
    refine (copies_of_unroll hc h).derivable_iff.trans ?_
    refine exists_congr fun n => and_congr_right fun _ => ?_
    constructor
    · rintro ⟨f, hf, hcopy⟩
      obtain rfl : f = none := by simpa [copyFact] using hcopy
      exact hf
    · exact fun hf => ⟨none, hf, rfl⟩
  refine ⟨hexact h, fun href => ?_, fun k' u' hk h' href => ?_⟩
  · obtain ⟨n, -, hn⟩ := (hexact h).1 href
    exact hn.derivable
  · obtain ⟨n, hle, hn⟩ := (hexact h).1 href
    exact (hexact h').2 ⟨n, hle.trans (UInt32.le_iff_toNat_le.1 hk), hn⟩

end Unroll

/-! ### A counter loop -/

section Counter

/-- `declare_predicate` on lists: a declared name is found, a new one is appended. -/
def declareByName (p : ChcProblem) (name : String) (sorts : List ChcSort) : ChcProblem × ℕ :=
  if h : name ∈ p.names then (p, p.names.idxOf name)
  else
    ({ p with
        predicates := p.predicates ++ [⟨name, sorts⟩]
        names_nodup := by
          rw [List.map_append, List.map_singleton]
          exact p.names_nodup.append (List.nodup_singleton _) (by simpa using h) },
      p.predicates.length)

/-- `dependency_edges`, from each body predicate to the head predicate. -/
def clauseEdges (p : ChcProblem) : List (ℕ × ℕ) :=
  p.clauses.flatMap fun c =>
    match c.head with
    | .predicate id _ => c.body.predicates.map fun app => (app.1, id)
    | _ => []

/-- A crate over lists; a graph has a cycle when the search finds a retreating edge. -/
def listCrate : ChcCrate where
  new := ⟨[], [], false, false, [], false, by simp⟩
  declarePredicate := declareByName
  addClause p c := { p with clauses := p.clauses ++ [c] }
  hasCycles p :=
    let succs := successors (clauseEdges p) p.predicates.length
    let st := (List.range p.predicates.length).foldl (dfsRoot succs p.predicates.length)
      ⟨fun _ => .white, []⟩
    !st.retreating.isEmpty
  dependencyEdges := clauseEdges

theorem listCrate_lawful : listCrate.Lawful where
  predicates_new := rfl
  clauses_new := rfl
  declare_fresh p name sorts h := by
    have h : name ∉ p.names := h
    simp [listCrate, declareByName, h]
  clauses_declare p name sorts := by
    simp only [listCrate, declareByName]
    split <;> rfl
  clauses_add _ _ := rfl

/-- `i`. -/
private def counterVar : ChcExpr := .var ⟨"i", .int⟩

/-- `entry`, `entry ∧ i = 0 ⇒ loop(i)`, `loop(i) ∧ i < bound ⇒ loop(i + 1)` and
`loop(i) ∧ i = target ⇒ false`. -/
def counterLoop (bound target : ℤ) : ChcProblem where
  predicates := [⟨"entry", []⟩, ⟨"loop", [.int]⟩]
  clauses :=
    [⟨⟨[], none⟩, .predicate 0 []⟩,
      ⟨⟨[(0, [])], some (.op .eq [counterVar, .int 0])⟩, .predicate 1 [counterVar]⟩,
      ⟨⟨[(1, [counterVar])], some (.op .lt [counterVar, .int bound])⟩,
        .predicate 1 [.op .add [counterVar, .int 1]]⟩,
      ⟨⟨[(1, [counterVar])], some (.op .eq [counterVar, .int target])⟩, .false⟩]
  isFixedpointFormat := false
  hasStrippedBodyForall := false
  datatypeDefs := []
  hasActionDecomposition := false
  names_nodup := by decide

/-- The terms of the loop over the integers. -/
def intReading : Reading where
  Val := ℤ
  Env := ChcVar → ℤ
  eval e ρ :=
    match e with
    | .var v => ρ v
    | .int z => z
    | .op .add [.var v, .int z] => ρ v + z
    | _ => 0
  Holds e ρ :=
    match e with
    | .op .eq [.var v, .int z] => ρ v = z
    | .op .lt [.var v, .int z] => ρ v < z
    | _ => False

/-- The loop reaches `1` after one traversal of its back edge. -/
theorem refutedWithin_counterLoop : (counterLoop 100 1).RefutedWithin intReading
    (dfsRetreatingEdges listCrate (counterLoop 100 1) 2) 1 := by
  have hedges : dfsRetreatingEdges listCrate (counterLoop 100 1) 2 = [(1, 1)] := by
    decide +kernel
  rw [hedges]
  let ρ : ℤ → intReading.Env := fun z _ => z
  have hentry : ((counterLoop 100 1).system intReading).DerivableIn (traversal [(1, 1)]) 0
      (some (0, [])) :=
    .fact ⟨_, List.mem_cons_self, ρ 0, rfl, by simp, .predicate 0 []⟩
  have hzero : ((counterLoop 100 1).system intReading).DerivableIn (traversal [(1, 1)]) 0
      (some (1, [(0 : ℤ)])) :=
    .step hentry ⟨_, .tail _ (.head _), ρ 0, rfl, by simp [intReading, counterVar, ρ],
      .predicate 1 _⟩
  have hone : ((counterLoop 100 1).system intReading).DerivableIn (traversal [(1, 1)]) 1
      (some (1, [(1 : ℤ)])) :=
    .step hzero ⟨_, .tail _ (.tail _ (.head _)), ρ 0, rfl, by simp [intReading, counterVar, ρ],
      .predicate 1 _⟩
  exact ⟨1, le_rfl, .step hone ⟨_, .tail _ (.tail _ (.tail _ (.head _))), ρ 1, rfl,
    by simp [intReading, counterVar, ρ], .false⟩⟩

/-- The unroll of the loop with one traversal, and so the one with two, is refuted. -/
theorem boundedUnroll_exact_counterLoop :
    ∃ u u', boundedUnrollChcForRefutation listCrate (counterLoop 100 1) 1 = some u ∧
      boundedUnrollChcForRefutation listCrate (counterLoop 100 1) 2 = some u' ∧
      u.problem.Refuted intReading ∧ u'.problem.Refuted intReading ∧
      (counterLoop 100 1).Refuted intReading := by
  have h₁ : (boundedUnrollChcForRefutation listCrate (counterLoop 100 1) 1).isSome := by
    decide +kernel
  have h₂ : (boundedUnrollChcForRefutation listCrate (counterLoop 100 1) 2).isSome := by
    decide +kernel
  obtain ⟨u, hu⟩ := Option.isSome_iff_exists.1 h₁
  obtain ⟨u', hu'⟩ := Option.isSome_iff_exists.1 h₂
  obtain ⟨hexact, hproject, hmono⟩ := boundedUnroll_exact listCrate_lawful intReading hu
  have href := hexact.2 refutedWithin_counterLoop
  exact ⟨u, u', hu, hu', href, hmono 2 u' (by decide) hu' href, hproject href⟩

end Counter

end Native

end TrustMc
