import TrustMc.Horn.Levels

/-!
# Typed CHC problems

The solver crate's clause representation: predicates addressed by their index, and Horn
clauses whose body is a list of predicate applications with an optional constraint. A
problem's predicates have different names.

* `ChcCrate` collects the operations of the crate the lane calls; `ChcCrate.Lawful` is what
  the lane relies on: a new name is declared as a new predicate, clauses are added unchanged.
* `Reading` reads terms and constraints under the assignments of a clause's variables;
  `ChcProblem.system` is the linear Horn system of the clauses with at most one body
  predicate, the query being the fact `none`.
-/

namespace TrustMc

namespace Native

/-! ### Terms -/

mutual

/-- `ChcSort`. -/
inductive ChcSort
  | bool
  | int
  | real
  | bitVec (width : ℕ)
  | array (index element : ChcSort)
  | uninterpreted (name : String)
  | datatype (name : String) (constructors : List ChcDtConstructor)

/-- `ChcDtConstructor`. -/
inductive ChcDtConstructor
  | mk (name : String) (selectors : List ChcDtSelector)

/-- `ChcDtSelector`. -/
inductive ChcDtSelector
  | mk (name : String) (sort : ChcSort)

end

mutual

/-- Boolean equality of sorts. -/
def ChcSort.beq : ChcSort → ChcSort → Bool
  | .bool, .bool | .int, .int | .real, .real => true
  | .bitVec w, .bitVec w' => w == w'
  | .array i e, .array i' e' => i.beq i' && e.beq e'
  | .uninterpreted n, .uninterpreted n' => n == n'
  | .datatype n cs, .datatype n' cs' => n == n' && ChcDtConstructor.beqList cs cs'
  | _, _ => false

/-- Boolean equality of constructors. -/
def ChcDtConstructor.beq : ChcDtConstructor → ChcDtConstructor → Bool
  | .mk n ss, .mk n' ss' => n == n' && ChcDtSelector.beqList ss ss'

/-- Boolean equality of lists of constructors. -/
def ChcDtConstructor.beqList : List ChcDtConstructor → List ChcDtConstructor → Bool
  | [], [] => true
  | c :: cs, c' :: cs' => c.beq c' && ChcDtConstructor.beqList cs cs'
  | _, _ => false

/-- Boolean equality of selectors. -/
def ChcDtSelector.beq : ChcDtSelector → ChcDtSelector → Bool
  | .mk n s, .mk n' s' => n == n' && s.beq s'

/-- Boolean equality of lists of selectors. -/
def ChcDtSelector.beqList : List ChcDtSelector → List ChcDtSelector → Bool
  | [], [] => true
  | s :: ss, s' :: ss' => s.beq s' && ChcDtSelector.beqList ss ss'
  | _, _ => false

end

mutual

theorem ChcSort.beq_iff : ∀ s t : ChcSort, s.beq t = true ↔ s = t
  | .array i e, t => by cases t <;> simp [ChcSort.beq, ChcSort.beq_iff i, ChcSort.beq_iff e]
  | .datatype n cs, t => by cases t <;> simp [ChcSort.beq, ChcDtConstructor.beqList_iff cs]
  | .bool, t | .int, t | .real, t | .bitVec _, t | .uninterpreted _, t => by
    cases t <;> simp [ChcSort.beq]

theorem ChcDtConstructor.beq_iff : ∀ c d : ChcDtConstructor, c.beq d = true ↔ c = d
  | .mk n ss, .mk n' ss' => by simp [ChcDtConstructor.beq, ChcDtSelector.beqList_iff ss]

theorem ChcDtConstructor.beqList_iff :
    ∀ cs ds : List ChcDtConstructor, ChcDtConstructor.beqList cs ds = true ↔ cs = ds
  | [], [] => by simp [ChcDtConstructor.beqList]
  | c :: cs, d :: ds => by
    simp [ChcDtConstructor.beqList, ChcDtConstructor.beq_iff c, ChcDtConstructor.beqList_iff cs]
  | [], _ :: _ | _ :: _, [] => by simp [ChcDtConstructor.beqList]

theorem ChcDtSelector.beq_iff : ∀ s t : ChcDtSelector, s.beq t = true ↔ s = t
  | .mk n s, .mk n' s' => by simp [ChcDtSelector.beq, ChcSort.beq_iff s]

theorem ChcDtSelector.beqList_iff :
    ∀ ss ts : List ChcDtSelector, ChcDtSelector.beqList ss ts = true ↔ ss = ts
  | [], [] => by simp [ChcDtSelector.beqList]
  | s :: ss, t :: ts => by
    simp [ChcDtSelector.beqList, ChcDtSelector.beq_iff s, ChcDtSelector.beqList_iff ss]
  | [], _ :: _ | _ :: _, [] => by simp [ChcDtSelector.beqList]

end

instance : DecidableEq ChcSort := fun s t => decidable_of_iff _ (ChcSort.beq_iff s t)

/-- `ChcVar`: the sort is part of a variable's identity. -/
structure ChcVar where
  /-- The variable's name. -/
  name : String
  /-- The variable's sort. -/
  sort : ChcSort
  deriving DecidableEq

/-- `ChcOp`; `other` stands for the operators no lane tells apart. -/
inductive ChcOp
  | not | and | or | implies | iff
  | add | sub | mul | div | mod | neg
  | eq | ne | lt | le | gt | ge
  | ite | select | store
  | bvAdd | bvSub | bvMul | bvUDiv | bvURem | bvSDiv | bvSRem | bvSMod
  | bvAnd | bvOr | bvXor | bvNand | bvNor | bvXnor | bvNot | bvNeg
  | bvShl | bvLShr | bvAShr
  | bvULt | bvULe | bvUGt | bvUGe | bvSLt | bvSLe | bvSGt | bvSGe | bvComp
  | bvConcat
  | bvExtract (high low : ℕ)
  | bvZeroExtend (extra : ℕ)
  | bvSignExtend (extra : ℕ)
  | bvRotateLeft (amount : ℕ)
  | bvRotateRight (amount : ℕ)
  | bvRepeat (count : ℕ)
  | bv2Nat
  | int2Bv (width : ℕ)
  | other (name : String)
  deriving DecidableEq

/-- `ChcExpr`; `unrecognized` stands for the shapes a later version of the crate may add. -/
inductive ChcExpr
  | bool (b : Bool)
  | int (z : ℤ)
  | real (num den : ℤ)
  | bitVec (value width : ℕ)
  | var (v : ChcVar)
  | op (op : ChcOp) (args : List ChcExpr)
  | predicateApp (name : String) (id : ℕ) (args : List ChcExpr)
  | funcApp (name : String) (sort : ChcSort) (args : List ChcExpr)
  | constArrayMarker (sort : ChcSort)
  | isTesterMarker (name : String)
  | constArray (sort : ChcSort) (value : ChcExpr)
  | unrecognized

/-- Structural induction on terms, with the hypothesis for every argument. -/
@[elab_as_elim, induction_eliminator]
theorem ChcExpr.inductionOn {P : ChcExpr → Prop} (e : ChcExpr) (bool : ∀ b, P (.bool b))
    (int : ∀ z, P (.int z)) (real : ∀ num den, P (.real num den))
    (bitVec : ∀ value width, P (.bitVec value width)) (var : ∀ v, P (.var v))
    (op : ∀ op args, (∀ a ∈ args, P a) → P (.op op args))
    (predicateApp : ∀ name id args, (∀ a ∈ args, P a) → P (.predicateApp name id args))
    (funcApp : ∀ name sort args, (∀ a ∈ args, P a) → P (.funcApp name sort args))
    (constArrayMarker : ∀ sort, P (.constArrayMarker sort))
    (isTesterMarker : ∀ name, P (.isTesterMarker name))
    (constArray : ∀ sort value, P value → P (.constArray sort value))
    (unrecognized : P .unrecognized) : P e :=
  ChcExpr.rec (motive_1 := P) (motive_2 := fun args => ∀ a ∈ args, P a) bool int real bitVec var
    op predicateApp funcApp constArrayMarker isTesterMarker constArray unrecognized (by simp)
    (fun _ _ h hs => by simpa using ⟨h, hs⟩) e

mutual

/-- Boolean equality of terms. -/
def ChcExpr.beq : ChcExpr → ChcExpr → Bool
  | .bool b, .bool b' => b == b'
  | .int z, .int z' => z == z'
  | .real n d, .real n' d' => n == n' && d == d'
  | .bitVec x w, .bitVec x' w' => x == x' && w == w'
  | .var v, .var v' => v == v'
  | .op o args, .op o' args' => o == o' && beqList args args'
  | .predicateApp n id args, .predicateApp n' id' args' =>
    n == n' && id == id' && beqList args args'
  | .funcApp n s args, .funcApp n' s' args' => n == n' && s == s' && beqList args args'
  | .constArrayMarker s, .constArrayMarker s' => s == s'
  | .isTesterMarker n, .isTesterMarker n' => n == n'
  | .constArray s value, .constArray s' value' => s == s' && value.beq value'
  | .unrecognized, .unrecognized => true
  | _, _ => false

/-- Boolean equality of lists of terms. -/
def ChcExpr.beqList : List ChcExpr → List ChcExpr → Bool
  | [], [] => true
  | e :: es, e' :: es' => e.beq e' && beqList es es'
  | _, _ => false

end

mutual

theorem ChcExpr.beq_iff : ∀ e e' : ChcExpr, e.beq e' = true ↔ e = e'
  | .op o args, e' => by cases e' <;> simp [beq, beqList_iff args]
  | .predicateApp n id args, e' => by cases e' <;> simp [beq, beqList_iff args, and_assoc]
  | .funcApp n s args, e' => by cases e' <;> simp [beq, beqList_iff args, and_assoc]
  | .constArray s value, e' => by cases e' <;> simp [beq, beq_iff value]
  | .bool _, e' | .int _, e' | .real _ _, e' | .bitVec _ _, e' | .var _, e'
  | .constArrayMarker _, e' | .isTesterMarker _, e' | .unrecognized, e' => by
    cases e' <;> simp [beq]

theorem ChcExpr.beqList_iff : ∀ es es' : List ChcExpr, ChcExpr.beqList es es' = true ↔ es = es'
  | [], [] => by simp [beqList]
  | e :: es, e' :: es' => by simp [beqList, beq_iff e, beqList_iff es]
  | [], _ :: _ | _ :: _, [] => by simp [beqList]

end

instance : DecidableEq ChcExpr := fun e e' => decidable_of_iff _ (ChcExpr.beq_iff e e')

mutual

/-- The number of nodes of a term. -/
def ChcExpr.nodes : ChcExpr → ℕ
  | .op _ args | .predicateApp _ _ args | .funcApp _ _ args => nodesList args + 1
  | .constArray _ value => value.nodes + 1
  | _ => 1

/-- The number of nodes of a list of terms. -/
def ChcExpr.nodesList : List ChcExpr → ℕ
  | [] => 0
  | e :: es => e.nodes + nodesList es

end

/-! ### Problems -/

/-- `Predicate`. -/
structure Predicate where
  /-- The predicate's name. -/
  name : String
  /-- The sorts of its arguments. -/
  argSorts : List ChcSort

/-- `ClauseBody`: predicate applications and an optional constraint. -/
structure ClauseBody where
  /-- The predicates, by index, with their arguments. -/
  predicates : List (ℕ × List ChcExpr)
  /-- The constraint. -/
  constraint : Option ChcExpr

/-- `ClauseHead`; `unrecognized` stands for the shapes a later version of the crate may add. -/
inductive ClauseHead
  | false
  | predicate (id : ℕ) (args : List ChcExpr)
  | unrecognized

/-- `HornClause`. -/
structure HornClause where
  /-- The premises. -/
  body : ClauseBody
  /-- The conclusion. -/
  head : ClauseHead

/-- `ChcProblem`. -/
structure ChcProblem where
  /-- The declared predicates, in the order of their indices. -/
  predicates : List Predicate
  /-- The clauses. -/
  clauses : List HornClause
  /-- Whether the input uses the fixedpoint format, whose polarity is inverted. -/
  isFixedpointFormat : Bool
  /-- Whether a body quantifier was dropped on parsing. -/
  hasStrippedBodyForall : Bool
  /-- The names of the declared datatypes. -/
  datatypeDefs : List String
  /-- Whether the clauses carry an action decomposition. -/
  hasActionDecomposition : Bool
  /-- Different predicates have different names. -/
  names_nodup : (predicates.map Predicate.name).Nodup

/-- The operations of the crate. -/
structure ChcCrate where
  /-- `ChcProblem::new`. -/
  new : ChcProblem
  /-- `declare_predicate`: the problem with the predicate, and the predicate's index. -/
  declarePredicate : ChcProblem → String → List ChcSort → ChcProblem × ℕ
  /-- `add_clause`. -/
  addClause : ChcProblem → HornClause → ChcProblem
  /-- `has_cycles`. -/
  hasCycles : ChcProblem → Bool
  /-- `dependency_edges`: body predicate to head predicate. -/
  dependencyEdges : ChcProblem → List (ℕ × ℕ)

/-- What the lane relies on: distinct names are declared as distinct predicates and clauses
are added unchanged. -/
structure ChcCrate.Lawful (crate : ChcCrate) : Prop where
  /-- A new problem has no predicates. -/
  predicates_new : crate.new.predicates = []
  /-- A new problem has no clauses. -/
  clauses_new : crate.new.clauses = []
  /-- A new name gets the next index. -/
  declare_fresh : ∀ p name sorts, name ∉ p.predicates.map Predicate.name →
    (crate.declarePredicate p name sorts).1.predicates = p.predicates ++ [⟨name, sorts⟩] ∧
      (crate.declarePredicate p name sorts).2 = p.predicates.length
  /-- Declarations leave the clauses as they are. -/
  clauses_declare : ∀ p name sorts,
    (crate.declarePredicate p name sorts).1.clauses = p.clauses
  /-- A clause is added unchanged, after the others. -/
  clauses_add : ∀ p c, (crate.addClause p c).clauses = p.clauses ++ [c]

/-! ### Meaning -/

/-- A reading of terms: the values and assignments, and what a constraint says of an
assignment. -/
structure Reading where
  /-- The values. -/
  Val : Type
  /-- The assignments of a clause's variables. -/
  Env : Type
  /-- The value of a term. -/
  eval : ChcExpr → Env → Val
  /-- The constraint holds under the assignment. -/
  Holds : ChcExpr → Env → Prop

section Meaning

variable (M : Reading)

/-- The facts of a problem: the query, or a predicate of some values. -/
abbrev ChcFact : Type := Option (ℕ × List M.Val)

variable {M}

/-- A predicate application read under an assignment. -/
def appFact (ρ : M.Env) (app : ℕ × List ChcExpr) : ChcFact M :=
  some (app.1, app.2.map (M.eval · ρ))

/-- A clause head read under an assignment. -/
inductive ClauseHead.Fact (ρ : M.Env) : ClauseHead → ChcFact M → Prop
  | false : ClauseHead.Fact ρ .false none
  | predicate (id : ℕ) (args : List ChcExpr) :
      ClauseHead.Fact ρ (.predicate id args) (appFact ρ (id, args))

@[simp]
theorem ClauseHead.fact_false {ρ : M.Env} {f : ChcFact M} :
    ClauseHead.Fact ρ .false f ↔ f = none := by
  constructor
  · rintro ⟨⟩
    rfl
  · rintro rfl
    exact .false

@[simp]
theorem ClauseHead.fact_predicate {ρ : M.Env} {id : ℕ} {args : List ChcExpr} {f : ChcFact M} :
    ClauseHead.Fact ρ (.predicate id args) f ↔ f = appFact ρ (id, args) := by
  constructor
  · rintro ⟨⟩
    rfl
  · rintro rfl
    exact .predicate id args

/-- The clause derives `f` from the optional premise `p` under some assignment. -/
def HornClause.Fires (c : HornClause) (p : Option (ChcFact M)) (f : ChcFact M) : Prop :=
  ∃ ρ : M.Env, c.body.predicates.map (appFact ρ) = p.toList ∧
    (∀ e ∈ c.body.constraint, M.Holds e ρ) ∧ c.head.Fact ρ f

variable (M)

/-- The linear Horn system of the clauses with at most one body predicate. -/
def ChcProblem.system (problem : ChcProblem) : Horn.System (ChcFact M) :=
  ⟨fun p f => ∃ c ∈ problem.clauses, c.Fires p f⟩

/-- The query is derivable. -/
def ChcProblem.Refuted (problem : ChcProblem) : Prop := (problem.system M).Derivable none

/-- The cost of a step: whether its edge between predicates is one of the given ones. -/
def traversal {M : Reading} (edges : List (ℕ × ℕ)) : ChcFact M → ChcFact M → ℕ
  | some (p, _), some (q, _) => if (p, q) ∈ edges then 1 else 0
  | _, _ => 0

/-- The query has a derivation that traverses the given edges at most `k` times. -/
def ChcProblem.RefutedWithin (problem : ChcProblem) (edges : List (ℕ × ℕ)) (k : ℕ) : Prop :=
  ∃ n ≤ k, (problem.system M).DerivableIn (traversal edges) n none

end Meaning

end Native

end TrustMc
