import TrustMc.Smt.Sorts

/-!
# Terms

The SMT-LIB terms of the verification conditions: variables, applications of an operator
to a list of arguments, and quantified formulas. The operators that only differ in the
function they apply are grouped (`BvBin`, `BvCmp`, …); the floating-point, string, regular
expression and sequence operators, which no pass computes with, are `Op.foreign`.

* **Sorts are computed** from the operator and the argument sorts (`Expr.sort`), and
  `Expr.WellSorted` is the check that the arguments have the sorts the operator takes.
* **Bit-vector constants** carry a `BitVec`, so a constant is always in range.
* A variable's sort is part of the variable; scoping (`freeVars`) is by name, which is how
  every pass identifies variables.
-/

namespace TrustMc

/-! ### Operators -/

/-- Unary bit-vector functions. -/
inductive BvUn
  | neg | not
  deriving DecidableEq, Repr

/-- Binary bit-vector functions. -/
inductive BvBin
  | add | sub | mul | udiv | sdiv | urem | srem | and | or | xor | shl | lshr | ashr
  deriving DecidableEq, Repr

/-- Bit-vector comparisons. -/
inductive BvCmp
  | ult | ule | ugt | uge | slt | sle | sgt | sge
  deriving DecidableEq, Repr

/-- The binary no-overflow predicates. -/
inductive BvCheck
  | addNoOverflowUnsigned | addNoOverflowSigned | subNoUnderflowUnsigned
  | subNoOverflowSigned | mulNoOverflowUnsigned | mulNoOverflowSigned | sdivNoOverflow
  deriving DecidableEq, Repr

/-- Integer functions. -/
inductive IntBin
  | add | sub | mul | div | mod
  deriving DecidableEq, Repr

/-- Real functions. -/
inductive RealBin
  | add | sub | mul | div
  deriving DecidableEq, Repr

/-- Integer and real comparisons. -/
inductive ArithCmp
  | lt | le | gt | ge
  deriving DecidableEq, Repr

/-- The operators of the term language. -/
inductive Op
  | boolConst (b : Bool)
  | bitVecConst (width : ℕ) (value : BitVec width)
  | intConst (value : ℤ)
  | realConst (value : ℤ)
  | not
  | and
  | or
  | xor
  | implies
  | eq
  | distinct
  | ite
  | bvUn (f : BvUn)
  | bvBin (f : BvBin)
  | bvCmp (f : BvCmp)
  | bvCheck (f : BvCheck)
  | bvNegNoOverflow
  | bvConcat
  | bvExtract (high low : ℕ)
  | bvZeroExtend (extra : ℕ)
  | bvSignExtend (extra : ℕ)
  | intNeg
  | intBin (f : IntBin)
  | intCmp (f : ArithCmp)
  | realNeg
  | realBin (f : RealBin)
  | realCmp (f : ArithCmp)
  | intToReal
  | realToInt
  | isInt
  | bv2Int
  | int2Bv (width : ℕ)
  | select
  | store
  | constArray (index : SmtSort)
  | datatypeConstructor (datatype constructor : String) (sort : SmtSort)
  | datatypeSelector (datatype selector : String) (sort : SmtSort)
  | datatypeTester (datatype constructor : String)
  | funcApp (name : String) (sort : SmtSort)
  | foreign (name : String) (sort : SmtSort)
  deriving DecidableEq

/-- The two quantifiers. -/
inductive Quantifier
  | all | ex
  deriving DecidableEq, Repr

/-- SMT-LIB terms. Quantifier triggers carry no meaning and are left out. -/
inductive Expr
  | var (name : String) (sort : SmtSort)
  | app (op : Op) (args : List Expr)
  | quant (q : Quantifier) (vars : List (String × SmtSort)) (body : Expr)

namespace Expr

/-! ### Induction and equality -/

/-- Structural induction on terms, with the hypothesis for every argument. -/
@[elab_as_elim, induction_eliminator]
theorem inductionOn {P : Expr → Prop} (e : Expr) (var : ∀ n s, P (.var n s))
    (app : ∀ op args, (∀ a ∈ args, P a) → P (.app op args))
    (quant : ∀ q vs b, P b → P (.quant q vs b)) : P e :=
  Expr.rec (motive_1 := P) (motive_2 := fun args => ∀ a ∈ args, P a)
    var app quant (by simp) (fun _ _ h hs => by simpa using ⟨h, hs⟩) e

mutual

/-- Boolean equality of terms. -/
def beq : Expr → Expr → Bool
  | var n s, var n' s' => n == n' && s == s'
  | app op args, app op' args' => op == op' && beqList args args'
  | quant q vs b, quant q' vs' b' => q == q' && vs == vs' && b.beq b'
  | _, _ => false

/-- Boolean equality of term lists. -/
def beqList : List Expr → List Expr → Bool
  | [], [] => true
  | e :: es, e' :: es' => e.beq e' && beqList es es'
  | _, _ => false

end

mutual

theorem beq_iff : ∀ e e' : Expr, e.beq e' = true ↔ e = e'
  | var n s, e' => by cases e' <;> simp [beq]
  | app op args, e' => by cases e' <;> simp [beq, beqList_iff args]
  | quant q vs b, e' => by cases e' <;> simp [beq, beq_iff b, and_assoc]

theorem beqList_iff : ∀ es es' : List Expr, beqList es es' = true ↔ es = es'
  | [], [] => by simp [beqList]
  | e :: es, e' :: es' => by simp [beqList, beq_iff e, beqList_iff es]
  | [], _ :: _ | _ :: _, [] => by simp [beqList]

end

instance : DecidableEq Expr := fun e e' => decidable_of_iff _ (beq_iff e e')

instance : Inhabited Expr := ⟨var "" .bool⟩

/-! ### Term formers

Each builds the node of its name; none of them simplifies. -/

/-- `Expr::bool_const`. -/
@[match_pattern] abbrev boolConst (b : Bool) : Expr := app (.boolConst b) []

/-- `Expr::bitvec_const`. -/
@[match_pattern] abbrev bitVecConst {w : ℕ} (x : BitVec w) : Expr := app (.bitVecConst w x) []

/-- `Expr::int_const`. -/
@[match_pattern] abbrev intConst (z : ℤ) : Expr := app (.intConst z) []

/-- `Expr::real_const`. -/
@[match_pattern] abbrev realConst (z : ℤ) : Expr := app (.realConst z) []

/-- `e.not()`. -/
@[match_pattern] abbrev not (e : Expr) : Expr := app .not [e]

/-- `Expr::and_many`. -/
@[match_pattern] abbrev and (es : List Expr) : Expr := app .and es

/-- `Expr::or_many`. -/
@[match_pattern] abbrev or (es : List Expr) : Expr := app .or es

/-- `a.implies(b)`. -/
@[match_pattern] abbrev implies (a b : Expr) : Expr := app .implies [a, b]

/-- `a.eq(b)`. -/
@[match_pattern] abbrev eq (a b : Expr) : Expr := app .eq [a, b]

/-- `Expr::ite`. -/
@[match_pattern] abbrev ite (c a b : Expr) : Expr := app .ite [c, a, b]

/-- `a.select(i)`. -/
@[match_pattern] abbrev select (a i : Expr) : Expr := app .select [a, i]

/-- `a.store(i, v)`. -/
@[match_pattern] abbrev store (a i v : Expr) : Expr := app .store [a, i, v]

/-- `Expr::datatype_constructor`. -/
@[match_pattern] abbrev datatypeConstructor (dt c : String) (args : List Expr)
    (s : SmtSort) : Expr :=
  app (.datatypeConstructor dt c s) args

/-- `e.field_select(datatype, selector, sort)`. -/
@[match_pattern] abbrev fieldSelect (e : Expr) (dt sel : String) (s : SmtSort) : Expr :=
  app (.datatypeSelector dt sel s) [e]

/-- `e.is_constructor(datatype, constructor)`. -/
@[match_pattern] abbrev isConstructor (e : Expr) (dt c : String) : Expr :=
  app (.datatypeTester dt c) [e]

/-- A binary bit-vector function applied. -/
@[match_pattern] abbrev bv (f : BvBin) (a b : Expr) : Expr := app (.bvBin f) [a, b]

/-- A bit-vector comparison applied. -/
@[match_pattern] abbrev bvCmp (f : BvCmp) (a b : Expr) : Expr := app (.bvCmp f) [a, b]

/-- An integer function applied. -/
@[match_pattern] abbrev int (f : IntBin) (a b : Expr) : Expr := app (.intBin f) [a, b]

/-- An integer comparison applied. -/
@[match_pattern] abbrev intCmp (f : ArithCmp) (a b : Expr) : Expr := app (.intCmp f) [a, b]

/-- `value().children()`. -/
def children : Expr → List Expr
  | var _ _ => []
  | app _ args => args
  | quant _ _ b => [b]

end Expr

/-! ### Sorts of terms -/

/-- The sort of an application, from the sorts of its arguments. -/
def Op.resultSort : Op → List SmtSort → SmtSort
  | boolConst _, _ => .bool
  | bitVecConst w _, _ => .bitvec w
  | intConst _, _ => .int
  | realConst _, _ => .real
  | not, _ | and, _ | or, _ | xor, _ | implies, _ | eq, _ | distinct, _ => .bool
  | ite, ss => ss.getD 1 .bool
  | bvUn _, ss | bvBin _, ss => .bitvec (ss.headD .bool).width
  | bvCmp _, _ | bvCheck _, _ | bvNegNoOverflow, _ => .bool
  | bvConcat, ss => .bitvec ((ss.headD .bool).width + (ss.getD 1 .bool).width)
  | bvExtract hi lo, _ => .bitvec (hi - lo + 1)
  | bvZeroExtend n, ss | bvSignExtend n, ss => .bitvec ((ss.headD .bool).width + n)
  | intNeg, _ | intBin _, _ => .int
  | intCmp _, _ => .bool
  | realNeg, _ | realBin _, _ => .real
  | realCmp _, _ => .bool
  | intToReal, _ => .real
  | realToInt, _ => .int
  | isInt, _ => .bool
  | bv2Int, _ => .int
  | int2Bv w, _ => .bitvec w
  | select, ss => ((ss.headD .bool).arraySort.map (·.2)).getD .bool
  | store, ss => ss.headD .bool
  | constArray i, ss => .array i (ss.headD .bool)
  | datatypeConstructor _ _ s, _ => s
  | datatypeSelector _ _ s, _ => s
  | datatypeTester _ _, _ => .bool
  | funcApp _ s, _ => s
  | foreign _ s, _ => s

/-- Whether an operator takes arguments of the given sorts. -/
def Op.accepts : Op → List SmtSort → Bool
  | boolConst _, ss | bitVecConst _ _, ss | intConst _, ss | realConst _, ss => ss.isEmpty
  | not, ss => ss == [.bool]
  | and, ss | or, ss => ss.all (·.isBool)
  | xor, ss | implies, ss => ss == [.bool, .bool]
  | eq, [s, s'] => s == s'
  | distinct, s :: ss => ss.all (· == s)
  | ite, [c, s, s'] => c.isBool && s == s'
  | bvUn _, [s] => s.isBitvec
  | bvBin _, [s, s'] | bvCmp _, [s, s'] | bvCheck _, [s, s'] => s.isBitvec && s == s'
  | bvNegNoOverflow, [s] => s.isBitvec
  | bvConcat, [s, s'] => s.isBitvec && s'.isBitvec
  | bvExtract hi lo, [s] => s.isBitvec && decide (lo ≤ hi ∧ hi < s.width)
  | bvZeroExtend _, [s] | bvSignExtend _, [s] => s.isBitvec
  | intNeg, ss => ss == [.int]
  | intBin _, ss | intCmp _, ss => ss == [.int, .int]
  | realNeg, ss => ss == [.real]
  | realBin _, ss | realCmp _, ss => ss == [.real, .real]
  | intToReal, ss => ss == [.int]
  | realToInt, ss | isInt, ss => ss == [.real]
  | bv2Int, [s] => s.isBitvec
  | int2Bv _, ss => ss == [.int]
  | select, [a, i] => (a.arraySort.map (·.1)) == some i
  | store, [a, i, v] => a == .array i v
  | constArray _, [_] => true
  | datatypeConstructor _ c s, ss =>
    ((s.constructors.getD []).find? (·.name == c)).any
      fun c => ss == c.fields.map SmtField.sort
  | datatypeSelector _ sel s, [d] =>
    (d.constructors.getD []).any (·.hasField sel) &&
      (d.constructors.getD []).all fun c => c.fields.all fun f => f.name != sel || f.sort == s
  | datatypeTester _ c, [d] => (d.constructors.getD []).any (·.name == c)
  | funcApp _ _, _ | foreign _ _, _ => true
  | _, _ => false

namespace Expr

mutual

/-- `expr.sort()`. -/
def sort : Expr → SmtSort
  | var _ s => s
  | app op args => op.resultSort (sortList args)
  | quant _ _ _ => .bool

/-- The sorts of a list of terms. -/
def sortList : List Expr → List SmtSort
  | [] => []
  | e :: es => e.sort :: sortList es

end

@[simp]
theorem sortList_eq (es : List Expr) : sortList es = es.map sort := by
  induction es with
  | nil => rfl
  | cons e es ih => simp [sortList, ih]

@[simp] theorem sort_var (n : String) (s : SmtSort) : (var n s).sort = s := rfl

@[simp]
theorem sort_app (op : Op) (args : List Expr) :
    (app op args).sort = op.resultSort (args.map sort) := by
  simp [sort]

@[simp]
theorem sort_quant (q : Quantifier) (vs : List (String × SmtSort)) (b : Expr) :
    (quant q vs b).sort = .bool := rfl

end Expr

/-- The fallible term formers: an application whose argument sorts the operator accepts. -/
def tryApp (op : Op) (args : List Expr) : Option Expr :=
  if op.accepts (args.map Expr.sort) then some (.app op args) else none

namespace Expr

mutual

/-- Every application takes its arguments at the sorts it accepts. -/
def WellSorted : Expr → Prop
  | var _ _ => True
  | app op args => op.accepts (args.map sort) = true ∧ WellSortedList args
  | quant _ _ b => b.sort = .bool ∧ b.WellSorted

/-- Well-sortedness of a list of terms. -/
def WellSortedList : List Expr → Prop
  | [] => True
  | e :: es => e.WellSorted ∧ WellSortedList es

end

@[simp]
theorem wellSortedList_iff {es : List Expr} : WellSortedList es ↔ ∀ e ∈ es, e.WellSorted := by
  induction es with
  | nil => simp [WellSortedList]
  | cons e es ih => simp [WellSortedList, ih]

@[simp] theorem wellSorted_var (n : String) (s : SmtSort) : (var n s).WellSorted := trivial

@[simp]
theorem wellSorted_app {op : Op} {args : List Expr} :
    (app op args).WellSorted ↔
      op.accepts (args.map sort) = true ∧ ∀ a ∈ args, a.WellSorted := by
  simp [WellSorted]

@[simp]
theorem wellSorted_quant {q : Quantifier} {vs : List (String × SmtSort)} {b : Expr} :
    (quant q vs b).WellSorted ↔ b.sort = .bool ∧ b.WellSorted := Iff.rfl

/-! ### Variables -/

mutual

/-- The names occurring free. -/
def freeVars : Expr → List String
  | var n _ => [n]
  | app _ args => freeVarsList args
  | quant _ vs b => b.freeVars.filter fun n => n ∉ vs.map Prod.fst

/-- The names occurring free in a list of terms. -/
def freeVarsList : List Expr → List String
  | [] => []
  | e :: es => e.freeVars ++ freeVarsList es

end

@[simp]
theorem freeVarsList_eq (es : List Expr) : freeVarsList es = es.flatMap freeVars := by
  induction es with
  | nil => rfl
  | cons e es ih => simp [freeVarsList, ih]

@[simp] theorem freeVars_var (n : String) (s : SmtSort) : (var n s).freeVars = [n] := rfl

@[simp]
theorem freeVars_app (op : Op) (args : List Expr) :
    (app op args).freeVars = args.flatMap freeVars := by
  simp [freeVars]

@[simp]
theorem mem_freeVars_quant {q : Quantifier} {vs : List (String × SmtSort)} {b : Expr}
    {n : String} : n ∈ (quant q vs b).freeVars ↔ n ∈ b.freeVars ∧ n ∉ vs.map Prod.fst := by
  simp [freeVars]

mutual

/-- The names of the variable nodes of a term, free or bound. -/
def varNames : Expr → List String
  | var n _ => [n]
  | app _ args => varNamesList args
  | quant _ _ b => b.varNames

/-- The names of the variable nodes of a list of terms. -/
def varNamesList : List Expr → List String
  | [] => []
  | e :: es => e.varNames ++ varNamesList es

end

@[simp]
theorem varNamesList_eq (es : List Expr) : varNamesList es = es.flatMap varNames := by
  induction es with
  | nil => rfl
  | cons e es ih => simp [varNamesList, ih]

@[simp] theorem varNames_var (n : String) (s : SmtSort) : (var n s).varNames = [n] := rfl

@[simp]
theorem varNames_app (op : Op) (args : List Expr) :
    (app op args).varNames = args.flatMap varNames := by
  simp [varNames]

@[simp]
theorem varNames_quant (q : Quantifier) (vs : List (String × SmtSort)) (b : Expr) :
    (quant q vs b).varNames = b.varNames := rfl

theorem freeVars_subset_varNames (e : Expr) : e.freeVars ⊆ e.varNames := by
  induction e with
  | var n s => simp
  | app op args ih =>
    intro n hn
    rw [freeVars_app, List.mem_flatMap] at hn
    obtain ⟨a, ha, hn⟩ := hn
    rw [varNames_app]
    exact List.mem_flatMap.2 ⟨a, ha, ih a ha hn⟩
  | quant q vs b ih =>
    intro n hn
    exact ih (mem_freeVars_quant.1 hn).1

mutual

/-- The names bound by the quantifiers of a term. -/
def boundVars : Expr → List String
  | var _ _ => []
  | app _ args => boundVarsList args
  | quant _ vs b => vs.map Prod.fst ++ b.boundVars

/-- The names bound in a list of terms. -/
def boundVarsList : List Expr → List String
  | [] => []
  | e :: es => e.boundVars ++ boundVarsList es

end

@[simp]
theorem boundVarsList_eq (es : List Expr) : boundVarsList es = es.flatMap boundVars := by
  induction es with
  | nil => rfl
  | cons e es ih => simp [boundVarsList, ih]

@[simp] theorem boundVars_var (n : String) (s : SmtSort) : (var n s).boundVars = [] := rfl

@[simp]
theorem boundVars_app (op : Op) (args : List Expr) :
    (app op args).boundVars = args.flatMap boundVars := by
  simp [boundVars]

@[simp]
theorem boundVars_quant (q : Quantifier) (vs : List (String × SmtSort)) (b : Expr) :
    (quant q vs b).boundVars = vs.map Prod.fst ++ b.boundVars := rfl

mutual

/-- The free variable occurrences, with their sorts. -/
def freeOccs : Expr → List (String × SmtSort)
  | var n s => [(n, s)]
  | app _ args => freeOccsList args
  | quant _ vs b => b.freeOccs.filter fun o => o.1 ∉ vs.map Prod.fst

/-- The free variable occurrences of a list of terms. -/
def freeOccsList : List Expr → List (String × SmtSort)
  | [] => []
  | e :: es => e.freeOccs ++ freeOccsList es

end

@[simp]
theorem freeOccsList_eq (es : List Expr) : freeOccsList es = es.flatMap freeOccs := by
  induction es with
  | nil => rfl
  | cons e es ih => simp [freeOccsList, ih]

@[simp] theorem freeOccs_var (n : String) (s : SmtSort) : (var n s).freeOccs = [(n, s)] := rfl

@[simp]
theorem freeOccs_app (op : Op) (args : List Expr) :
    (app op args).freeOccs = args.flatMap freeOccs := by
  simp [freeOccs]

@[simp]
theorem mem_freeOccs_quant {q : Quantifier} {vs : List (String × SmtSort)} {b : Expr}
    {o : String × SmtSort} :
    o ∈ (quant q vs b).freeOccs ↔ o ∈ b.freeOccs ∧ o.1 ∉ vs.map Prod.fst := by
  simp [freeOccs]

theorem mem_freeVars {e : Expr} {n : String} : n ∈ e.freeVars ↔ ∃ s, (n, s) ∈ e.freeOccs := by
  induction e with
  | var m s => simp [eq_comm]
  | app op args ih =>
    simp only [freeVars_app, freeOccs_app, List.mem_flatMap]
    constructor
    · rintro ⟨a, ha, hn⟩
      obtain ⟨s, hs⟩ := (ih a ha).1 hn
      exact ⟨s, a, ha, hs⟩
    · rintro ⟨s, a, ha, hs⟩
      exact ⟨a, ha, (ih a ha).2 ⟨s, hs⟩⟩
  | quant q vs b ih => simp [ih]

mutual

/-- The operators applied in a term, with the sorts of their arguments. -/
def nodes : Expr → List (Op × List SmtSort)
  | var _ _ => []
  | app op args => (op, args.map sort) :: nodesList args
  | quant _ _ b => b.nodes

/-- The operators applied in a list of terms. -/
def nodesList : List Expr → List (Op × List SmtSort)
  | [] => []
  | e :: es => e.nodes ++ nodesList es

end

@[simp]
theorem nodesList_eq (es : List Expr) : nodesList es = es.flatMap nodes := by
  induction es with
  | nil => rfl
  | cons e es ih => simp [nodesList, ih]

@[simp] theorem nodes_var (n : String) (s : SmtSort) : (var n s).nodes = [] := rfl

@[simp]
theorem nodes_app (op : Op) (args : List Expr) :
    (app op args).nodes = (op, args.map sort) :: args.flatMap nodes := by
  simp [nodes]

@[simp]
theorem nodes_quant (q : Quantifier) (vs : List (String × SmtSort)) (b : Expr) :
    (quant q vs b).nodes = b.nodes := rfl

/-! ### Nesting -/

mutual

/-- How deep a term nests. -/
def depth : Expr → ℕ
  | var _ _ => 1
  | app _ args => depthList args + 1
  | quant _ _ b => b.depth + 1

/-- How deep a list of terms nests. -/
def depthList : List Expr → ℕ
  | [] => 0
  | e :: es => max e.depth (depthList es)

end

theorem depth_le_depthList {e : Expr} {es : List Expr} (h : e ∈ es) : e.depth ≤ depthList es := by
  induction es with
  | nil => simp at h
  | cons e' es ih =>
    rcases List.mem_cons.1 h with rfl | h
    · exact le_max_left _ _
    · exact le_max_of_le_right (ih h)

theorem depth_lt_app {op : Op} {args : List Expr} {e : Expr} (h : e ∈ args) :
    e.depth < (app op args).depth :=
  Nat.lt_succ_of_le (depth_le_depthList h)

end Expr

end TrustMc
