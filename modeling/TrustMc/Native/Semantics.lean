import TrustMc.Native.Grounding
import TrustMc.Smt.Eval

/-!
# The meaning of the crate's terms

The terms of the solver crate denote the values of the SMT-LIB terms: `ChcSort.toSmt` is the
SMT-LIB sort of a sort, `ChcOp.interp` the value of an operator on a list of arguments and
`ChcExpr.eval` the value of a term under an assignment of its variables. What SMT-LIB leaves
open is left to the `Theory`, and so is everything a term of this crate may hold besides.

* **Arithmetic is overloaded**: the sort of the first argument says whether an operation is the
  integer or the real one.
* A function symbol is the constructor of its sort or the selector of its argument's sort of
  that name, and uninterpreted otherwise.
* The value of a term depends on its variables only (`ChcExpr.eval_congr`), and substituting
  terms for variables is assigning their values (`ChcExpr.eval_subst`).
-/

namespace TrustMc

namespace Native

open Carriers Carriers.Val

/-! ### Sorts -/

mutual

/-- The SMT-LIB sort a sort stands for. -/
def ChcSort.toSmt : ChcSort → SmtSort
  | .bool => .bool
  | .int => .int
  | .real => .real
  | .bitVec w => .bitvec w
  | .array index element => .array index.toSmt element.toSmt
  | .uninterpreted name => .uninterpreted name
  | .datatype name cs => .datatype name (ChcDtConstructor.toSmtList cs)

/-- The constructors of a datatype. -/
def ChcDtConstructor.toSmtList : List ChcDtConstructor → List SmtConstructor
  | [] => []
  | .mk name selectors :: cs =>
    .mk name (ChcDtSelector.toSmtList selectors) :: ChcDtConstructor.toSmtList cs

/-- The fields of a constructor. -/
def ChcDtSelector.toSmtList : List ChcDtSelector → List SmtField
  | [] => []
  | .mk name sort :: ss => .mk name sort.toSmt :: ChcDtSelector.toSmtList ss

end

/-! ### Operators -/

section Interp

open Classical

variable {T : Theory}

/-- An arithmetic operation on the arguments, from the left. -/
noncomputable def arith (f : IntBin) (g : RealBin) : List T.Val → T.Val
  | [] => (Op.intBin f).open_ []
  | v :: vs =>
    vs.foldl
      (fun acc v => if acc.1 = .real then (Op.realBin g).interp [acc, v]
        else (Op.intBin f).interp [acc, v]) v

/-- A comparison of integers or reals. -/
noncomputable def compare (f : ArithCmp) (vs : List T.Val) : T.Val :=
  if vs.head?.map (·.1) = some .real then (Op.realCmp f).interp vs else (Op.intCmp f).interp vs

/-- A unary function of bit-vectors. -/
noncomputable def onBits {n : ℕ → ℕ} (f : {w : ℕ} → BitVec w → BitVec (n w)) :
    List T.Val → T.Val
  | [v] => ofBV (f (v.toBV v.1.width))
  | vs => (Op.foreign "" .bool).open_ vs

/-- A binary function of bit-vectors. -/
noncomputable def onBits₂ {n : ℕ → ℕ} (f : {w : ℕ} → BitVec w → BitVec w → BitVec (n w)) :
    List T.Val → T.Val
  | [v, v'] => ofBV (f (v.toBV v.1.width) (v'.toBV v.1.width))
  | vs => (Op.foreign "" .bool).open_ vs

/-- The value of an operator on a list of arguments. -/
noncomputable def ChcOp.interp : ChcOp → List T.Val → T.Val
  | .not => Op.not.interp
  | .and => Op.and.interp
  | .or => Op.or.interp
  | .implies => Op.implies.interp
  | .iff | .eq => Op.eq.interp
  | .ne => Op.distinct.interp
  | .add => arith .add .add
  | .sub => arith .sub .sub
  | .mul => arith .mul .mul
  | .div => arith .div .div
  | .mod => fun
    | [] => (Op.intBin .mod).open_ []
    | v :: vs => vs.foldl (fun acc v => (Op.intBin .mod).interp [acc, v]) v
  | .neg => fun vs =>
    if vs.head?.map (·.1) = some .real then Op.realNeg.interp vs else Op.intNeg.interp vs
  | .lt => compare .lt
  | .le => compare .le
  | .gt => compare .gt
  | .ge => compare .ge
  | .ite => Op.ite.interp
  | .select => Op.select.interp
  | .store => Op.store.interp
  | .bvAdd => (Op.bvBin .add).interp
  | .bvSub => (Op.bvBin .sub).interp
  | .bvMul => (Op.bvBin .mul).interp
  | .bvUDiv => (Op.bvBin .udiv).interp
  | .bvURem => (Op.bvBin .urem).interp
  | .bvSDiv => (Op.bvBin .sdiv).interp
  | .bvSRem => (Op.bvBin .srem).interp
  | .bvSMod => onBits₂ fun x y => x.smod y
  | .bvAnd => (Op.bvBin .and).interp
  | .bvOr => (Op.bvBin .or).interp
  | .bvXor => (Op.bvBin .xor).interp
  | .bvNand => onBits₂ fun x y => ~~~(x &&& y)
  | .bvNor => onBits₂ fun x y => ~~~(x ||| y)
  | .bvXnor => onBits₂ fun x y => ~~~(x ^^^ y)
  | .bvNot => (Op.bvUn .not).interp
  | .bvNeg => (Op.bvUn .neg).interp
  | .bvShl => (Op.bvBin .shl).interp
  | .bvLShr => (Op.bvBin .lshr).interp
  | .bvAShr => (Op.bvBin .ashr).interp
  | .bvULt => (Op.bvCmp .ult).interp
  | .bvULe => (Op.bvCmp .ule).interp
  | .bvUGt => (Op.bvCmp .ugt).interp
  | .bvUGe => (Op.bvCmp .uge).interp
  | .bvSLt => (Op.bvCmp .slt).interp
  | .bvSLe => (Op.bvCmp .sle).interp
  | .bvSGt => (Op.bvCmp .sgt).interp
  | .bvSGe => (Op.bvCmp .sge).interp
  | .bvComp => onBits₂ (n := fun _ => 1) fun x y => if x = y then 1#1 else 0#1
  | .bvConcat => Op.bvConcat.interp
  | .bvExtract high low => (Op.bvExtract high low).interp
  | .bvZeroExtend extra => (Op.bvZeroExtend extra).interp
  | .bvSignExtend extra => (Op.bvSignExtend extra).interp
  | .bvRotateLeft amount => onBits fun x => x.rotateLeft amount
  | .bvRotateRight amount => onBits fun x => x.rotateRight amount
  | .bvRepeat count => onBits fun x => x.replicate count
  | .bv2Nat => Op.bv2Int.interp
  | .int2Bv width => (Op.int2Bv width).interp
  | .other name => (Op.foreign name .bool).open_

/-- The constructor of a datatype sort of the given name. -/
def constructorOp (name : String) (sort : SmtSort) : Option Op :=
  match sort with
  | .datatype dt cs =>
    if cs.any (·.name == name) then some (.datatypeConstructor dt name sort) else none
  | _ => none

/-- The selector of the given name and sort of a datatype. -/
def selectorOp (name : String) (sort : SmtSort) : SmtSort → Option Op
  | .datatype dt cs =>
    if cs.any (·.hasField name) then some (.datatypeSelector dt name sort) else none
  | _ => none

/-- What a function symbol is: a constructor of its sort, a selector of the sort of its
argument, or uninterpreted. -/
def funcOp (name : String) (sort : SmtSort) (argSorts : List SmtSort) : Op :=
  ((constructorOp name sort).or
    (match argSorts with
      | [s] => selectorOp name sort s
      | _ => none)).getD (.funcApp name sort)

/-- A function symbol has values of its sort. -/
@[simp]
theorem resultSort_funcOp (name : String) (sort : SmtSort) (argSorts ss : List SmtSort) :
    (funcOp name sort argSorts).resultSort ss = sort := by
  have hconstructor : ∀ o ∈ constructorOp name sort, o.resultSort ss = sort := by
    intro o ho
    unfold constructorOp at ho
    split at ho
    · split_ifs at ho
      · obtain rfl := Option.some.inj ho
        rfl
      · cases ho
    · cases ho
  have hselector : ∀ s, ∀ o ∈ selectorOp name sort s, o.resultSort ss = sort := by
    intro s o ho
    unfold selectorOp at ho
    split at ho
    · split_ifs at ho
      · obtain rfl := Option.some.inj ho
        rfl
      · cases ho
    · cases ho
  cases hc : constructorOp name sort with
  | some o => simpa [funcOp, hc] using hconstructor o hc
  | none =>
    rcases argSorts with _ | ⟨s, _ | ⟨_, _⟩⟩
    · simp [funcOp, hc, Op.resultSort]
    · cases hs : selectorOp name sort s with
      | some o => simpa [funcOp, hc, hs] using hselector s o hs
      | none => simp [funcOp, hc, hs, Op.resultSort]
    · simp [funcOp, hc, Op.resultSort]

/-- An arithmetic operation on integers has an integer value. -/
theorem fst_arith {f : IntBin} {g : RealBin} {vs : List T.Val} (h : ∀ v ∈ vs, v.1 = .int) :
    (arith f g vs).1 = .int := by
  cases vs with
  | nil => rfl
  | cons v vs =>
    obtain ⟨hv, hvs⟩ := List.forall_mem_cons.1 h
    refine List.foldlRecOn (motive := fun acc : T.Val => acc.1 = .int) vs _ hv
      fun acc hacc w _ => ?_
    rw [if_neg (by simp [hacc]), Op.fst_interp]
    rfl

/-- The arithmetic operators have integer values on integers. -/
theorem fst_interp_arith {o : ChcOp} (ho : o ∈ [.add, .sub, .mul, .div, .mod])
    {vs : List T.Val} (h : ∀ v ∈ vs, v.1 = .int) : (o.interp vs).1 = .int := by
  simp only [List.mem_cons, List.not_mem_nil, or_false] at ho
  rcases ho with rfl | rfl | rfl | rfl | rfl
  · exact fst_arith h
  · exact fst_arith h
  · exact fst_arith h
  · exact fst_arith h
  · cases vs with
    | nil => rfl
    | cons v vs =>
      refine List.foldlRecOn (motive := fun acc : T.Val => acc.1 = .int) vs _
        (h v List.mem_cons_self) fun acc _ w _ => ?_
      rw [Op.fst_interp]
      rfl

/-- A comparison of integers. -/
theorem compare_int {f : ArithCmp} (x y : ℤ) :
    compare f [(ofInt x : T.Val), ofInt y] = ofBool (f.denote x y) := by
  rw [compare, if_neg (by simp), Op.interp, toInt_ofInt, toInt_ofInt]

end Interp

/-! ### Terms -/

/-- An assignment of a theory's values to the variables, at their sorts. -/
abbrev ChcEnv (T : Theory) : Type := (v : ChcVar) → T.Dom v.sort.toSmt

namespace ChcExpr

variable {T : Theory}

mutual

/-- The value of a term under an assignment. -/
noncomputable def eval : ChcExpr → ChcEnv T → T.Val
  | .bool b, _ => ofBool b
  | .int z, _ => ofInt z
  | .real num den, _ => ofReal ((num : ℝ) / den)
  | .bitVec value width, _ => ofBV (BitVec.ofNat width value)
  | .var v, ρ => ⟨v.sort.toSmt, ρ v⟩
  | .op o args, ρ => o.interp (evalList args ρ)
  | .predicateApp name _ args, ρ => (Op.foreign name .bool).open_ (evalList args ρ)
  | .funcApp name sort args, ρ =>
    (funcOp name sort.toSmt ((evalList args ρ).map (·.1))).interp (evalList args ρ)
  | .constArrayMarker sort, _ => (Op.foreign "" sort.toSmt).open_ []
  | .isTesterMarker name, _ => (Op.foreign name .bool).open_ []
  | .constArray sort value, ρ => (Op.constArray sort.toSmt).interp [value.eval ρ]
  | .unrecognized, _ => (Op.foreign "" .bool).open_ []

/-- The values of a list of terms. -/
noncomputable def evalList : List ChcExpr → ChcEnv T → List T.Val
  | [], _ => []
  | e :: es, ρ => e.eval ρ :: evalList es ρ

end

/-- The formula is true under the assignment. -/
def Holds (ρ : ChcEnv T) (e : ChcExpr) : Prop := (e.eval ρ).toBool = true

@[simp]
theorem evalList_eq (es : List ChcExpr) (ρ : ChcEnv T) : evalList es ρ = es.map (·.eval ρ) := by
  induction es with
  | nil => rfl
  | cons e es ih => simp [evalList, ih]

@[simp]
theorem eval_var (v : ChcVar) (ρ : ChcEnv T) : (var v).eval ρ = ⟨v.sort.toSmt, ρ v⟩ := by
  simp [eval]

@[simp]
theorem eval_op (o : ChcOp) (args : List ChcExpr) (ρ : ChcEnv T) :
    (op o args).eval ρ = o.interp (args.map (·.eval ρ)) := by
  simp [eval]

/-! ### Substitution -/

mutual

/-- The term with the first replacement for each variable put in its place. -/
def subst (σ : List (ChcVar × ChcExpr)) : ChcExpr → ChcExpr
  | .var v => (σ.lookup v).getD (.var v)
  | .op o args => .op o (substList σ args)
  | .predicateApp name id args => .predicateApp name id (substList σ args)
  | .funcApp name sort args => .funcApp name sort (substList σ args)
  | .constArray sort value => .constArray sort (value.subst σ)
  | e => e

/-- The terms with the replacements put in. -/
def substList (σ : List (ChcVar × ChcExpr)) : List ChcExpr → List ChcExpr
  | [] => []
  | e :: es => e.subst σ :: substList σ es

end

@[simp]
theorem substList_eq (σ : List (ChcVar × ChcExpr)) (es : List ChcExpr) :
    substList σ es = es.map (subst σ) := by
  induction es with
  | nil => rfl
  | cons e es ih => simp [substList, ih]

/-- **Substitution**: the value of a term under the values of what its variables are replaced
by. -/
theorem eval_subst {σ : List (ChcVar × ChcExpr)} {ρ ρ' : ChcEnv T} {e : ChcExpr}
    (h : ∀ v ∈ e.vars, ((var v).subst σ).eval ρ = (var v).eval ρ') :
    (e.subst σ).eval ρ = e.eval ρ' := by
  have hargs : ∀ {args : List ChcExpr},
      (∀ a ∈ args, (∀ v ∈ a.vars, ((var v).subst σ).eval ρ = (var v).eval ρ') →
        (a.subst σ).eval ρ = a.eval ρ') →
      (∀ v ∈ varsList args, ((var v).subst σ).eval ρ = (var v).eval ρ') →
      evalList (substList σ args) ρ = evalList args ρ' := fun {args} ih h => by
    rw [evalList_eq, evalList_eq, substList_eq, List.map_map]
    exact List.map_congr_left fun a ha => ih a ha fun v hv => h v (mem_varsList.2 ⟨a, ha, hv⟩)
  induction e with
  | var v => exact h v (by simp [vars])
  | op o args ih => simp only [subst, eval, hargs ih h]
  | predicateApp name id args ih => simp only [subst, eval, hargs ih h]
  | funcApp name sort args ih => simp only [subst, eval, hargs ih h]
  | constArray sort value ih => simp only [subst, eval, ih h]
  | _ => rfl

/-- The variables of the terms that the variables are replaced by. -/
theorem vars_subst {σ : List (ChcVar × ChcExpr)} {w : ChcVar} {e : ChcExpr} :
    w ∈ (e.subst σ).vars ↔ ∃ v ∈ e.vars, w ∈ ((var v).subst σ).vars := by
  have hargs : ∀ {args : List ChcExpr},
      (∀ a ∈ args, (w ∈ (a.subst σ).vars ↔ ∃ v ∈ a.vars, w ∈ ((var v).subst σ).vars)) →
      (w ∈ varsList (substList σ args) ↔ ∃ v ∈ varsList args, w ∈ ((var v).subst σ).vars) :=
    fun {args} ih => by
      rw [substList_eq, mem_varsList]
      simp only [List.mem_map, exists_exists_and_eq_and, mem_varsList]
      constructor
      · rintro ⟨a, ha, hw⟩
        obtain ⟨v, hv, hw⟩ := (ih a ha).1 hw
        exact ⟨v, ⟨a, ha, hv⟩, hw⟩
      · rintro ⟨v, ⟨a, ha, hv⟩, hw⟩
        exact ⟨a, ha, (ih a ha).2 ⟨v, hv, hw⟩⟩
  induction e with
  | var v => simp [vars]
  | op o args ih => exact hargs ih
  | predicateApp name id args ih => exact hargs ih
  | funcApp name sort args ih => exact hargs ih
  | constArray sort value ih => exact ih
  | _ => simp [subst, vars]

/-- The value of a term depends on its variables only. -/
theorem eval_congr {ρ ρ' : ChcEnv T} {e : ChcExpr} (h : ∀ v ∈ e.vars, ρ v = ρ' v) :
    e.eval ρ = e.eval ρ' := by
  have hargs : ∀ {args : List ChcExpr},
      (∀ a ∈ args, (∀ v ∈ a.vars, ρ v = ρ' v) → a.eval ρ = a.eval ρ') →
      (∀ v ∈ varsList args, ρ v = ρ' v) → evalList args ρ = evalList args ρ' :=
    fun {args} ih h => by
      rw [evalList_eq, evalList_eq]
      exact List.map_congr_left fun a ha => ih a ha fun v hv => h v (mem_varsList.2 ⟨a, ha, hv⟩)
  induction e with
  | var v => simp [h v (by simp [vars])]
  | op o args ih => simp only [eval, hargs ih h]
  | predicateApp name id args ih => simp only [eval, hargs ih h]
  | funcApp name sort args ih => simp only [eval, hargs ih h]
  | constArray sort value ih => simp only [eval, ih h]
  | _ => rfl

theorem holds_congr {ρ ρ' : ChcEnv T} {e : ChcExpr} (h : ∀ v ∈ e.vars, ρ v = ρ' v) :
    e.Holds ρ ↔ e.Holds ρ' := by
  rw [Holds, Holds, eval_congr h]

end ChcExpr

/-- The reading of the terms by a theory. -/
noncomputable def reading (T : Theory) : Reading where
  Val := T.Val
  Env := ChcEnv T
  eval e ρ := e.eval ρ
  Holds e ρ := e.Holds ρ

end Native

end TrustMc
