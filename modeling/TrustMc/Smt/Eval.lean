import TrustMc.Smt.Expr
import Mathlib.Algebra.Order.Floor.Ring
import Mathlib.Algebra.Order.Archimedean.Real.Basic

/-!
# The meaning of terms

`Expr.eval` is the SMT-LIB meaning of a term under an assignment of its variables. What
SMT-LIB leaves open is left to a `Theory`: the uninterpreted functions, the floating-point
and string operators, division by zero on integers and reals, and a selector applied to a
value of another constructor. Every statement of this development is about all theories.

* **Every operator has a value on every argument list** (`Op.interp`), of the sort
  `Op.resultSort` says, so `eval` is total and `eval_sort` needs no well-sortedness.
* **A quantifier varies the bound names** and nothing else (`AgreeOff`).
* The value of a term depends on its free occurrences only (`eval_congr_occs`).
-/

namespace TrustMc

/-- An interpretation of what SMT-LIB leaves open. -/
structure Theory extends Carriers where
  /-- The value of an operator where SMT-LIB does not fix it. -/
  app : Op → List toCarriers.Val → (s : SmtSort) → toCarriers.Dom s

namespace Theory

variable (T : Theory)

/-- The values of a theory. -/
abbrev Val : Type := T.toCarriers.Val

/-- An assignment: a value for every name at every sort. -/
abbrev Env : Type := String → (s : SmtSort) → T.Dom s

variable {T}

/-- One-element carriers. -/
instance : Inhabited Carriers := ⟨⟨fun _ => Unit, fun _ => inferInstance⟩⟩

/-- A theory with a default value for everything left open. -/
noncomputable instance : Inhabited Theory :=
  ⟨⟨default, fun _ _ s => (default : (default : Carriers).Dom s)⟩⟩

/-- The assignments agree on every name outside `names`. -/
def AgreeOff (names : List String) (ρ ρ' : T.Env) : Prop :=
  ∀ n, n ∉ names → ρ' n = ρ n

/-- The assignment that reads one value for each name. -/
noncomputable def Env.ofVals (f : String → T.Val) : T.Env := fun n s => (f n).as s

theorem AgreeOff.refl (names : List String) (ρ : T.Env) : AgreeOff names ρ ρ := fun _ _ => rfl

end Theory

open Carriers Carriers.Val

/-! ### Interpreted functions -/

/-- The unary bit-vector functions. -/
def BvUn.denote : BvUn → {w : ℕ} → BitVec w → BitVec w
  | neg, _, x => -x
  | not, _, x => ~~~x

/-- The binary bit-vector functions, division by zero as in SMT-LIB. -/
def BvBin.denote : BvBin → {w : ℕ} → BitVec w → BitVec w → BitVec w
  | add, _, x, y => x + y
  | sub, _, x, y => x - y
  | mul, _, x, y => x * y
  | udiv, _, x, y => x.smtUDiv y
  | sdiv, _, x, y => x.smtSDiv y
  | urem, _, x, y => x % y
  | srem, _, x, y => x.srem y
  | and, _, x, y => x &&& y
  | or, _, x, y => x ||| y
  | xor, _, x, y => x ^^^ y
  | shl, _, x, y => x <<< y
  | lshr, _, x, y => x >>> y
  | ashr, _, x, y => x.sshiftRight' y

/-- The bit-vector comparisons. -/
def BvCmp.denote : BvCmp → {w : ℕ} → BitVec w → BitVec w → Bool
  | ult, _, x, y => x.ult y
  | ule, _, x, y => x.ule y
  | ugt, _, x, y => y.ult x
  | uge, _, x, y => y.ule x
  | slt, _, x, y => x.slt y
  | sle, _, x, y => x.sle y
  | sgt, _, x, y => y.slt x
  | sge, _, x, y => y.sle x

/-- `z` is a signed value of width `w`. -/
def inSigned (w : ℕ) (z : ℤ) : Prop := -2 ^ (w - 1) ≤ z ∧ z < 2 ^ (w - 1)

instance (w : ℕ) (z : ℤ) : Decidable (inSigned w z) := inferInstanceAs (Decidable (_ ∧ _))

/-- The no-overflow predicates: the exact result is a value of the width. -/
def BvCheck.denote : BvCheck → {w : ℕ} → BitVec w → BitVec w → Bool
  | addNoOverflowUnsigned, w, x, y => x.toNat + y.toNat < 2 ^ w
  | addNoOverflowSigned, w, x, y => inSigned w (x.toInt + y.toInt)
  | subNoUnderflowUnsigned, _, x, y => y.toNat ≤ x.toNat
  | subNoOverflowSigned, w, x, y => inSigned w (x.toInt - y.toInt)
  | mulNoOverflowUnsigned, w, x, y => x.toNat * y.toNat < 2 ^ w
  | mulNoOverflowSigned, w, x, y => inSigned w (x.toInt * y.toInt)
  | sdivNoOverflow, w, x, y => inSigned w (x.toInt.tdiv y.toInt)

/-- The integer functions with a nonzero divisor; `div` and `mod` are SMT-LIB's. -/
def IntBin.denote : IntBin → ℤ → ℤ → ℤ
  | add, x, y => x + y
  | sub, x, y => x - y
  | mul, x, y => x * y
  | div, x, y => x / y
  | mod, x, y => x % y

/-- Whether the function divides. -/
def IntBin.divides : IntBin → Bool
  | div | mod => true
  | _ => false

/-- The real functions with a nonzero divisor. -/
noncomputable def RealBin.denote : RealBin → ℝ → ℝ → ℝ
  | add, x, y => x + y
  | sub, x, y => x - y
  | mul, x, y => x * y
  | div, x, y => x / y

/-- The comparisons of a linear order. -/
def ArithCmp.denote {α : Type} [LinearOrder α] : ArithCmp → α → α → Bool
  | lt, x, y => x < y
  | le, x, y => x ≤ y
  | gt, x, y => y < x
  | ge, x, y => y ≤ x

/-! ### Operators -/

section Interp

open Classical

variable {T : Theory}

/-- What the theory says of an operator on the given arguments. -/
def Op.open_ (op : Op) (vs : List T.Val) : T.Val :=
  ⟨op.resultSort (vs.map (·.1)), T.app op vs _⟩

/-- What a constructor of a datatype sort builds. -/
noncomputable def buildVal (c : String) (s : SmtSort) (vs : List T.Val) : Option T.Val :=
  match s with
  | .datatype n cs => some ⟨.datatype n cs, buildConstructor cs c vs⟩
  | _ => none

/-- The constructor a datatype value was built with, and its arguments. -/
def destructVal (v : T.Val) : Option (SmtConstructor × List T.Val) :=
  match v with
  | ⟨.datatype _ cs, x⟩ => destruct cs x
  | _ => none

/-- The constructor a datatype value was built with. -/
def constructorOf (v : T.Val) : Option SmtConstructor := (destructVal v).map (·.1)

/-- The value of a selector: a field of the constructor, if it is one of its fields. -/
noncomputable def selectField (sel : String) (s : SmtSort) (v : T.Val) : Option T.Val :=
  (destructVal v).bind fun (c, vs) =>
    (c.fields.findIdx? (·.name == sel)).bind fun i => vs[i]?.map fun v => ⟨s, v.as s⟩

/-- The value of an array at an index. -/
noncomputable def selectVal : T.Val → T.Val → T.Val
  | ⟨.array i e, f⟩, v => ⟨e, f (v.as i)⟩
  | _, _ => ofBool false

/-- An array with one element replaced. -/
noncomputable def storeVal : T.Val → T.Val → T.Val → T.Val
  | ⟨.array i e, f⟩, v, x =>
    ⟨.array i e, fun k : T.Dom i => if k = v.as i then x.as e else f k⟩
  | a, _, _ => a

theorem fst_buildVal {c : String} {s : SmtSort} {vs : List T.Val} {v : T.Val}
    (h : buildVal c s vs = some v) : v.1 = s := by
  unfold buildVal at h
  split at h
  · exact Option.some.inj h ▸ rfl
  · cases h

theorem fst_selectField {sel : String} {s : SmtSort} {v w : T.Val}
    (h : selectField sel s v = some w) : w.1 = s := by
  simp only [selectField, Option.bind_eq_some_iff, Option.map_eq_some_iff] at h
  obtain ⟨-, -, -, -, -, -, rfl⟩ := h
  rfl

@[simp]
theorem fst_selectVal (a v : T.Val) :
    (selectVal a v).1 = (a.1.arraySort.map (·.2)).getD .bool := by
  obtain ⟨s, f⟩ := a
  cases s <;> rfl

@[simp]
theorem fst_storeVal (a v x : T.Val) : (storeVal a v x).1 = a.1 := by
  obtain ⟨s, f⟩ := a
  cases s <;> rfl

/-- The value of an operator on a list of arguments. -/
noncomputable def Op.interp : Op → List T.Val → T.Val
  | boolConst b, _ => ofBool b
  | bitVecConst _ x, _ => ofBV x
  | intConst z, _ => ofInt z
  | realConst z, _ => ofReal z
  | not, [v] => ofBool !v.toBool
  | and, vs => ofBool (vs.all toBool)
  | or, vs => ofBool (vs.any toBool)
  | xor, [v, v'] => ofBool (v.toBool ^^ v'.toBool)
  | implies, [v, v'] => ofBool (!v.toBool || v'.toBool)
  | eq, [v, v'] => ofBool (decide (v = v'))
  | distinct, vs => ofBool (decide vs.Nodup)
  | ite, [c, v, v'] => if c.toBool then v else ⟨v.1, v'.as v.1⟩
  | bvUn f, [v] => ofBV (f.denote (v.toBV v.1.width))
  | bvBin f, [v, v'] => ofBV (f.denote (v.toBV v.1.width) (v'.toBV v.1.width))
  | bvCmp f, [v, v'] => ofBool (f.denote (v.toBV v.1.width) (v'.toBV v.1.width))
  | bvCheck f, [v, v'] => ofBool (f.denote (v.toBV v.1.width) (v'.toBV v.1.width))
  | bvNegNoOverflow, [v] => ofBool (inSigned v.1.width (-(v.toBV v.1.width).toInt))
  | bvConcat, [v, v'] => ofBV (v.toBV v.1.width ++ v'.toBV v'.1.width)
  | bvExtract hi lo, [v] => ofBV ((v.toBV v.1.width).extractLsb hi lo)
  | bvZeroExtend n, [v] => ofBV ((v.toBV v.1.width).setWidth (v.1.width + n))
  | bvSignExtend n, [v] => ofBV ((v.toBV v.1.width).signExtend (v.1.width + n))
  | intNeg, [v] => ofInt (-v.toInt)
  | intBin f, [v, v'] =>
    if f.divides ∧ v'.toInt = 0 then (intBin f).open_ [v, v'] else ofInt (f.denote v.toInt v'.toInt)
  | intCmp f, [v, v'] => ofBool (f.denote v.toInt v'.toInt)
  | realNeg, [v] => ofReal (-v.toReal)
  | realBin f, [v, v'] =>
    if f = .div ∧ v'.toReal = 0 then (realBin f).open_ [v, v']
    else ofReal (f.denote v.toReal v'.toReal)
  | realCmp f, [v, v'] => ofBool (f.denote v.toReal v'.toReal)
  | intToReal, [v] => ofReal v.toInt
  | realToInt, [v] => ofInt ⌊v.toReal⌋
  | isInt, [v] => ofBool (decide ((⌊v.toReal⌋ : ℝ) = v.toReal))
  | bv2Int, [v] => ofInt (v.toBV v.1.width).toNat
  | int2Bv w, [v] => ofBV (BitVec.ofInt w v.toInt)
  | select, [a, i] => selectVal a i
  | store, [a, i, v] => storeVal a i v
  | constArray i, [v] => ⟨.array i v.1, fun _ => v.2⟩
  | datatypeConstructor dt c s, vs =>
    (buildVal c s vs).getD ((datatypeConstructor dt c s).open_ vs)
  | datatypeSelector dt sel s, [v] =>
    (selectField sel s v).getD ((datatypeSelector dt sel s).open_ [v])
  | datatypeTester _ c, [v] => ofBool ((constructorOf v).any (·.name == c))
  | op, vs => op.open_ vs

/-- The value of an operator has the operator's result sort. -/
@[simp]
theorem Op.fst_interp (op : Op) (vs : List T.Val) :
    (op.interp vs).1 = op.resultSort (vs.map (·.1)) := by
  unfold interp
  split <;> try rfl
  case h_12 => split <;> rfl
  case h_23 => split <;> rfl
  case h_26 => split <;> rfl
  case h_33 a i => exact fst_selectVal a i
  case h_34 a i x => exact fst_storeVal a i x
  case h_36 dt c s =>
    cases h : buildVal c s vs with
    | none => rfl
    | some v => exact fst_buildVal h
  case h_37 dt sel s v =>
    cases h : selectField sel s v with
    | none => rfl
    | some w => exact fst_selectField h

end Interp

/-! ### Terms -/

namespace Expr

open Classical in
mutual

/-- The value of a term under an assignment. -/
noncomputable def eval {T : Theory} : Expr → T.Env → T.Val
  | var n s, ρ => ⟨s, ρ n s⟩
  | app op args, ρ => op.interp (evalList args ρ)
  | quant .all vs b, ρ =>
    ofBool (decide (∀ ρ', Theory.AgreeOff (vs.map Prod.fst) ρ ρ' → (b.eval ρ').toBool = true))
  | quant .ex vs b, ρ =>
    ofBool (decide (∃ ρ', Theory.AgreeOff (vs.map Prod.fst) ρ ρ' ∧ (b.eval ρ').toBool = true))

/-- The values of a list of terms. -/
noncomputable def evalList {T : Theory} : List Expr → T.Env → List T.Val
  | [], _ => []
  | e :: es, ρ => e.eval ρ :: evalList es ρ

end

variable {T : Theory}

/-- The formula is true under the assignment. -/
def Holds (ρ : T.Env) (e : Expr) : Prop := (e.eval ρ).toBool = true

@[simp]
theorem evalList_eq (es : List Expr) (ρ : T.Env) : evalList es ρ = es.map (·.eval ρ) := by
  induction es with
  | nil => rfl
  | cons e es ih => simp [evalList, ih]

@[simp]
theorem eval_var (n : String) (s : SmtSort) (ρ : T.Env) : (var n s).eval ρ = ⟨s, ρ n s⟩ := by
  simp [eval]

theorem eval_var_ofVals {f : String → T.Val} {n : String} {s : SmtSort} (h : (f n).1 = s) :
    (var n s).eval (Theory.Env.ofVals f) = f n := by
  simp [Theory.Env.ofVals, mk_as h]

@[simp]
theorem eval_app (op : Op) (args : List Expr) (ρ : T.Env) :
    (app op args).eval ρ = op.interp (args.map (·.eval ρ)) := by
  simp [eval]

/-- The value of a term has the term's sort. -/
@[simp]
theorem eval_sort (e : Expr) (ρ : T.Env) : (e.eval ρ).1 = e.sort := by
  induction e with
  | var n s => simp
  | app op args ih =>
    have hmap : (args.map (·.eval ρ)).map (·.1) = args.map sort := by
      simpa using ih
    simp [hmap]
  | quant q vs b _ => cases q <;> simp [eval]

theorem holds_all {vs : List (String × SmtSort)} {b : Expr} {ρ : T.Env} :
    Holds ρ (quant .all vs b) ↔ ∀ ρ', Theory.AgreeOff (vs.map Prod.fst) ρ ρ' → Holds ρ' b := by
  simp [Holds, eval]

theorem holds_ex {vs : List (String × SmtSort)} {b : Expr} {ρ : T.Env} :
    Holds ρ (quant .ex vs b) ↔ ∃ ρ', Theory.AgreeOff (vs.map Prod.fst) ρ ρ' ∧ Holds ρ' b := by
  simp [Holds, eval]

/-! ### Formulas -/

attribute [local simp] Op.interp

@[simp]
theorem holds_boolConst {b : Bool} {ρ : T.Env} : Holds ρ (boolConst b) ↔ b = true := by
  simp [Holds, Op.interp]

@[simp]
theorem holds_not {e : Expr} {ρ : T.Env} : Holds ρ (not e) ↔ ¬ Holds ρ e := by
  simp [Holds, Op.interp]

@[simp]
theorem holds_and {es : List Expr} {ρ : T.Env} : Holds ρ (and es) ↔ ∀ e ∈ es, Holds ρ e := by
  simp [Holds, Op.interp]

@[simp]
theorem holds_or {es : List Expr} {ρ : T.Env} : Holds ρ (or es) ↔ ∃ e ∈ es, Holds ρ e := by
  simp [Holds, Op.interp]

@[simp]
theorem holds_implies {a b : Expr} {ρ : T.Env} :
    Holds ρ (implies a b) ↔ (Holds ρ a → Holds ρ b) := by
  simp only [Holds, eval_app, List.map_cons, List.map_nil, Op.interp, toBool_ofBool,
    Bool.or_eq_true, Bool.not_eq_true']
  cases (a.eval ρ).toBool <;> simp

@[simp]
theorem holds_eq {a b : Expr} {ρ : T.Env} : Holds ρ (eq a b) ↔ a.eval ρ = b.eval ρ := by
  simp [Holds, Op.interp]

open Classical in
/-- A conditional whose branches have one sort takes the branch its condition chooses. -/
theorem eval_ite {c a b : Expr} {ρ : T.Env} (h : a.sort = b.sort) :
    (ite c a b).eval ρ = if Holds ρ c then a.eval ρ else b.eval ρ := by
  simp only [eval_app, List.map_cons, List.map_nil, Op.interp, Holds]
  by_cases hc : (c.eval ρ).toBool = true
  · simp only [hc, if_true]
  · simp only [hc, if_false, Bool.false_eq_true]
    exact mk_as (by simp [h])

theorem holds_ite {c a b : Expr} {ρ : T.Env} (h : a.sort = b.sort) :
    Holds ρ (ite c a b) ↔ (Holds ρ c → Holds ρ a) ∧ (¬ Holds ρ c → Holds ρ b) := by
  unfold Holds
  rw [eval_ite h]
  split <;> simp_all [Holds]

theorem holds_isConstructor {e : Expr} {dt c : String} {ρ : T.Env} :
    Holds ρ (isConstructor e dt c) ↔ ∃ d, constructorOf (e.eval ρ) = some d ∧ d.name = c := by
  simp [Holds, Op.interp, Option.any_eq_true]

/-- Boolean terms have the same value when they are true together. -/
theorem eval_eq_of_holds_iff {a b : Expr} {ρ ρ' : T.Env} (ha : a.sort = .bool)
    (hb : b.sort = .bool) (h : Holds ρ a ↔ Holds ρ' b) : a.eval ρ = b.eval ρ' := by
  rw [← ofBool_toBool (v := a.eval ρ) (by simp [ha]),
    ← ofBool_toBool (v := b.eval ρ') (by simp [hb]), ofBool_inj, Bool.eq_iff_iff]
  exact h

/-! ### Dependence on the free names -/

private theorem exists_agreeOff {vs : List String} {ρ ρ' ρ₁ : T.Env} {e : Expr}
    (h : ∀ o ∈ e.freeOccs, o.1 ∉ vs → ρ o.1 o.2 = ρ' o.1 o.2) (h₁ : Theory.AgreeOff vs ρ ρ₁) :
    ∃ ρ₁', Theory.AgreeOff vs ρ' ρ₁' ∧ ∀ o ∈ e.freeOccs, ρ₁ o.1 o.2 = ρ₁' o.1 o.2 := by
  classical
  refine ⟨fun n => if n ∈ vs then ρ₁ n else ρ' n, fun n hn => by simp [hn], fun o ho => ?_⟩
  by_cases hv : o.1 ∈ vs
  · simp [hv]
  · simp [hv, h₁ o.1 hv, h o ho hv]

/-- **Congruence.** The value of a term depends on its free occurrences only. -/
theorem eval_congr_occs {e : Expr} {ρ ρ' : T.Env}
    (h : ∀ o ∈ e.freeOccs, ρ o.1 o.2 = ρ' o.1 o.2) : e.eval ρ = e.eval ρ' := by
  induction e generalizing ρ ρ' with
  | var n s => simp [h (n, s) (by simp)]
  | app op args ih =>
    have hmap : args.map (·.eval ρ) = args.map (·.eval ρ') :=
      List.map_congr_left fun a ha => ih a ha fun o ho => h o (by
        rw [freeOccs_app]
        exact List.mem_flatMap.2 ⟨a, ha, ho⟩)
    simp only [eval_app, hmap]
  | quant q vs b ih =>
    have hl : ∀ o ∈ b.freeOccs, o.1 ∉ vs.map Prod.fst → ρ o.1 o.2 = ρ' o.1 o.2 :=
      fun o ho hv => h o (mem_freeOccs_quant.2 ⟨ho, hv⟩)
    have hr : ∀ o ∈ b.freeOccs, o.1 ∉ vs.map Prod.fst → ρ' o.1 o.2 = ρ o.1 o.2 :=
      fun o ho hv => (hl o ho hv).symm
    refine eval_eq_of_holds_iff rfl rfl ?_
    cases q with
    | all =>
      simp only [holds_all]
      constructor
      · intro hb ρ₁ h₁
        obtain ⟨ρ₂, h₂, hc⟩ := exists_agreeOff hr h₁
        exact (congrArg Val.toBool (ih hc)).trans (hb ρ₂ h₂)
      · intro hb ρ₁ h₁
        obtain ⟨ρ₂, h₂, hc⟩ := exists_agreeOff hl h₁
        exact (congrArg Val.toBool (ih hc)).trans (hb ρ₂ h₂)
    | ex =>
      simp only [holds_ex]
      constructor
      · rintro ⟨ρ₁, h₁, hb⟩
        obtain ⟨ρ₂, h₂, hc⟩ := exists_agreeOff hl h₁
        exact ⟨ρ₂, h₂, (congrArg Val.toBool (ih hc)).symm.trans hb⟩
      · rintro ⟨ρ₁, h₁, hb⟩
        obtain ⟨ρ₂, h₂, hc⟩ := exists_agreeOff hr h₁
        exact ⟨ρ₂, h₂, (congrArg Val.toBool (ih hc)).symm.trans hb⟩

/-- The value of a term depends on its free names only. -/
theorem eval_congr {e : Expr} {ρ ρ' : T.Env} (h : ∀ n ∈ e.freeVars, ρ n = ρ' n) :
    e.eval ρ = e.eval ρ' :=
  eval_congr_occs fun o ho => by rw [h o.1 (mem_freeVars.2 ⟨o.2, ho⟩)]

theorem holds_congr {e : Expr} {ρ ρ' : T.Env} (h : ∀ n ∈ e.freeVars, ρ n = ρ' n) :
    Holds ρ e ↔ Holds ρ' e := by
  rw [Holds, Holds, eval_congr h]

/-! ### Operators on arguments of their sorts -/

section Operators

variable {a b c : Expr} {w : ℕ} {ρ : T.Env}

/-- The bits a bit-vector term denotes. -/
noncomputable def bits (w : ℕ) (e : Expr) (ρ : T.Env) : BitVec w := (e.eval ρ).toBV w

@[simp]
theorem bits_bitVecConst (x : BitVec w) (args : List Expr) :
    bits w (app (.bitVecConst w x) args) ρ = x := by
  simp [bits, Op.interp]

theorem eval_eq_ofBV_bits (h : a.sort = .bitvec w) : a.eval ρ = ofBV (bits w a ρ) :=
  (ofBV_toBV (by rw [eval_sort, h])).symm

theorem bits_inj (ha : a.sort = .bitvec w) (hb : b.sort = .bitvec w) :
    a.eval ρ = b.eval ρ ↔ bits w a ρ = bits w b ρ := by
  rw [eval_eq_ofBV_bits ha, eval_eq_ofBV_bits hb, ofBV_inj]

private theorem exists_bits (ρ : T.Env) (h : a.sort = .bitvec w) :
    ∃ x : BitVec w, a.eval ρ = ofBV x :=
  ⟨_, eval_eq_ofBV_bits h⟩

theorem eval_bv {f : BvBin} (ha : a.sort = .bitvec w) :
    (bv f a b).eval ρ = ofBV (f.denote (bits w a ρ) (bits w b ρ)) := by
  obtain ⟨x, hx⟩ := exists_bits ρ ha
  simp only [eval_app, List.map_cons, List.map_nil, Op.interp, bits, hx]
  rfl

theorem holds_bvCmp {f : BvCmp} (ha : a.sort = .bitvec w) :
    Holds ρ (bvCmp f a b) ↔ f.denote (bits w a ρ) (bits w b ρ) = true := by
  obtain ⟨x, hx⟩ := exists_bits ρ ha
  simp only [Holds, eval_app, List.map_cons, List.map_nil, Op.interp, toBool_ofBool, bits, hx]
  rfl

theorem holds_bvCheck {f : BvCheck} (ha : a.sort = .bitvec w) :
    Holds ρ (app (.bvCheck f) [a, b]) ↔ f.denote (bits w a ρ) (bits w b ρ) = true := by
  obtain ⟨x, hx⟩ := exists_bits ρ ha
  simp only [Holds, eval_app, List.map_cons, List.map_nil, Op.interp, toBool_ofBool, bits, hx]
  rfl

theorem eval_bvConcat {w' : ℕ} (ha : a.sort = .bitvec w) (hb : b.sort = .bitvec w') :
    (app .bvConcat [a, b]).eval ρ = ofBV (bits w a ρ ++ bits w' b ρ) := by
  obtain ⟨x, hx⟩ := exists_bits ρ ha
  obtain ⟨y, hy⟩ := exists_bits ρ hb
  simp only [eval_app, List.map_cons, List.map_nil, Op.interp, bits, hx, hy]
  rfl

theorem eval_bvExtract {high low : ℕ} (ha : a.sort = .bitvec w) :
    (app (.bvExtract high low) [a]).eval ρ = ofBV ((bits w a ρ).extractLsb high low) := by
  obtain ⟨x, hx⟩ := exists_bits ρ ha
  simp only [eval_app, List.map_cons, List.map_nil, Op.interp, bits, hx]
  rfl

theorem eval_bvZeroExtend {n : ℕ} (ha : a.sort = .bitvec w) :
    (app (.bvZeroExtend n) [a]).eval ρ = ofBV ((bits w a ρ).setWidth (w + n)) := by
  obtain ⟨x, hx⟩ := exists_bits ρ ha
  simp only [eval_app, List.map_cons, List.map_nil, Op.interp, bits, hx]
  rfl

theorem eval_bvSignExtend {n : ℕ} (ha : a.sort = .bitvec w) :
    (app (.bvSignExtend n) [a]).eval ρ = ofBV ((bits w a ρ).signExtend (w + n)) := by
  obtain ⟨x, hx⟩ := exists_bits ρ ha
  simp only [eval_app, List.map_cons, List.map_nil, Op.interp, bits, hx]
  rfl

theorem eval_bvUn {f : BvUn} (ha : a.sort = .bitvec w) :
    (app (.bvUn f) [a]).eval ρ = ofBV (f.denote (bits w a ρ)) := by
  obtain ⟨x, hx⟩ := exists_bits ρ ha
  simp only [eval_app, List.map_cons, List.map_nil, Op.interp, bits, hx]
  rfl

theorem eval_bv2Int (ha : a.sort = .bitvec w) :
    (app .bv2Int [a]).eval ρ = ofInt (bits w a ρ).toNat := by
  obtain ⟨x, hx⟩ := exists_bits ρ ha
  simp only [eval_app, List.map_cons, List.map_nil, Op.interp, bits, hx]
  rfl

/-- Reading a constant array. -/
theorem eval_select_constArray (i : SmtSort) :
    (select (app (.constArray i) [a]) b).eval ρ = a.eval ρ := by
  simp only [eval_app, List.map_cons, List.map_nil, Op.interp, selectVal]

theorem storeVal_mk {i e : SmtSort} (f : T.Dom i → T.Dom e) (v x : T.Val) :
    storeVal ⟨.array i e, f⟩ v x =
      ⟨.array i e, fun k : T.Dom i => open Classical in if k = v.as i then x.as e else f k⟩ := rfl

theorem selectVal_mk {i e : SmtSort} (f : T.Dom i → T.Dom e) (v : T.Val) :
    selectVal ⟨.array i e, f⟩ v = ⟨e, f (v.as i)⟩ := rfl

private theorem exists_array {v : T.Val} {i e : SmtSort} (h : v.1 = .array i e) :
    ∃ f : T.Dom i → T.Dom e, v = ⟨.array i e, f⟩ := ⟨v.as (.array i e), (mk_as h).symm⟩

/-- Reading the index that was written. -/
theorem eval_select_store_eq {i e : SmtSort} {v : Expr} (ha : a.sort = .array i e)
    (hv : v.sort = e) (h : b.eval ρ = c.eval ρ) :
    (select (store a b v) c).eval ρ = v.eval ρ := by
  obtain ⟨f, hf⟩ := exists_array ((eval_sort a ρ).trans ha)
  simp only [eval_app, List.map_cons, List.map_nil, Op.interp, hf, storeVal_mk, selectVal_mk, h,
    if_true]
  exact mk_as (by rw [eval_sort, hv])

/-- Reading another index than the one written. -/
theorem eval_select_store_ne {i e : SmtSort} {v : Expr} (ha : a.sort = .array i e)
    (hb : b.sort = i) (hc : c.sort = i) (h : b.eval ρ ≠ c.eval ρ) :
    (select (store a b v) c).eval ρ = (select a c).eval ρ := by
  obtain ⟨f, hf⟩ := exists_array ((eval_sort a ρ).trans ha)
  have hne : (c.eval ρ).as i ≠ (b.eval ρ).as i := fun heq =>
    h (eq_of_as_eq (by rw [eval_sort, hb]) (by rw [eval_sort, hc]) heq.symm)
  simp only [eval_app, List.map_cons, List.map_nil, Op.interp, hf, storeVal_mk, selectVal_mk, hne,
    if_false]

/-- Two arrays with the same elements are one array. -/
theorem array_ext {v v' : T.Val} {i e : SmtSort} (hv : v.1 = .array i e) (hv' : v'.1 = .array i e)
    (h : ∀ k : T.Dom i, selectVal v ⟨i, k⟩ = selectVal v' ⟨i, k⟩) : v = v' := by
  obtain ⟨f, rfl⟩ := exists_array hv
  obtain ⟨f', rfl⟩ := exists_array hv'
  refine Sigma.ext rfl (heq_of_eq (funext fun k => ?_))
  have hk := h k
  simp only [selectVal_mk, as_mk] at hk
  exact eq_of_heq (Sigma.mk.inj hk).2

open Classical in
theorem selectVal_storeVal {a v x : T.Val} {i e : SmtSort} (ha : a.1 = .array i e) (hx : x.1 = e)
    (k : T.Dom i) :
    selectVal (storeVal a v x) ⟨i, k⟩ = if k = v.as i then x else selectVal a ⟨i, k⟩ := by
  obtain ⟨f, rfl⟩ := exists_array ha
  simp only [storeVal_mk, selectVal_mk, as_mk]
  split
  · exact mk_as hx
  · rfl

theorem eval_store (a i v : Expr) (ρ : T.Env) :
    (store a i v).eval ρ = storeVal (a.eval ρ) (i.eval ρ) (v.eval ρ) := by
  simp only [eval_app, List.map_cons, List.map_nil, Op.interp]

theorem eval_select (a i : Expr) (ρ : T.Env) :
    (select a i).eval ρ = selectVal (a.eval ρ) (i.eval ρ) := by
  simp only [eval_app, List.map_cons, List.map_nil, Op.interp]

/-- Writing what is there already changes nothing. -/
theorem eval_store_select {i e : SmtSort} {v : Expr} (ha : a.sort = .array i e) (hv : v.sort = e)
    (hb : b.sort = i) (h : v.eval ρ = (select a b).eval ρ) :
    (store a b v).eval ρ = a.eval ρ := by
  have hav : (a.eval ρ).1 = .array i e := by rw [eval_sort, ha]
  rw [eval_store]
  refine array_ext (by rw [fst_storeVal, hav]) hav fun k => ?_
  rw [selectVal_storeVal hav (by rw [eval_sort, hv])]
  split_ifs with hk
  · rw [h, eval_select, hk, mk_as (by rw [eval_sort, hb])]
  · rfl

/-- Writing into a constant array changes it exactly when another value is written. -/
theorem eval_constArray_eq_store {i : SmtSort} {v : Expr} (hb : b.sort = i)
    (hv : v.sort = a.sort) :
    (app (.constArray i) [a]).eval ρ = (store (app (.constArray i) [a]) b v).eval ρ ↔
      a.eval ρ = v.eval ρ := by
  have hs : (app (.constArray i) [a]).sort = .array i a.sort := by simp [Op.resultSort]
  constructor
  · intro h
    have hread := congrArg (selectVal · (b.eval ρ)) h
    simp only [← eval_select] at hread
    rwa [eval_select_constArray, eval_select_store_eq hs hv rfl] at hread
  · intro h
    exact (eval_store_select hs hv hb (by rw [eval_select_constArray, h])).symm

/-- A later write to the same index replaces an earlier one. -/
theorem eval_store_store {i e : SmtSort} {x v : Expr} (ha : a.sort = .array i e)
    (hx : x.sort = e) (hv : v.sort = e) :
    (store (store a b x) b v).eval ρ = (store a b v).eval ρ := by
  have hav : (a.eval ρ).1 = .array i e := by rw [eval_sort, ha]
  have hxv : (x.eval ρ).1 = e := by rw [eval_sort, hx]
  have hvv : (v.eval ρ).1 = e := by rw [eval_sort, hv]
  simp only [eval_store]
  have hstore : ∀ y z : T.Val, (storeVal (a.eval ρ) y z).1 = .array i e := fun y z => by
    rw [fst_storeVal, hav]
  refine array_ext (by rw [fst_storeVal, hstore]) (hstore _ _) fun k => ?_
  rw [selectVal_storeVal (hstore _ _) hvv, selectVal_storeVal hav hvv,
    selectVal_storeVal hav hxv]
  split_ifs <;> rfl

end Operators

/-! ### Datatype constructors -/

section Datatypes

variable {ρ : T.Env}

/-- The constructor a well-sorted constructor application applies. -/
theorem constructor_of_wellSorted {dt c : String} {s : SmtSort} {args : List Expr}
    (h : (datatypeConstructor dt c args s).WellSorted) :
    ∃ n cs d, s = .datatype n cs ∧ cs.find? (·.name == c) = some d ∧
      args.map sort = d.fields.map SmtField.sort := by
  have hacc := (wellSorted_app.1 h).1
  simp only [Op.accepts, Option.any_eq_true, beq_iff_eq] at hacc
  obtain ⟨d, hd, hsorts⟩ := hacc
  cases hc : s.constructors with
  | none => simp [hc] at hd
  | some cs =>
    obtain ⟨n, rfl⟩ := SmtSort.constructors_eq_some.1 hc
    exact ⟨n, cs, d, rfl, by simpa [hc] using hd, hsorts⟩

/-- What a well-sorted constructor application was built from. -/
theorem destructVal_constructor {dt c n : String} {cs : List SmtConstructor} {d : SmtConstructor}
    {args : List Expr} (hd : cs.find? (·.name == c) = some d)
    (hsorts : args.map sort = d.fields.map SmtField.sort) :
    destructVal ((datatypeConstructor dt c args (.datatype n cs)).eval ρ) =
      some (d, args.map (·.eval ρ)) := by
  have hvals : (args.map (·.eval ρ)).map (·.1) = d.fields.map SmtField.sort := by
    rw [← hsorts, List.map_map]
    exact List.map_congr_left fun a _ => eval_sort a ρ
  simp only [eval_app, Op.interp, buildVal, Option.getD_some, destructVal]
  exact destruct_buildConstructor hd hvals

theorem holds_isConstructor_constructor {dt dt' c c' : String} {s : SmtSort} {args : List Expr}
    (h : (datatypeConstructor dt c args s).WellSorted) :
    Holds ρ (isConstructor (datatypeConstructor dt c args s) dt' c') ↔ c = c' := by
  obtain ⟨n, cs, d, rfl, hd, hsorts⟩ := constructor_of_wellSorted h
  have hname : d.name = c := by simpa using List.find?_some hd
  rw [holds_isConstructor, constructorOf, destructVal_constructor hd hsorts]
  simp [hname]

/-- Every field a well-sorted selector can read has the selector's sort. -/
theorem sort_of_selectedField {dt sel : String} {s : SmtSort} {e : Expr} {n : String}
    {cs : List SmtConstructor} {c : SmtConstructor} {f : SmtField}
    (h : (fieldSelect e dt sel s).WellSorted) (hs : e.sort = .datatype n cs)
    (hc : c ∈ cs) (hf : f ∈ c.fields) (hname : f.name = sel) : f.sort = s := by
  have hacc := (wellSorted_app.1 h).1
  simp only [List.map_cons, List.map_nil, Op.accepts, hs, SmtSort.constructors, Option.getD_some,
    Bool.and_eq_true, List.all_eq_true, Bool.or_eq_true, bne_iff_ne, beq_iff_eq] at hacc
  exact (hacc.2 c hc f hf).resolve_left fun hne => hne hname

/-- The argument a selector reads off a constructor application has the selector's sort. -/
theorem sort_of_selectedArg {dt dt' c sel n : String} {cs : List SmtConstructor}
    {d : SmtConstructor} {args : List Expr} {s : SmtSort} {i : ℕ} {a : Expr}
    (h : (fieldSelect (datatypeConstructor dt c args (.datatype n cs)) dt' sel s).WellSorted)
    (hd : cs.find? (·.name == c) = some d) (hsorts : args.map sort = d.fields.map SmtField.sort)
    (hi : d.fields.findIdx? (·.name == sel) = some i) (ha : args[i]? = some a) : a.sort = s := by
  obtain ⟨hlt, hname, -⟩ := List.findIdx?_eq_some_iff_getElem.1 hi
  have hfield : a.sort = (d.fields[i]).sort := by
    have := congrArg (fun l => l[i]?) hsorts
    simpa [ha, hlt] using this
  have hdt : (datatypeConstructor dt c args (.datatype n cs)).sort = .datatype n cs := by
    simp [Op.resultSort]
  rw [hfield]
  exact sort_of_selectedField h hdt (List.mem_of_find?_eq_some hd) (List.getElem_mem hlt)
    (by simpa using hname)

/-- Selecting a field of a constructor application. -/
theorem eval_fieldSelect_constructor {dt dt' c sel n : String} {cs : List SmtConstructor}
    {d : SmtConstructor} {args : List Expr} {s : SmtSort} {i : ℕ} {a : Expr}
    (hd : cs.find? (·.name == c) = some d) (hsorts : args.map sort = d.fields.map SmtField.sort)
    (hi : d.fields.findIdx? (·.name == sel) = some i) (ha : args[i]? = some a) (hs : a.sort = s) :
    (fieldSelect (datatypeConstructor dt c args (.datatype n cs)) dt' sel s).eval ρ =
      a.eval ρ := by
  rw [eval_app]
  simp only [List.map_cons, List.map_nil, Op.interp, selectField,
    destructVal_constructor hd hsorts, Option.bind_some, hi, List.getElem?_map, ha,
    Option.map_some, Option.getD_some]
  exact mk_as (by rw [eval_sort, hs])

end Datatypes

end Expr

end TrustMc
