import TrustMc.Smt.Rewrite

/-!
# Constant evaluation in constant propagation

Constant propagation over a verification condition evaluates closed terms: `tryEvalToBool`
and `tryEvalToConst` fold Boolean structure, comparisons and bit-vector arithmetic on
constants, and `evalSelectStoreConst` reads an array through the stores on top of it.

* Constants are compared structurally. On scalars that is equality of values; on arrays it
  is not (two chains of stores can denote one array), so two indices that are different
  *constant arrays* need not differ.
* The positional selector `fld_N` of a constructor application is folded to its `N`-th
  argument, whatever the field at that position is called.

A term in which neither happens is `Regular`; on such terms every fold keeps the meaning.
-/

namespace TrustMc

namespace ConstProp

/-! ### Constants -/

/-- `is_scalar_constant`. -/
def isScalarConstant : Expr → Bool
  | .app (.boolConst _) _ | .app (.bitVecConst _ _) _ | .app (.intConst _) _
  | .app (.realConst _) _ => true
  | _ => false

/-- `is_constant`. -/
def isConstant : Expr → Bool
  | .app (.constArray _) [v] => isConstant v
  | .app .store [a, i, v] => isConstant a && isConstant i && isConstant v
  | e => isScalarConstant e

/-! ### Bit-vector operations -/

/-- `Expr::bitvec_const` of a `BigInt`, which is taken modulo `2 ^ width`. -/
def bitvecConst (value : ℤ) (width : ℕ) : Expr := .bitVecConst (BitVec.ofInt width value)

/-- `bitvec_to_signed`. -/
def bitvecToSigned (value width : ℕ) : ℤ :=
  if 2 ^ (width - 1) ≤ value then value - 2 ^ width else value

/-- `signed_trunc_div`. -/
def signedTruncDiv (dividend divisor : ℤ) : ℤ :=
  let quotient : ℤ := dividend.natAbs / divisor.natAbs
  if (dividend < 0) ≠ (divisor < 0) then -quotient else quotient

/-- `signed_ashr`. -/
def signedAshr (value : ℤ) (shift width : ℕ) : ℤ :=
  if width ≤ shift then (if value < 0 then -1 else 0)
  else if 0 ≤ value then value / 2 ^ shift
  else -((-value + 2 ^ shift - 1) / 2 ^ shift)

/-- The shift amount: an amount that does not fit `u64` is read as the width. -/
def shiftAmount (vb wa : ℕ) : ℕ := min vb wa

/-- The arithmetic arms of `eval_bv_binary_const`. -/
def foldBvBin (va vb wa wb : ℕ) : BvBin → Option ℤ
  | .add => some (va + vb)
  | .sub => some (va - vb)
  | .mul => some (va * vb)
  | .urem => if vb ≠ 0 then some ((va % vb : ℕ) : ℤ) else none
  | .udiv => if vb ≠ 0 then some ((va / vb : ℕ) : ℤ) else none
  | .sdiv =>
    if vb ≠ 0 then some (signedTruncDiv (bitvecToSigned va wa) (bitvecToSigned vb wb)) else none
  | .srem =>
    if vb ≠ 0 then
      let a := bitvecToSigned va wa
      let b := bitvecToSigned vb wb
      some (a - signedTruncDiv a b * b)
    else none
  | .and => some ((va &&& vb : ℕ) : ℤ)
  | .or => some ((va ||| vb : ℕ) : ℤ)
  | .xor => some ((va ^^^ vb : ℕ) : ℤ)
  | .shl =>
    let shift := shiftAmount vb wa
    some (if wa ≤ shift then 0 else ((va <<< shift : ℕ) : ℤ))
  | .lshr =>
    let shift := shiftAmount vb wa
    some (if wa ≤ shift then 0 else ((va >>> shift : ℕ) : ℤ))
  | .ashr => some (signedAshr (bitvecToSigned va wa) (shiftAmount vb wa) wa)

/-- The comparison arms of `eval_bv_binary_const`. -/
def foldBvCmp (va vb wa wb : ℕ) : BvCmp → Bool
  | .ult => va < vb
  | .ule => va ≤ vb
  | .ugt => vb < va
  | .uge => vb ≤ va
  | .slt => bitvecToSigned va wa < bitvecToSigned vb wb
  | .sle => bitvecToSigned va wa ≤ bitvecToSigned vb wb
  | .sgt => bitvecToSigned vb wb < bitvecToSigned va wa
  | .sge => bitvecToSigned vb wb ≤ bitvecToSigned va wa

/-- `eval_bv_binary_const`. -/
def evalBvBinaryConst (op : Op) (a b : Expr) : Option Expr :=
  match a, b with
  | .app (.bitVecConst wa x) _, .app (.bitVecConst wb y) _ =>
    match op with
    | .bvBin f => (foldBvBin x.toNat y.toNat wa wb f).map (bitvecConst · wa)
    | .bvCmp f => some (.boolConst (foldBvCmp x.toNat y.toNat wa wb f))
    | .bvConcat => some (bitvecConst (x.toNat <<< wb ||| y.toNat : ℕ) (wa + wb))
    | .bvCheck .addNoOverflowUnsigned => some (.boolConst (x.toNat + y.toNat < 2 ^ wa))
    | .bvCheck .subNoUnderflowUnsigned => some (.boolConst (y.toNat ≤ x.toNat))
    | _ => none
  | _, _ => none

/-- `eval_select_store_const`. -/
def evalSelectStoreConst : Expr → Expr → Option Expr
  | .app .store [innerArr, storeIdx, storeVal], selIndex =>
    if selIndex = storeIdx then some storeVal
    else if isConstant selIndex && isConstant storeIdx then evalSelectStoreConst innerArr selIndex
    else none
  | _, _ => none

/-! ### Positional selectors -/

/-- `str::strip_prefix`, on characters. -/
def stripPrefix (p s : List Char) : Option (List Char) :=
  if p.isPrefixOf s then some (s.drop p.length) else none

/-- `str::parse::<usize>`: an optional plus sign and decimal digits below `2 ^ 64`. -/
def parseUsize (s : List Char) : Option ℕ :=
  let digits := (stripPrefix ['+'] s).getD s
  if digits.isEmpty || !digits.all Char.isDigit then none
  else
    let n := digits.foldl (fun n c => 10 * n + (c.toNat - '0'.toNat)) 0
    if n < 2 ^ 64 then some n else none

/-- The position a `fld_N` selector reads. -/
def fieldIndex (selectorName : String) : Option ℕ :=
  (stripPrefix "fld_".toList selectorName.toList).bind parseUsize

/-! ### Evaluation

The two evaluators call each other on subterms; `toBool` and `toConst` are these calls. -/

section Step

variable (toBool : Expr → Option Bool) (toConst : Expr → Option Expr)

/-- The loops over the children of a conjunction and a disjunction: the first child that
evaluates to `stop` decides, and `allOther` says that every child so far did the opposite. -/
def tryEvalChildren (stop : Bool) : List Expr → Bool → Option Bool
  | [], allOther => if allOther then some !stop else none
  | child :: rest, allOther =>
    match toBool child with
    | some b => if b = stop then some stop else tryEvalChildren stop rest allOther
    | none => tryEvalChildren stop rest false

/-- `eval_const_array_store_eq_ordered`. -/
def evalConstArrayStoreEqOrdered (constSide storeSide : Expr) : Option Bool :=
  match constSide, storeSide with
  | .app (.constArray _) [constValue],
    .app .store [.app (.constArray _) [baseValue], _, storedValue] =>
    if baseValue ≠ constValue then none
    else if storedValue = constValue then some true
    else do
      let constEval ← toConst constValue
      let storedEval ← toConst storedValue
      pure (constEval == storedEval)
  | _, _ => none

/-- `eval_const_array_store_eq`. -/
def evalConstArrayStoreEq (a b : Expr) : Option Bool :=
  (evalConstArrayStoreEqOrdered toConst a b).or (evalConstArrayStoreEqOrdered toConst b a)

/-- The `Eq` arms of `try_eval_to_bool`. -/
def tryEvalEq (a b : Expr) : Option Bool :=
  if a = b then some true
  else
    match toBool a, toBool b with
    | some lhs, some rhs => some (lhs == rhs)
    | _, _ =>
      match evalConstArrayStoreEq toConst a b with
      | some value => some value
      | none => do
        let ca ← toConst a
        let cb ← toConst b
        pure (ca == cb)

/-- The comparison arm of `try_eval_to_bool`. -/
def tryEvalComparison (op : Op) (a b : Expr) : Option Bool := do
  let ca ← toConst a
  let cb ← toConst b
  match ← evalBvBinaryConst op ca cb with
  | .app (.boolConst v) _ => some v
  | _ => none

/-- The arms of `try_eval_to_bool`. -/
def tryEvalToBoolStep : Expr → Option Bool
  | .app (.boolConst b) _ => some b
  | .app .and children => tryEvalChildren toBool false children true
  | .app .or children => tryEvalChildren toBool true children true
  | .app .not [inner] => (toBool inner).map (!·)
  | .app .eq [a, b] => tryEvalEq toBool toConst a b
  | .app (.bvCmp f) [a, b] => tryEvalComparison toConst (.bvCmp f) a b
  | .app (.bvCheck .addNoOverflowUnsigned) [a, b] =>
    tryEvalComparison toConst (.bvCheck .addNoOverflowUnsigned) a b
  | .app (.bvCheck .subNoUnderflowUnsigned) [a, b] =>
    tryEvalComparison toConst (.bvCheck .subNoUnderflowUnsigned) a b
  | _ => none

/-- The binary arm of `try_eval_to_const`. -/
def tryEvalBinary (op : Op) (a b : Expr) : Option Expr := do
  let ca ← toConst a
  let cb ← toConst b
  evalBvBinaryConst op ca cb

/-- The unary bit-vector arms of `try_eval_to_const`: what is computed from value and width. -/
def tryEvalUnary (f : ℕ → ℕ → Option Expr) (inner : Expr) : Option Expr := do
  match ← toConst inner with
  | .app (.bitVecConst width x) _ => f x.toNat width
  | _ => none

/-- The `BvExtract` arm of `try_eval_to_const`. -/
def foldExtract (high low value width : ℕ) : Option Expr :=
  if low ≤ high ∧ high < width then
    some (bitvecConst ((value >>> low &&& (2 ^ (high - low + 1) - 1) : ℕ) : ℤ) (high - low + 1))
  else none

/-- The `DatatypeSelector` arm of `try_eval_to_const`. -/
def tryEvalSelector (datatypeName selectorName : String) : Expr → Option Expr
  | .app (.datatypeConstructor ctorDt _ _) args =>
    if ctorDt ≠ datatypeName then none
    else do
      let idx ← fieldIndex selectorName
      toConst (← args[idx]?)
  | _ => none

/-- The arms of `try_eval_to_const`; Boolean structure goes to the Boolean evaluator. -/
def tryEvalToConstStep : Expr → Option Expr
  | .app (.bitVecConst w x) args => some (.app (.bitVecConst w x) args)
  | .app (.boolConst b) args => some (.app (.boolConst b) args)
  | .app (.bvBin f) [a, b] => tryEvalBinary toConst (.bvBin f) a b
  | .app .bvConcat [a, b] => tryEvalBinary toConst .bvConcat a b
  | .app (.bvExtract high low) [inner] => tryEvalUnary toConst (foldExtract high low) inner
  | .app (.bvZeroExtend extraBits) [inner] =>
    tryEvalUnary toConst (fun value width => some (bitvecConst value (width + extraBits))) inner
  | .app (.bvSignExtend extraBits) [inner] =>
    tryEvalUnary toConst
      (fun value width => some (bitvecConst (bitvecToSigned value width) (width + extraBits))) inner
  | .app (.bvUn .not) [inner] =>
    tryEvalUnary toConst
      (fun value width => some (bitvecConst ((value ^^^ (2 ^ width - 1) : ℕ) : ℤ) width)) inner
  | .app (.bvUn .neg) [inner] =>
    tryEvalUnary toConst
      (fun value width =>
        some (bitvecConst (((2 ^ width : ℕ) - value : ℤ) % (2 ^ width : ℕ)) width)) inner
  | .app .ite [cond, thenExpr, elseExpr] => do
    if ← toBool cond then toConst thenExpr else toConst elseExpr
  | .app (.datatypeSelector datatypeName selectorName _) [inner] =>
    tryEvalSelector toConst datatypeName selectorName inner
  | e => (tryEvalToBoolStep toBool toConst e).map .boolConst

end Step

mutual

/-- `try_eval_to_bool`, to a nesting depth. -/
def tryEvalToBoolAt : ℕ → Expr → Option Bool
  | 0, _ => none
  | n + 1, e => tryEvalToBoolStep (tryEvalToBoolAt n) (tryEvalToConstAt n) e

/-- `try_eval_to_const`, to a nesting depth. -/
def tryEvalToConstAt : ℕ → Expr → Option Expr
  | 0, _ => none
  | n + 1, e => tryEvalToConstStep (tryEvalToBoolAt n) (tryEvalToConstAt n) e

end

/-- `try_eval_to_bool`. -/
def tryEvalToBool (e : Expr) : Option Bool := tryEvalToBoolAt e.depth e

/-- `try_eval_to_const`. -/
def tryEvalToConst (e : Expr) : Option Expr := tryEvalToConstAt e.depth e

/-! ### The recursion

A term is evaluated through its proper subterms, so its nesting depth is depth enough, and
the evaluators satisfy the recursion they are written as. -/

section Depth

variable {f f' : Expr → Option Bool} {g g' : Expr → Option Expr}

theorem tryEvalChildren_congr {stop : Bool} {es : List Expr} {allOther : Bool}
    (hf : ∀ a ∈ es, f a = f' a) :
    tryEvalChildren f stop es allOther = tryEvalChildren f' stop es allOther := by
  induction es generalizing allOther with
  | nil => rfl
  | cons a es ih =>
    have hes : ∀ a ∈ es, f a = f' a := fun a ha => hf a (List.mem_cons_of_mem _ ha)
    simp only [tryEvalChildren, hf a List.mem_cons_self, ih hes]

theorem evalConstArrayStoreEqOrdered_congr {a b : Expr} {k : ℕ}
    (ha : a.depth < k) (hb : b.depth < k) (hg : ∀ a, a.depth < k → g a = g' a) :
    evalConstArrayStoreEqOrdered g a b = evalConstArrayStoreEqOrdered g' a b := by
  unfold evalConstArrayStoreEqOrdered
  split
  · rename_i s constValue s' baseValue i storedValue
    have hc : g constValue = g' constValue := hg _ ((Expr.depth_lt_app (by simp)).trans ha)
    have hs : g storedValue = g' storedValue := hg _ ((Expr.depth_lt_app (by simp)).trans hb)
    rw [hc, hs]
  · rfl

/-- One level of evaluation only asks for the values of proper subterms. -/
theorem tryEvalToBoolStep_congr {e : Expr} (hf : ∀ a, a.depth < e.depth → f a = f' a)
    (hg : ∀ a, a.depth < e.depth → g a = g' a) :
    tryEvalToBoolStep f g e = tryEvalToBoolStep f' g' e := by
  unfold tryEvalToBoolStep
  split
  · rfl
  · exact tryEvalChildren_congr fun a ha => hf a (Expr.depth_lt_app ha)
  · exact tryEvalChildren_congr fun a ha => hf a (Expr.depth_lt_app ha)
  · rw [hf _ (Expr.depth_lt_app (by simp))]
  · rename_i a b
    have ha : a.depth < (a.eq b).depth := Expr.depth_lt_app (by simp)
    have hb : b.depth < (a.eq b).depth := Expr.depth_lt_app (by simp)
    simp only [tryEvalEq, evalConstArrayStoreEq, hf a ha, hf b hb, hg a ha, hg b hb,
      evalConstArrayStoreEqOrdered_congr ha hb hg, evalConstArrayStoreEqOrdered_congr hb ha hg]
  all_goals first
    | rfl
    | rename_i a b
      simp only [tryEvalComparison, hg a (Expr.depth_lt_app (by simp)),
        hg b (Expr.depth_lt_app (by simp))]

theorem tryEvalSelector_congr {datatypeName selectorName : String} {inner : Expr}
    (hg : ∀ a, a.depth < inner.depth → g a = g' a) :
    tryEvalSelector g datatypeName selectorName inner =
      tryEvalSelector g' datatypeName selectorName inner := by
  unfold tryEvalSelector
  split
  · rename_i ctorDt ctor s args
    split
    · rfl
    · cases fieldIndex selectorName with
      | none => rfl
      | some i =>
        cases harg : args[i]? with
        | none => simp [harg]
        | some a =>
          simpa [harg] using hg a (Expr.depth_lt_app (List.mem_of_getElem? harg))
  · rfl

theorem tryEvalToConstStep_congr {e : Expr} (hf : ∀ a, a.depth < e.depth → f a = f' a)
    (hg : ∀ a, a.depth < e.depth → g a = g' a) :
    tryEvalToConstStep f g e = tryEvalToConstStep f' g' e := by
  have hunary : ∀ {op : Op} {h : ℕ → ℕ → Option Expr} {a : Expr}, e = .app op [a] →
      tryEvalUnary g h a = tryEvalUnary g' h a := by
    rintro op h a rfl
    simp only [tryEvalUnary, hg a (Expr.depth_lt_app (by simp))]
  have hbinary : ∀ {op : Op} {a b : Expr}, e = .app op [a, b] →
      tryEvalBinary g op a b = tryEvalBinary g' op a b := by
    rintro op a b rfl
    simp only [tryEvalBinary, hg a (Expr.depth_lt_app (by simp)),
      hg b (Expr.depth_lt_app (by simp))]
  unfold tryEvalToConstStep
  split
  · rfl
  · rfl
  · exact hbinary rfl
  · exact hbinary rfl
  · exact hunary rfl
  · exact hunary rfl
  · exact hunary rfl
  · exact hunary rfl
  · exact hunary rfl
  · rename_i cond thenExpr elseExpr
    simp only [hf cond (Expr.depth_lt_app (by simp)), hg thenExpr (Expr.depth_lt_app (by simp)),
      hg elseExpr (Expr.depth_lt_app (by simp))]
  · exact tryEvalSelector_congr fun a ha => hg a (ha.trans (Expr.depth_lt_app (by simp)))
  · rw [tryEvalToBoolStep_congr hf hg]

end Depth

/-- Nesting deeper than the term changes nothing. -/
theorem tryEvalAt_of_depth_le {n : ℕ} {e : Expr} (h : e.depth ≤ n) :
    tryEvalToBoolAt n e = tryEvalToBool e ∧ tryEvalToConstAt n e = tryEvalToConst e := by
  suffices key : ∀ m n : ℕ, ∀ e : Expr, e.depth ≤ m → e.depth ≤ n →
      tryEvalToBoolAt n e = tryEvalToBoolAt m e ∧ tryEvalToConstAt n e = tryEvalToConstAt m e from
    key _ n e le_rfl h
  intro m
  induction m with
  | zero =>
    intro n e hm
    exact absurd hm (by cases e <;> simp [Expr.depth])
  | succ m ih =>
    intro n e hm hn
    cases n with
    | zero => exact absurd hn (by cases e <;> simp [Expr.depth])
    | succ n =>
      have hrec : ∀ a : Expr, a.depth < e.depth →
          tryEvalToBoolAt n a = tryEvalToBoolAt m a ∧ tryEvalToConstAt n a = tryEvalToConstAt m a :=
        fun a ha => ih n a (by omega) (by omega)
      exact ⟨tryEvalToBoolStep_congr (fun a ha => (hrec a ha).1) fun a ha => (hrec a ha).2,
        tryEvalToConstStep_congr (fun a ha => (hrec a ha).1) fun a ha => (hrec a ha).2⟩

theorem tryEvalToBool_eq (e : Expr) :
    tryEvalToBool e = tryEvalToBoolStep tryEvalToBool tryEvalToConst e := by
  rw [← (tryEvalAt_of_depth_le (Nat.le_succ e.depth)).1, tryEvalToBoolAt]
  exact tryEvalToBoolStep_congr (fun a ha => (tryEvalAt_of_depth_le ha.le).1)
    fun a ha => (tryEvalAt_of_depth_le ha.le).2

theorem tryEvalToConst_eq (e : Expr) :
    tryEvalToConst e = tryEvalToConstStep tryEvalToBool tryEvalToConst e := by
  rw [← (tryEvalAt_of_depth_le (Nat.le_succ e.depth)).2, tryEvalToConstAt]
  exact tryEvalToConstStep_congr (fun a ha => (tryEvalAt_of_depth_le ha.le).1)
    fun a ha => (tryEvalAt_of_depth_le ha.le).2

/-- `is_trivially_false`. -/
def isTriviallyFalse (e : Expr) : Bool := tryEvalToBool e == some false

/-- `is_trivially_true`. -/
def isTriviallyTrue (e : Expr) : Bool := tryEvalToBool e == some true

end ConstProp

end TrustMc
