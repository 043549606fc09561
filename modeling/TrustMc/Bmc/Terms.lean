import TrustMc.Bmc.Names
import TrustMc.Arithmetic.UbChecks
import TrustMc.Smt.Extend

/-!
# Terms of the bounded encoding

The terms of constants, casts, operators and overflow conditions, on operands that are terms
already, and what they evaluate to. A Boolean is a formula and an integer a bit-vector of its
width.

* `castTerm`, `codegenBinopTyped`, `codegenUnop`, `overflowCheck`: the terms.
* `eval_castTerm`, `eval_codegenBinopTyped`, `eval_codegenUnop`, `holds_overflowCheck`: on terms
  that stand for values, they stand for the value of the operation, and the condition holds
  where the exact result is in range.

Integers of SMT, which stand for big integers, and datatypes are left out.
-/

namespace TrustMc.Bmc

open Machine Arithmetic Carriers Carriers.Val TrustMc.Expr

/-! ### Definitions -/

def ScalarTy.sort : ScalarTy → SmtSort
  | bool => .bool
  | int t => .bitvec t.width

/-- `ty_signedness`. -/
def ScalarTy.signed : ScalarTy → Bool
  | bool => false
  | int t => t.signed

/-- `codegen_constant`. -/
def Scalar.toExpr : Scalar → Expr
  | bool b => .boolConst b
  | int _ v => .bitVecConst v

/-- `a.ne(b)`. -/
def ne (a b : Expr) : Expr := .not (.eq a b)

/-- The cases of `codegen_cast` on the two sorts. -/
def castTerm (e : Expr) (srcSigned : Bool) (target : SmtSort) : Expr :=
  match e.sort, target with
  | .bool, .bitvec w =>
    let bv1 : Expr := .ite e (.bitVecConst 1#1) (.bitVecConst 0#1)
    if w = 1 then bv1 else .app (.bvZeroExtend (w - 1)) [bv1]
  | .bitvec w, .bool => ne e (.bitVecConst 0#w)
  | .bitvec _, .bitvec w => coerceBitvecWidthSafe e w (.forSignedness srcSigned)
  | _, _ => e

/-- `codegen_binop_typed`. -/
def codegenBinopTyped (op : BinOp) (lhs rhs : Expr) (signed : Bool) : Expr :=
  let (l, r) := coerceToMaxWidth lhs rhs signed
  match op with
  | .add | .addUnchecked => .bv .add l r
  | .sub | .subUnchecked => .bv .sub l r
  | .mul | .mulUnchecked => .bv .mul l r
  | .div => .bv (if signed then .sdiv else .udiv) l r
  | .rem => .bv (if signed then .srem else .urem) l r
  | .bitXor => if lhs.sort.isBool then .app .xor [lhs, rhs] else .bv .xor l r
  | .bitAnd => if lhs.sort.isBool then .and [lhs, rhs] else .bv .and l r
  | .bitOr => if lhs.sort.isBool then .or [lhs, rhs] else .bv .or l r
  | .shl | .shlUnchecked =>
    if lhs.sort.isBitvec then .bv .shl lhs (coerceShiftAmount rhs lhs.sort.width) else lhs
  | .shr | .shrUnchecked =>
    if lhs.sort.isBitvec then
      .bv (if signed then .ashr else .lshr) lhs (coerceShiftAmount rhs lhs.sort.width)
    else lhs
  | .eq => .eq l r
  | .ne => ne l r
  | .lt => .bvCmp (if signed then .slt else .ult) l r
  | .le => .bvCmp (if signed then .sle else .ule) l r
  | .gt => .bvCmp (if signed then .sgt else .ugt) l r
  | .ge => .bvCmp (if signed then .sge else .uge) l r
  | .cmp => orderingTerm (.bvCmp (if signed then .slt else .ult) l r) (.eq l r)
  | .offset => .bv .add lhs rhs

/-- `codegen_unop`; the metadata of a pointer does not get here. -/
def codegenUnop (op : UnOp) (e : Expr) : Expr :=
  match op with
  | .not => if e.sort.isBool then .not e else .app (.bvUn .not) [e]
  | .neg => .app (.bvUn .neg) [e]
  | .ptrMetadata => e

/-- `overflow_check`: the condition that nothing overflows. -/
def overflowCheck (op : BinOp) (lhs rhs : Expr) (signed : Bool) : Option (Expr × Label) :=
  let (l, r) := coerceToMaxWidth lhs rhs signed
  match op, signed with
  | .add, true | .addUnchecked, true =>
    some (.app (.bvCheck .addNoOverflowSigned) [l, r], .overflowCheckAdd)
  | .add, false | .addUnchecked, false =>
    some (.app (.bvCheck .addNoOverflowUnsigned) [l, r], .overflowCheckAdd)
  | .sub, true | .subUnchecked, true =>
    some (.app (.bvCheck .subNoOverflowSigned) [l, r], .overflowCheckSub)
  | .sub, false | .subUnchecked, false =>
    some (.app (.bvCheck .subNoUnderflowUnsigned) [l, r], .overflowCheckSub)
  | .mul, true | .mulUnchecked, true =>
    some (.app (.bvCheck .mulNoOverflowSigned) [l, r], .overflowCheckMul)
  | .mul, false | .mulUnchecked, false =>
    some (.app (.bvCheck .mulNoOverflowUnsigned) [l, r], .overflowCheckMul)
  | .div, true | .rem, true => do
    let width ← l.sort.bitvecWidth
    let intMin : Expr := .bitVecConst (BitVec.ofNat width (2 ^ (width - 1)))
    let negOne : Expr := .bitVecConst (BitVec.ofNat width (2 ^ 128 - 1))
    return (.or [.not (.eq l intMin), .not (.eq r negOne)],
      if op = .div then .overflowCheckDiv else .overflowCheckRem)
  | _, _ => none

def isDivision (op : BinOp) : Bool := op == .div || op == .rem

def isUnchecked (op : BinOp) : Bool :=
  op == .addUnchecked || op == .subUnchecked || op == .mulUnchecked

/-- The operators that are modelled, on operands of a type. -/
def opOn (op : BinOp) : ScalarTy → Bool
  | .bool => op ∈ [.bitAnd, .bitOr, .bitXor, .eq, .ne]
  | .int _ => !op.isShift && op != .cmp && op != .offset

/-- The type of the result. -/
def resultTy (op : BinOp) (t : ScalarTy) : ScalarTy :=
  if op ∈ [.eq, .ne, .lt, .le, .gt, .ge] then .bool else t

/-! ### Sorts and names -/

section Sorts

variable {l r e : Expr} {t : ScalarTy} {op : BinOp} {known : String → Prop}

theorem sort_toExpr (s : Scalar) : s.toExpr.sort = s.ty.sort := by
  cases s <;> simp [Scalar.toExpr, Scalar.ty, ScalarTy.sort, Op.resultSort]

theorem over_toExpr (s : Scalar) : s.toExpr.Over known := by
  cases s <;> simp [Scalar.toExpr]

/-- Operands of one sort stay as they are. -/
theorem coerceToMaxWidth_of_sort (h : l.sort = r.sort) (signed : Bool) :
    coerceToMaxWidth l r signed = (l, r) := by
  rw [coerceToMaxWidth, h]
  cases r.sort.bitvecWidth <;> simp

/-- A cast to its own type leaves a term as it is. -/
theorem castTerm_self (h : e.sort = t.sort) (signed : Bool) : castTerm e signed t.sort = e := by
  cases t <;> simp [castTerm, h, ScalarTy.sort, coerceBitvecWidthSafe, SmtSort.bitvecWidth]

theorem sort_castTerm {u : IntTy} (h : e.sort = t.sort) (signed : Bool) :
    (castTerm e signed (ScalarTy.int u).sort).sort = (ScalarTy.int u).sort := by
  have hw := u.width_pos
  cases t with
  | bool =>
    simp only [castTerm, h, ScalarTy.sort]
    split_ifs with hone
    · simp [Op.resultSort, hone]
    · simp only [sort_app, Op.resultSort, List.map_cons, List.map_nil, List.headD_cons,
        List.getD_cons_succ, List.getD_cons_zero, SmtSort.width_bitvec, SmtSort.bitvec.injEq]
      omega
  | int v =>
    simp only [castTerm, h, ScalarTy.sort, coerceBitvecWidthSafe, SmtSort.bitvecWidth]
    split_ifs with heq hlt
    · rw [h, ← heq]
      rfl
    · cases signed <;>
        simp [SignExtension.forSignedness, SignExtension.extend, Op.resultSort, h, ScalarTy.sort] <;>
        omega
    · simp only [sort_app, Op.resultSort, SmtSort.bitvec.injEq]
      omega

theorem over_castTerm (h : e.Over known) (signed : Bool) (s : SmtSort) :
    (castTerm e signed s).Over known := by
  unfold castTerm coerceBitvecWidthSafe
  split
  · dsimp only
    split_ifs <;> simp [h]
  · simpa [ne] using h
  · cases signed <;> split <;> split_ifs <;> simp [SignExtension.forSignedness,
      SignExtension.extend, h]
  · exact h

theorem sort_codegenBinopTyped (hl : l.sort = t.sort) (hr : r.sort = t.sort)
    (hop : opOn op t = true) :
    (codegenBinopTyped op l r t.signed).sort = (resultTy op t).sort := by
  rw [codegenBinopTyped, coerceToMaxWidth_of_sort (hl.trans hr.symm)]
  cases t with
  | bool =>
    have hbool : l.sort.isBool = true := by rw [hl]; rfl
    cases op <;> simp_all [opOn, resultTy, ScalarTy.sort, Op.resultSort, ne]
  | int t =>
    have hbool : (SmtSort.bitvec t.width).isBool = false := rfl
    cases op
    case shl | shlUnchecked | shr | shrUnchecked | cmp | offset => cases hop
    all_goals simp [resultTy, ScalarTy.sort, Op.resultSort, ne, hl, hbool]

theorem over_codegenBinopTyped (hsort : l.sort = r.sort) (hop : opOn op t = true)
    (hl : l.Over known) (hr : r.Over known) (signed : Bool) :
    (codegenBinopTyped op l r signed).Over known := by
  rw [codegenBinopTyped, coerceToMaxWidth_of_sort hsort]
  cases op
  case shl | shlUnchecked | shr | shrUnchecked | cmp | offset => cases t <;> cases hop
  case bitXor | bitAnd | bitOr =>
    dsimp only
    split_ifs <;> simp [hl, hr]
  all_goals simp [ne, hl, hr]

theorem sort_codegenUnop {uop : UnOp} (he : e.sort = t.sort) (h : uop = .neg → t ≠ .bool) :
    (codegenUnop uop e).sort = t.sort := by
  cases t with
  | bool => cases uop <;> simp_all [codegenUnop, ScalarTy.sort, Op.resultSort, SmtSort.isBool]
  | int t => cases uop <;> simp [codegenUnop, he, ScalarTy.sort, Op.resultSort, SmtSort.isBool]

theorem over_codegenUnop (uop : UnOp) (h : e.Over known) : (codegenUnop uop e).Over known := by
  cases uop <;> simp only [codegenUnop]
  · split_ifs <;> simpa using h
  · simpa using h
  · exact h

/-- What the condition of an overflow check is made of. -/
theorem overflowCheck_spec {c : Expr} {label : Label} {signed : Bool} (hsort : l.sort = r.sort)
    (h : overflowCheck op l r signed = some (c, label)) :
    c.sort = .bool ∧ (l.Over known → r.Over known → c.Over known) := by
  rw [overflowCheck, coerceToMaxWidth_of_sort hsort] at h
  cases op <;> cases signed <;> simp only [reduceCtorEq, Option.some.injEq, Prod.mk.injEq,
    Option.bind_eq_bind, Option.bind_eq_some_iff, Option.pure_def] at h
  all_goals first
    | (obtain ⟨rfl, -⟩ := h; simp +contextual [Op.resultSort])
    | (obtain ⟨w, -, rfl, -⟩ := h; simp +contextual [Op.resultSort])

end Sorts

/-! ### Values -/

/-- The value of a scalar. -/
def Scalar.toVal {T : Theory} : Scalar → T.Val
  | bool b => ofBool b
  | int _ v => ofBV v

section Values

variable {T : Theory} {ρ : T.Env} {l r e : Expr} {s a b : Scalar} {op : BinOp} {t : IntTy}
  {x y : BitVec t.width}

theorem eval_toExpr (s : Scalar) : s.toExpr.eval ρ = s.toVal := by
  cases s
  · exact eval_boolConst _
  · exact eval_bitVecConst _

theorem sort_of_toVal (h : e.eval ρ = s.toVal) : e.sort = s.ty.sort := by
  cases s
  · exact sort_of_ofBool h
  · exact sort_of_ofBV h

theorem holds_of_toVal {v : Bool} (h : e.eval ρ = (Scalar.bool v).toVal) :
    Holds ρ e ↔ v = true := holds_of_eval h

/-- The bits are those of the integer they are read as. -/
theorem eval_wrap_read (h : e.eval ρ = (Scalar.int t x).toVal) :
    e.eval ρ = ofBV (t.wrap (t.read x)) := by
  rw [IntTy.wrap_read]
  exact h

theorem eval_castTerm (h : e.eval ρ = s.toVal) (u : IntTy) :
    (castTerm e s.ty.signed (ScalarTy.int u).sort).eval ρ = (evalCast u s).toVal := by
  have hsort := sort_of_toVal h
  have hw := u.width_pos
  cases s with
  | bool v =>
    have hbit : (Expr.ite e (.bitVecConst 1#1) (.bitVecConst 0#1)).eval ρ =
        ofBV (BitVec.ofBool v) := by
      rw [eval_ite_of h (by simp [Op.resultSort])]
      cases v
      · exact eval_bitVecConst _
      · exact eval_bitVecConst _
    have hnat : (BitVec.ofBool v).toNat = (u.wrap (if v then 1 else 0)).toNat := by
      have hone : (1 : ℤ) < 2 ^ u.width := by
        exact_mod_cast Nat.one_lt_two_pow hw.ne'
      rw [← Int.natCast_inj, IntTy.toNat_wrap]
      cases v
      · simp
      · simp [Int.emod_eq_of_lt (by omega : (0 : ℤ) ≤ 1) hone]
    have hne : u.width ≠ 1 := by
      have := u.eight_le_width
      omega
    simp only [castTerm, hsort, ScalarTy.sort, Scalar.ty, evalCast, Scalar.toVal, if_neg hne]
    rw [eval_bvZeroExtend (sort_of_ofBV hbit), bits_of_ofBV hbit]
    refine ofBV_congr (by omega) ?_
    rw [BitVec.toNat_setWidth, ← hnat, Nat.mod_eq_of_lt]
    exact (BitVec.ofBool v).isLt.trans_le (Nat.pow_le_pow_right (by omega) (by omega))
  | int v x =>
    obtain ⟨d, hd, hnat⟩ :=
      eval_coerceBitvecWidthSafe_of (.forSignedness v.signed) hw (eval_wrap_read h)
    have hext : (SignExtension.forSignedness v.signed == .signExtend) = v.signed := by
      cases v.signed <;> rfl
    have hread : readAs v.signed (v.wrap (v.read x)) = v.read x := IntTy.read_wrap (v.inRange_read x)
    rw [hext, hread, ← IntTy.toNat_wrap] at hnat
    simp only [castTerm, hsort, ScalarTy.sort, Scalar.ty, ScalarTy.signed, evalCast, Scalar.toVal]
    rw [hd, BitVec.eq_of_toNat_eq (Int.natCast_inj.1 hnat)]

/-- The operators on Booleans. -/
theorem eval_codegenBinopTyped_bool {v w : Bool} {c : Scalar}
    (hl : l.eval ρ = (Scalar.bool v).toVal) (hr : r.eval ρ = (Scalar.bool w).toVal)
    (h : evalBoolOp op v w = .ok c) (signed : Bool) :
    (codegenBinopTyped op l r signed).eval ρ = c.toVal := by
  have hsl := sort_of_toVal hl
  have hbool : l.sort.isBool = true := by rw [hsl]; rfl
  rw [codegenBinopTyped, coerceToMaxWidth_of_sort (hsl.trans (sort_of_toVal hr).symm)]
  have heq : (Expr.eq l r).eval ρ = ofBool (v == w) := by
    rw [eval_eq_of hl hr]
    simp [Scalar.toVal, Bool.beq_eq_decide_eq]
  cases op <;> simp only [evalBoolOp, reduceCtorEq, Except.ok.injEq] at h <;> subst h
  case bitXor =>
    simp only [hbool, if_true, eval_app, List.map_cons, List.map_nil, hl, hr, Op.interp,
      Scalar.toVal, toBool_ofBool]
  case bitAnd =>
    simp only [hbool, if_true]
    exact eval_and_of hl hr
  case bitOr =>
    simp only [hbool, if_true]
    exact eval_or_of hl hr
  case eq => exact heq
  case ne => exact eval_not_of heq

/-- The operators on integers, where they are defined. -/
theorem eval_codegenBinopTyped_int {c : Scalar} (hl : l.eval ρ = (Scalar.int t x).toVal)
    (hr : r.eval ρ = (Scalar.int t y).toVal) (hop : opOn op (.int t) = true)
    (h : evalIntOp op t (t.read x) (t.read y) = .ok c) :
    (codegenBinopTyped op l r t.signed).eval ρ = c.toVal := by
  have hsl := sort_of_toVal hl
  have hbool : l.sort.isBool = false := by rw [hsl]; rfl
  have hwl := eval_wrap_read hl
  have hwr := eval_wrap_read hr
  have hx := t.inRange_read x
  have hy := t.inRange_read y
  rw [codegenBinopTyped, coerceToMaxWidth_of_sort (hsl.trans (sort_of_toVal hr).symm)]
  have heq : (Expr.eq l r).eval ρ = ofBool (decide (t.read x = t.read y)) := by
    rw [eval_eq_ofBV hwl hwr]
    simp only [wrap_inj hx hy]
  have hint : ∀ {f : BvBin} {z : ℤ}, f.denote (t.wrap (t.read x)) (t.wrap (t.read y)) = t.wrap z →
      (Expr.bv f l r).eval ρ = (Scalar.int t (t.wrap z)).toVal := by
    intro f z hf
    rw [eval_bv_of hwl hwr, hf]
    rfl
  have hbits : ∀ {f : BvBin}, (Expr.bv f l r).eval ρ =
      (Scalar.int t (f.denote (t.wrap (t.read x)) (t.wrap (t.read y)))).toVal :=
    eval_bv_of hwl hwr
  have hcmp : ∀ {f : BvCmp} {p : Prop} [Decidable p],
      f.denote (t.wrap (t.read x)) (t.wrap (t.read y)) = decide p →
      (Expr.bvCmp f l r).eval ρ = (Scalar.bool (decide p)).toVal := by
    intro f p _ hf
    rw [eval_bvCmp_of hwl hwr, hf]
    rfl
  unfold evalIntOp at h
  split at h
  case h_3 => cases h
  case h_4 => cases h
  case h_1 v hv =>
    cases h
    cases op <;> simp only [BinOp.mir, unchecked_eq_some, Option.ite_none_left_eq_some,
      Option.some.injEq, MirValue.int.injEq, reduceCtorEq] at hv
    case shl | shlUnchecked | shr | shrUnchecked => cases hop
    case add => exact hv ▸ hint wrap_add
    case sub => exact hv ▸ hint wrap_sub
    case mul => exact hv ▸ hint wrap_mul
    case addUnchecked => exact hv.2 ▸ hint wrap_add
    case subUnchecked => exact hv.2 ▸ hint wrap_sub
    case mulUnchecked => exact hv.2 ▸ hint wrap_mul
    case div =>
      obtain ⟨h0, -, rfl⟩ := hv
      refine hint ?_
      cases hs : t.signed with
      | true => exact smtSDiv_wrap hs hx hy h0
      | false => exact smtUDiv_wrap hs hx hy h0
    case rem =>
      obtain ⟨-, rfl⟩ := hv
      refine hint ?_
      cases hs : t.signed with
      | true => exact srem_wrap hs hx hy
      | false => exact umod_wrap hs hx hy
    all_goals
      simp only [hbool, Bool.false_eq_true, if_false]
      exact hv ▸ hbits
  case h_2 v hv =>
    cases h
    cases op <;> simp only [BinOp.mir, unchecked_eq_some, Option.ite_none_left_eq_some,
      Option.some.injEq, MirValue.bool.injEq, reduceCtorEq, and_false] at hv
    case shlUnchecked | shrUnchecked => cases hop
    all_goals subst hv
    case eq => exact heq
    case ne =>
      rw [decide_not]
      exact eval_not_of heq
    case lt => exact hcmp (denote_lt hx hy)
    case le => exact hcmp (denote_le hx hy)
    case gt => exact hcmp (denote_gt hx hy)
    case ge => exact hcmp (denote_ge hx hy)

/-- **The operators** stand for the values of the operations. -/
theorem eval_codegenBinopTyped {c : Scalar} (hl : l.eval ρ = a.toVal) (hr : r.eval ρ = b.toVal)
    (hop : opOn op a.ty = true) (h : evalBinaryOp op a b = .ok c) :
    (codegenBinopTyped op l r a.ty.signed).eval ρ = c.toVal := by
  cases a with
  | bool v =>
    cases b with
    | bool w => exact eval_codegenBinopTyped_bool hl hr h _
    | int u y => cases h
  | int t x =>
    cases b with
    | bool w => cases h
    | int u y =>
      by_cases hu : u = t
      · subst hu
        simp only [evalBinaryOp, if_true] at h
        exact eval_codegenBinopTyped_int hl hr hop h
      · simp [evalBinaryOp, hu] at h

theorem eval_codegenUnop {uop : UnOp} {c : Scalar} (he : e.eval ρ = a.toVal)
    (h : evalUnaryOp uop a = .ok c) : (codegenUnop uop e).eval ρ = c.toVal := by
  have hsort := sort_of_toVal he
  cases a with
  | bool v =>
    obtain rfl : uop = .not := by
      by_contra hne
      simp [evalUnaryOp, hne] at h
    cases h
    have hbool : e.sort.isBool = true := by rw [hsort]; rfl
    rw [codegenUnop, if_pos hbool]
    exact eval_not_of he
  | int t x =>
    have hbool : e.sort.isBool = false := by rw [hsort]; rfl
    cases uop with
    | not =>
      cases h
      simp only [codegenUnop, hbool, Bool.false_eq_true, if_false]
      exact eval_bvUn_of he
    | neg =>
      simp only [evalUnaryOp] at h
      split_ifs at h
      cases h
      rw [codegenUnop, eval_bvUn_of (eval_wrap_read he), BvUn.denote, neg_wrap]
      rfl
    | ptrMetadata => cases h

/-- The operators are defined, or undefined behaviour. -/
theorem evalIntOp_cases (hop : opOn op (.int t) = true) (m n : ℤ) :
    (∃ c, evalIntOp op t m n = .ok c) ∧ (op.mir t m n).isSome = true ∨
      evalIntOp op t m n = .error .failed ∧ ¬ (op.mir t m n).isSome = true := by
  unfold evalIntOp
  split
  case h_1 v hv => exact .inl ⟨⟨_, rfl⟩, by simp [hv]⟩
  case h_2 v hv => exact .inl ⟨⟨_, rfl⟩, by simp [hv]⟩
  case h_4 hv => exact .inr ⟨rfl, by simp [hv]⟩
  case h_3 o ho =>
    cases op <;> simp only [BinOp.mir, unchecked, Option.ite_none_left_eq_some,
      Option.ite_none_right_eq_some, Option.some.injEq, reduceCtorEq, and_false] at ho
    cases hop

/-- The condition that an operation does not overflow. -/
theorem holds_overflowCheck {c : Expr} {label : Label} {z : ℤ}
    (hl : l.eval ρ = (Scalar.int t x).toVal) (hr : r.eval ρ = (Scalar.int t y).toVal)
    (hz : exact op (t.read x) (t.read y) = some z)
    (h : overflowCheck op l r t.signed = some (c, label)) : Holds ρ c ↔ t.InRange z := by
  have hwl := eval_wrap_read hl
  have hwr := eval_wrap_read hr
  have hx := t.inRange_read x
  have hy := t.inRange_read y
  have hsl := sort_of_toVal hl
  rw [overflowCheck, coerceToMaxWidth_of_sort (hsl.trans (sort_of_toVal hr).symm)] at h
  have hcheck : ∀ {f g : BvCheck}, (if t.signed then f else g).denote
      (t.wrap (t.read x)) (t.wrap (t.read y)) = decide (t.InRange z) →
      (Holds ρ (.app (.bvCheck (if t.signed then f else g)) [l, r]) ↔ t.InRange z) := by
    intro f g hf
    rw [holds_of_eval (eval_bvCheck_of hwl hwr), hf, decide_eq_true_eq]
  have hquot : t.signed = true → z = (t.read x).tdiv (t.read y) →
      (Holds ρ (.or [.not (.eq l (.bitVecConst (BitVec.ofNat t.width (2 ^ (t.width - 1))))),
        .not (.eq r (.bitVecConst (BitVec.ofNat t.width (2 ^ 128 - 1))))]) ↔ t.InRange z) := by
    rintro hs rfl
    simp only [holds_or, List.mem_cons, List.not_mem_nil, or_false, exists_eq_or_imp,
      exists_eq_left, holds_not]
    rw [holds_of_eval (eval_eq_const hwl hx wrap_neg_half (inRange_neg_half hs)),
      holds_of_eval (eval_eq_const hwr hy wrap_neg_one_of_u128 (inRange_neg_one hs)),
      decide_eq_true_eq, decide_eq_true_eq, ← not_and_or]
    by_cases h0 : t.read y = 0
    · rw [h0, Int.tdiv_zero]
      exact iff_of_true (by simp) inRange_zero
    · rw [← tdiv_iff hs hx hy h0, not_not]
  have hadd := @denote_addNoOverflow t _ _ hx hy
  have hsub := @denote_subNoOverflow t _ _ hx hy
  have hmul := @denote_mulNoOverflow t _ _ hx hy
  cases op <;> simp only [exact, reduceCtorEq, Option.some.injEq] at hz <;> subst hz
  case add | addUnchecked =>
    rw [← hcheck hadd]
    cases hs : t.signed <;> rw [hs] at h <;> cases h <;> rfl
  case sub | subUnchecked =>
    rw [← hcheck hsub]
    cases hs : t.signed <;> rw [hs] at h <;> cases h <;> rfl
  case mul | mulUnchecked =>
    rw [← hcheck hmul]
    cases hs : t.signed <;> rw [hs] at h <;> cases h <;> rfl
  case div | rem =>
    cases hs : t.signed with
    | false =>
      rw [hs] at h
      cases h
    | true =>
      rw [hs] at h
      rw [← hquot hs rfl]
      simp only [hsl, Scalar.ty, ScalarTy.sort, SmtSort.bitvecWidth, Option.bind_eq_bind,
        Option.bind_some, Option.pure_def, Option.some.injEq, Prod.mk.injEq] at h
      rw [← h.1]

theorem holds_eq_zero (hr : r.eval ρ = (Scalar.int t y).toVal) :
    Holds ρ (.eq r (.bitVecConst 0#t.width)) ↔ t.read y = 0 := by
  rw [holds_of_eval (eval_eq_const (eval_wrap_read hr) (t.inRange_read y) wrap_zero inRange_zero),
    decide_eq_true_eq]

theorem holds_negNoOverflow (hs : t.signed = true) (he : e.eval ρ = (Scalar.int t x).toVal) :
    Holds ρ (.app .bvNegNoOverflow [e]) ↔ t.InRange (-t.read x) := by
  obtain ⟨c, hc, hholds⟩ := holds_signedNegOverflow (eval_wrap_read he) (t.inRange_read x) hs
  simp only [signedNegOverflowCondition, sort_of_toVal he, Scalar.ty, ScalarTy.sort,
    SmtSort.bitvecWidth, Option.bind_eq_bind, Option.bind_some, Option.some.injEq] at hc
  rw [hc]
  exact hholds

/-- **Where an operator is defined**: a divisor is not zero, and neither a quotient nor the
result of an unchecked operator overflows. -/
theorem isSome_mir (hop : opOn op (.int t) = true) (m n : ℤ) :
    (op.mir t m n).isSome = true ↔
      (isDivision op = true → n ≠ 0) ∧
        (isDivision op = true ∨ isUnchecked op = true → ∀ z, exact op m n = some z →
          t.InRange z) := by
  cases op
  case shl | shlUnchecked | shr | shrUnchecked | cmp | offset => cases hop
  case addUnchecked | subUnchecked | mulUnchecked =>
    simp [BinOp.mir, isSome_unchecked, isDivision, isUnchecked, exact]
  case div | rem =>
    by_cases h0 : n = 0 <;> by_cases hq : t.InRange (m.tdiv n) <;>
      simp [BinOp.mir, unchecked, isDivision, isUnchecked, exact, h0, hq]
  all_goals simp [BinOp.mir, isDivision, isUnchecked]

/-- The quotients of an unsigned type are in range. -/
theorem inRange_exact_of_unsigned {z : ℤ} (hop : isDivision op = true) (hs : t.signed = false)
    (hz : exact op (t.read x) (t.read y) = some z) : t.InRange z := by
  have hx := t.inRange_read x
  have hy := t.inRange_read y
  have hquot := hx.tdiv hs hy
  cases op
  case div | rem =>
    cases hz
    exact hquot
  all_goals cases hop

end Values

end TrustMc.Bmc
