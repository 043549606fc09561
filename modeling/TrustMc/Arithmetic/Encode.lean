import TrustMc.Smt.Eval

/-!
# The encoding of arithmetic

How the binary and unary operators of MIR become terms. The operands are terms already; the
sort of an operand decides the encoding: bit-vectors, SMT integers (a local lifted out of its
bit-vector), reals, Booleans and datatypes.

* `translateBinop`: wrapping, unchecked, bitwise, shift and comparison operators.
* `translateUnop`: negation and complement.
* `checkedBinopResultOverflow`: the result of a checked operator and its overflow flag.

The flag `isSigned` is the signedness of the left operand's type and `intBvWidth` its width.
Float arithmetic, which is another component, is a parameter.
-/

namespace TrustMc

namespace Arithmetic

/-- `rustc_public::mir::BinOp`. -/
inductive BinOp
  | add | addUnchecked | sub | subUnchecked | mul | mulUnchecked | div | rem
  | bitXor | bitAnd | bitOr | shl | shlUnchecked | shr | shrUnchecked
  | eq | lt | le | ne | ge | gt | cmp | offset
  deriving DecidableEq, Repr

/-- `rustc_public::mir::UnOp`. -/
inductive UnOp
  | not | neg | ptrMetadata
  deriving DecidableEq, Repr

/-- The operators whose operands may have different types. -/
def BinOp.isShift : BinOp → Bool
  | shl | shlUnchecked | shr | shrUnchecked => true
  | _ => false

/-- `is_float_arithmetic_op`. -/
def BinOp.isFloatArithmetic : BinOp → Bool
  | add | addUnchecked | sub | subUnchecked | mul | mulUnchecked | div | rem => true
  | _ => false

/-! ### Coercions -/

/-- `e.bv2int()`. -/
def bv2int (e : Expr) : Expr := .app .bv2Int [e]

/-- `e.bv2int_signed()`, which expands to a case split on the sign bit. -/
def bv2intSigned (e : Expr) : Expr :=
  .ite (.eq (.app (.bvExtract (e.sort.width - 1) (e.sort.width - 1)) [e]) (.bitVecConst 1#1))
    (.int .sub (bv2int e) (.intConst (2 ^ e.sort.width))) (bv2int e)

/-- The closure `bv_to_int`. -/
def bvToInt (isSigned : Bool) (e : Expr) : Expr := if isSigned then bv2intSigned e else bv2int e

/-- `e.int2bv(width)`. -/
def int2bv (width : ℕ) (e : Expr) : Expr := .app (.int2Bv width) [e]

/-- `SignExtension`. -/
inductive SignExtension
  | signExtend | zeroExtend
  deriving DecidableEq, Repr

/-- `SignExtension::for_signedness`. -/
def SignExtension.forSignedness (signed : Bool) : SignExtension :=
  if signed then signExtend else zeroExtend

/-- Widening by `extraBits`. -/
def SignExtension.extend (ext : SignExtension) (extraBits : ℕ) (e : Expr) : Expr :=
  match ext with
  | signExtend => .app (.bvSignExtend extraBits) [e]
  | zeroExtend => .app (.bvZeroExtend extraBits) [e]

/-- `coerce_bitvec_width_safe`. -/
def coerceBitvecWidthSafe (e : Expr) (targetWidth : ℕ) (ext : SignExtension) : Expr :=
  match e.sort.bitvecWidth with
  | none =>
    if e.sort.isBool then
      .ite e (.bitVecConst (BitVec.ofNat targetWidth 1)) (.bitVecConst (BitVec.ofNat targetWidth 0))
    else
      e
  | some currentWidth =>
    if currentWidth = targetWidth then e
    else if currentWidth < targetWidth then ext.extend (targetWidth - currentWidth) e
    else .app (.bvExtract (targetWidth - 1) 0) [e]

/-- `coerce_shift_amount`. -/
def coerceShiftAmount (e : Expr) (targetWidth : ℕ) : Expr :=
  coerceBitvecWidthSafe e targetWidth .zeroExtend

/-- Both operands at the larger of their widths. -/
def coerceToMaxWidth (lhs rhs : Expr) (signed : Bool) : Expr × Expr :=
  match lhs.sort.bitvecWidth, rhs.sort.bitvecWidth with
  | some lw, some rw =>
    if lw = rw then (lhs, rhs)
    else
      (coerceBitvecWidthSafe lhs (max lw rw) (.forSignedness signed),
        coerceBitvecWidthSafe rhs (max lw rw) (.forSignedness signed))
  | _, _ => (lhs, rhs)

/-- `coerce_arithmetic_operands`. -/
def coerceArithmeticOperands (lhs rhs : Expr) (signed : Bool) : Expr × Expr :=
  coerceToMaxWidth lhs rhs signed

/-- `coerce_bitwise_operands`. -/
def coerceBitwiseOperands (lhs rhs : Expr) (signed : Bool) : Expr × Expr :=
  coerceToMaxWidth lhs rhs signed

/-- `coerce_int_real`. -/
def coerceIntReal (lhs rhs : Expr) : Expr × Expr :=
  if lhs.sort = .int ∧ rhs.sort = .real then (.app .intToReal [lhs], rhs)
  else if lhs.sort = .real ∧ rhs.sort = .int then (lhs, .app .intToReal [rhs])
  else (lhs, rhs)

/-- `unwrap_single_field_datatype`. -/
def unwrapSingleFieldDatatype (e : Expr) : Option Expr :=
  match e.sort with
  | .datatype dt [c] =>
    match c.fields with
    | [f] =>
      match e with
      | .datatypeConstructor dt' _ [arg] _ =>
        if dt' = dt then some arg else some (.fieldSelect e dt f.name f.sort)
      | _ => some (.fieldSelect e dt f.name f.sort)
    | _ => none
  | _ => none

/-- `coerce_eq_operands`. -/
def coerceEqOperands (lhs rhs : Expr) (signed : Bool) : Expr × Expr :=
  let lhs := (unwrapSingleFieldDatatype lhs).getD lhs
  let rhs := (unwrapSingleFieldDatatype rhs).getD rhs
  if lhs.sort = rhs.sort then (lhs, rhs)
  else
    let (lhs, rhs) :=
      match lhs.sort.isBool, rhs.sort.isBool, lhs.sort.bitvecWidth, rhs.sort.bitvecWidth with
      | true, false, _, some w => (coerceBitvecWidthSafe lhs w .zeroExtend, rhs)
      | false, true, some w, _ => (lhs, coerceBitvecWidthSafe rhs w .zeroExtend)
      | _, _, _, _ => (lhs, rhs)
    coerceToMaxWidth lhs rhs signed

/-! ### Equality of datatypes -/

/-- `fieldless_constructor_name`. -/
def fieldlessConstructorName : Expr → Option (String × String)
  | .datatypeConstructor dt c [] _ => some (dt, c)
  | .app (.funcApp name s) [] =>
    match s with
    | .datatype dt cs =>
      if cs.any fun c => c.name == name && c.fields.isEmpty then some (dt, name) else none
    | _ => none
  | _ => none

/-- `simplify_bool_ite`. -/
def simplifyBoolIte (c a b : Expr) : Expr :=
  match a, b with
  | .boolConst true, .boolConst false => c
  | .boolConst false, .boolConst true => .not c
  | .boolConst true, .boolConst true => .boolConst true
  | .boolConst false, .boolConst false => .boolConst false
  | _, _ => .ite c a b

/-- `constructor_identity_guard`. -/
def constructorIdentityGuard (datatype constructor : String) : Expr → Option Expr
  | .datatypeConstructor dt c _ _ =>
    if dt = datatype then some (.boolConst (c == constructor)) else none
  | .app (.funcApp name s) [] =>
    match s with
    | .datatype dt cs =>
      if dt ≠ datatype then none
      else if cs.any fun c => c.name == name then some (.boolConst (name == constructor))
      else none
    | _ => none
  | .ite c a b => do
    let thenGuard ← constructorIdentityGuard datatype constructor a
    let elseGuard ← constructorIdentityGuard datatype constructor b
    return simplifyBoolIte c thenGuard elseGuard
  | _ => none

/-- The equality or its negation. -/
def signedGuard (isEq : Bool) (guard : Expr) : Expr := if isEq then guard else .not guard

/-- `try_fieldless_constructor_comparison`. -/
def tryFieldlessConstructorComparison (lhs rhs : Expr) (isEq : Bool) : Option Expr :=
  match fieldlessConstructorName rhs with
  | some (dt, c) => (constructorIdentityGuard dt c lhs).map (signedGuard isEq)
  | none =>
    match fieldlessConstructorName lhs with
    | some (dt, c) => (constructorIdentityGuard dt c rhs).map (signedGuard isEq)
    | none => none

/-- `OptionLikeView`. -/
inductive OptionLikeView
  | none
  | some (payload : Expr)
  | symbolic (isSome payload : Expr)

/-- `is_option_like_sort`: two constructors, one without a field and one with a single one. -/
def isOptionLikeSort (s : SmtSort) : Bool :=
  match s.constructors with
  | Option.some [c, c'] =>
    (c.fields.length == 0 && c'.fields.length == 1) ||
      (c.fields.length == 1 && c'.fields.length == 0)
  | _ => false

/-- `option_like_view`. -/
def optionLikeView : Expr → Option OptionLikeView
  | .datatypeConstructor _ _ [] _ => Option.some .none
  | .datatypeConstructor _ _ [arg] _ => Option.some (.some arg)
  | .ite c a b => do
    let thenView ← optionLikeView a
    let elseView ← optionLikeView b
    match thenView, elseView with
    | .some payload, .none => return .symbolic c payload
    | .none, .some payload => return .symbolic (.not c) payload
    | _, _ => Option.none
  | _ => Option.none

/-- `option_like_view_eq`. -/
def optionLikeViewEq : OptionLikeView → OptionLikeView → Expr
  | .none, .none => .boolConst true
  | .some l, .some r => .eq l r
  | .none, .some _ | .some _, .none => .boolConst false
  | .symbolic isSome payload, .some expected | .some expected, .symbolic isSome payload =>
    .and [isSome, .eq payload expected]
  | .symbolic isSome _, .none | .none, .symbolic isSome _ => .not isSome
  | .symbolic l lp, .symbolic r rp =>
    .and [.eq l r, .implies (.and [l, r]) (.eq lp rp)]

/-- `option_like_datatype_eq`. -/
def optionLikeDatatypeEq (lhs rhs : Expr) (isEq : Bool) : Option Expr :=
  if lhs.sort = rhs.sort ∧ isOptionLikeSort lhs.sort then do
    let l ← optionLikeView lhs
    let r ← optionLikeView rhs
    return signedGuard isEq (optionLikeViewEq l r)
  else
    Option.none

/-! ### Binary operators

Each group of operators is encoded alike, from the bit-vector, integer and real function of
the operator. -/

/-- `unsigned_rem_pow2_mask`. -/
def unsignedRemPow2Mask (lhs : Expr) : Expr → Option Expr
  | .app (.bitVecConst w x) [] =>
    if x.toNat < 2 ^ 128 ∧ x.toNat ≠ 0 ∧ 2 ^ x.toNat.log2 = x.toNat then
      some (.bv .and lhs (.bitVecConst (BitVec.ofNat w (x.toNat - 1))))
    else
      none
  | _ => none

/-- Addition, subtraction, multiplication and division. -/
def arithTerm (fb : BvBin) (fi : IntBin) (fr : RealBin) (lhs rhs : Expr) : Option Expr :=
  if lhs.sort.isBitvec then
    some (.bv fb lhs rhs)
  else
    let (lhs, rhs) := coerceIntReal lhs rhs
    if lhs.sort = .real then some (.app (.realBin fr) [lhs, rhs])
    else if lhs.sort = .int then some (.int fi lhs rhs)
    else none

/-- Remainder. -/
def remTerm (lhs rhs : Expr) (isSigned : Bool) : Option Expr :=
  if lhs.sort = .int then some (.int .mod lhs rhs)
  else if lhs.sort.isBitvec then
    if isSigned then some (.bv .srem lhs rhs)
    else some ((unsignedRemPow2Mask lhs rhs).getD (.bv .urem lhs rhs))
  else none

/-- The bitwise operators, on integers through the bit-vectors of the width. -/
def bitwiseTerm (fb : BvBin) (boolTerm : Expr) (lhs rhs : Expr) (isSigned : Bool)
    (intBvWidth : ℕ) : Option Expr :=
  if lhs.sort.isBitvec then
    let (lhs, rhs) := coerceBitwiseOperands lhs rhs isSigned
    some (.bv fb lhs rhs)
  else if lhs.sort.isBool then some boolTerm
  else if lhs.sort = .int ∧ rhs.sort = .int then
    some (bvToInt isSigned (.bv fb (int2bv intBvWidth lhs) (int2bv intBvWidth rhs)))
  else none

/-- The shifts. -/
def shiftTerm (fb : BvBin) (lhs rhs : Expr) (isSigned : Bool) (intBvWidth : ℕ) : Option Expr :=
  if lhs.sort.isBitvec then
    some (.bv fb lhs (coerceShiftAmount rhs lhs.sort.width))
  else if lhs.sort = .int then
    let rhsBv := if rhs.sort = .int then int2bv intBvWidth rhs else rhs
    some (bvToInt isSigned (.bv fb (int2bv intBvWidth lhs) (coerceShiftAmount rhsBv intBvWidth)))
  else none

/-- The ordered comparisons. -/
def compareTerm (fb : BvCmp) (fa : ArithCmp) (lhs rhs : Expr) : Option Expr :=
  if lhs.sort.isBitvec then
    some (.bvCmp fb lhs rhs)
  else
    let (lhs, rhs) := coerceIntReal lhs rhs
    if lhs.sort = .real then some (.app (.realCmp fa) [lhs, rhs])
    else if lhs.sort = .int then some (.intCmp fa lhs rhs)
    else none

/-- Equality and inequality. -/
def equalityTerm (isEq : Bool) (lhs rhs : Expr) (isSigned : Bool) : Option Expr :=
  let (lhs, rhs) := coerceIntReal lhs rhs
  let (lhs, rhs) := coerceEqOperands lhs rhs isSigned
  match tryFieldlessConstructorComparison lhs rhs isEq with
  | some result => some result
  | none =>
    if lhs.sort ≠ rhs.sort then none
    else if lhs.sort.isArray then none
    else some ((optionLikeDatatypeEq lhs rhs isEq).getD (signedGuard isEq (.eq lhs rhs)))

/-- The term of an `Ordering`: `Less` is all ones in 32 bits. -/
def orderingTerm (lt eq : Expr) : Expr :=
  .ite lt (.bitVecConst 0xFFFFFFFF#32) (.ite eq (.bitVecConst 0#32) (.bitVecConst 1#32))

/-- The three-way comparison. -/
def cmpTerm (lhs rhs : Expr) (isSigned : Bool) : Option Expr :=
  if lhs.sort.isBitvec then
    some (orderingTerm (.bvCmp (if isSigned then .slt else .ult) lhs rhs) (.eq lhs rhs))
  else
    let (lhs, rhs) := coerceIntReal lhs rhs
    if lhs.sort = .int then some (orderingTerm (.intCmp .lt lhs rhs) (.eq lhs rhs)) else none

/-- The operators, on operands of a common domain. -/
def binopTerm (op : BinOp) (lhs rhs : Expr) (isSigned : Bool) (intBvWidth : ℕ) : Option Expr :=
  match op with
  | .add | .addUnchecked => arithTerm .add .add .add lhs rhs
  | .sub | .subUnchecked => arithTerm .sub .sub .sub lhs rhs
  | .mul | .mulUnchecked => arithTerm .mul .mul .mul lhs rhs
  | .div => arithTerm (if isSigned then .sdiv else .udiv) .div .div lhs rhs
  | .rem => remTerm lhs rhs isSigned
  | .bitAnd => bitwiseTerm .and (.and [lhs, rhs]) lhs rhs isSigned intBvWidth
  | .bitOr => bitwiseTerm .or (.or [lhs, rhs]) lhs rhs isSigned intBvWidth
  | .bitXor => bitwiseTerm .xor (.not (.eq lhs rhs)) lhs rhs isSigned intBvWidth
  | .shl | .shlUnchecked => shiftTerm .shl lhs rhs isSigned intBvWidth
  | .shr | .shrUnchecked =>
    shiftTerm (if isSigned then .ashr else .lshr) lhs rhs isSigned intBvWidth
  | .eq => equalityTerm true lhs rhs isSigned
  | .ne => equalityTerm false lhs rhs isSigned
  | .lt => compareTerm (if isSigned then .slt else .ult) .lt lhs rhs
  | .le => compareTerm (if isSigned then .sle else .ule) .le lhs rhs
  | .gt => compareTerm (if isSigned then .sgt else .ugt) .gt lhs rhs
  | .ge => compareTerm (if isSigned then .sge else .uge) .ge lhs rhs
  | .cmp => cmpTerm lhs rhs isSigned
  | .offset => none

/-- A bit-vector beside an integer is read as an integer. -/
def coerceMixed (lhs rhs : Expr) (isSigned : Bool) : Expr × Expr :=
  if lhs.sort = .int ∧ rhs.sort.isBitvec then (lhs, bvToInt isSigned rhs)
  else if lhs.sort.isBitvec ∧ rhs.sort = .int then (bvToInt isSigned lhs, rhs)
  else (lhs, rhs)

/-- `translate_binop`. -/
def translateBinop (floatBinop : BinOp → Expr → Expr → ℕ → Option Expr) (op : BinOp)
    (lhs rhs : Expr) (isSigned : Bool) (intBvWidth : ℕ) (isFloat : Bool) : Option Expr :=
  let (lhs, rhs) := coerceMixed lhs rhs isSigned
  if lhs.sort.isBitvec ∧ ¬ rhs.sort.isBitvec then none
  else
    let (lhs, rhs) :=
      if lhs.sort.isBitvec ∧ ¬ op.isShift then coerceArithmeticOperands lhs rhs isSigned
      else (lhs, rhs)
    if isFloat ∧ lhs.sort.isBitvec ∧ op.isFloatArithmetic then floatBinop op lhs rhs intBvWidth
    else binopTerm op lhs rhs isSigned intBvWidth

/-! ### Unary operators -/

/-- `translate_unop`. -/
def translateUnop (op : UnOp) (e : Expr) (intBvWidth : ℕ) (isSigned : Bool) : Option Expr :=
  match op with
  | .not =>
    if e.sort.isBool then some (.not e)
    else if e.sort.isBitvec then some (.app (.bvUn .not) [e])
    else if e.sort = .int then
      some (bvToInt isSigned (.app (.bvUn .not) [int2bv intBvWidth e]))
    else none
  | .neg =>
    if e.sort = .int then some (.app .intNeg [e])
    else if e.sort.isBitvec then some (.app (.bvUn .neg) [e])
    else none
  | .ptrMetadata => none

/-! ### Checked operators -/

/-- `try_extract_concrete_usize`. -/
def tryExtractConcreteUsize : Expr → Option ℕ
  | .app (.bitVecConst _ x) [] => if x.toNat < 2 ^ 64 then some x.toNat else none
  | .app (.bvExtract high low) [.app (.bitVecConst _ x) []] =>
    let extracted := (x.toNat >>> low) &&& (2 ^ (high - low + 1) - 1)
    if extracted < 2 ^ 64 then some extracted else none
  | .app (.bvExtract high low) [.app .bvConcat [hi, lo]] =>
    let loWidth := lo.sort.width
    let hiWidth := hi.sort.width
    if loWidth ≤ low ∧ high < loWidth + hiWidth then
      if low - loWidth = 0 ∧ high - loWidth + 1 = hiWidth then tryExtractConcreteUsize hi else none
    else if high < loWidth then
      if low = 0 ∧ high + 1 = loWidth then tryExtractConcreteUsize lo else none
    else none
  | _ => none

/-- Result and flag on lifted operands: the exact result, and whether it leaves the range. -/
def liftedResultOverflow (op : BinOp) (lhs rhs : Expr) (isSigned : Bool) (intBvWidth : ℕ) :
    Option (Expr × Expr) := do
  let lhs := if lhs.sort.isBitvec then bvToInt isSigned lhs else lhs
  let rhs := if rhs.sort.isBitvec then bvToInt isSigned rhs else rhs
  let result ← match op with
    | .add | .addUnchecked => some (.int .add lhs rhs)
    | .sub | .subUnchecked => some (.int .sub lhs rhs)
    | .mul | .mulUnchecked => some (.int .mul lhs rhs)
    | _ => none
  let overflow : Expr :=
    if isSigned then
      .or [.intCmp .lt result (.intConst (-2 ^ (intBvWidth - 1))),
        .intCmp .ge result (.intConst (2 ^ (intBvWidth - 1)))]
    else
      .or [.intCmp .lt result (.intConst 0), .intCmp .ge result (.intConst (2 ^ intBvWidth))]
  return (result, overflow)

/-- The function of a checked operator on bit-vectors. -/
def checkedFunction (op : BinOp) (isSigned : Bool) : Option BvBin :=
  match op with
  | .add | .addUnchecked => some .add
  | .sub | .subUnchecked => some .sub
  | .mul | .mulUnchecked => some .mul
  | .div => some (if isSigned then .sdiv else .udiv)
  | .rem => some (if isSigned then .srem else .urem)
  | .shl => some .shl
  | .shr => some (if isSigned then .ashr else .lshr)
  | _ => none

/-- The sign bit. -/
def signBit (e : Expr) (bvWidth : ℕ) : Expr := .app (.bvExtract (bvWidth - 1) (bvWidth - 1)) [e]

/-- The overflow flag of a checked operator on bit-vectors of one width. -/
def overflowFlag (op : BinOp) (lhs rhs result : Expr) (isSigned : Bool) (bvWidth : ℕ) :
    Option Expr :=
  match op with
  | .div | .rem =>
    -- division by zero, and the smallest value divided by minus one
    let rhsZero : Expr := .eq rhs (.bitVecConst (BitVec.ofNat bvWidth 0))
    if isSigned then
      let tMin : Expr := .bitVecConst (BitVec.ofNat bvWidth (2 ^ (bvWidth - 1)))
      let negOne : Expr := .bitVecConst (BitVec.ofNat bvWidth (2 ^ bvWidth - 1))
      some (.or [rhsZero, .and [.eq lhs tMin, .eq rhs negOne]])
    else
      some rhsZero
  | .shl | .shr => some (.bvCmp .uge rhs (.bitVecConst (BitVec.ofNat bvWidth bvWidth)))
  | .add | .addUnchecked =>
    if isSigned then
      -- operands of one sign have a sum of the other
      some (.and [.eq (signBit lhs bvWidth) (signBit rhs bvWidth),
        .not (.eq (signBit result bvWidth) (signBit lhs bvWidth))])
    else
      some (.bvCmp .ult result lhs)
  | .sub | .subUnchecked =>
    if isSigned then
      -- operands of two signs have a difference of the sign of the second
      some (.and [.not (.eq (signBit lhs bvWidth) (signBit rhs bvWidth)),
        .not (.eq (signBit result bvWidth) (signBit lhs bvWidth))])
    else
      some (.bvCmp .ult lhs rhs)
  | .mul | .mulUnchecked =>
    let noOverflow : Expr := .app (.bvCheck (if isSigned then .mulNoOverflowSigned
      else .mulNoOverflowUnsigned)) [lhs, rhs]
    some (.not noOverflow)
  | _ => none

/-- `checked_binop_result_overflow`. -/
def checkedBinopResultOverflow (op : BinOp) (lhs rhs : Expr) (isSigned : Bool) (intBvWidth : ℕ)
    (intLift : Bool) : Option (Expr × Expr) :=
  if intLift ∧ (lhs.sort = .int ∨ rhs.sort = .int) then
    liftedResultOverflow op lhs rhs isSigned intBvWidth
  else
    let lhs := if lhs.sort = .int then int2bv intBvWidth lhs else lhs
    let rhs := if rhs.sort = .int then int2bv intBvWidth rhs else rhs
    if ¬ lhs.sort.isBitvec ∨ ¬ rhs.sort.isBitvec then none
    else
      let (lhs, rhs) := coerceArithmeticOperands lhs rhs isSigned
      let bvWidth := lhs.sort.width
      match tryExtractConcreteUsize lhs, tryExtractConcreteUsize rhs with
      | some lhsConst, some rhsConst =>
        if isSigned = false ∧ (op = .add ∨ op = .addUnchecked) ∧ bvWidth ≤ 64 then
          -- two constants are added here and not by a term
          let sum := lhsConst + rhsConst
          let mask := 2 ^ bvWidth - 1
          some (.bitVecConst (BitVec.ofNat bvWidth (sum &&& mask)),
            .boolConst (decide (mask < sum)))
        else
          checkedTerm op lhs rhs isSigned bvWidth
      | _, _ => checkedTerm op lhs rhs isSigned bvWidth
where
  /-- The result, computed as the wrapping operator, and its flag. -/
  checkedTerm (op : BinOp) (lhs rhs : Expr) (isSigned : Bool) (bvWidth : ℕ) :
      Option (Expr × Expr) := do
    let fb ← checkedFunction op isSigned
    let result : Expr := .bv fb lhs rhs
    let overflow ← overflowFlag op lhs rhs result isSigned bvWidth
    return (result, overflow)

end Arithmetic

end TrustMc
