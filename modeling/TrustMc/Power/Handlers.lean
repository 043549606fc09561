import TrustMc.Arithmetic.TermValues
import TrustMc.Machine.Euclid
import Mathlib.Logic.Function.Basic

/-!
# Powers and Euclidean division

The model of the call handlers of `pow.rs` and `div_euclid.rs`. A power of the constant two is
recorded with its exponent for its destination, and a division by a local with a recorded exponent
becomes a shift or a mask. Nothing ever takes a record back.

* `codegenPow`, `codegenEuclid`: the handlers; they emit one edge to the target of the call.
* `codegenCalls`: the calls of a function in the order they are encoded.
* `RustOp.result`: what Rust returns, `none` for a panic.
-/

namespace TrustMc

namespace Power

open Machine Arithmetic TrustMc.Expr

/-! ### Calls -/

/-- An operand of a call: a constant, with the value of its allocation if there is one, or a place,
which may have projections. -/
inductive CallOperand
  | constant (value : Option ℤ)
  | place (loc : ℕ) (projected : Bool)
  deriving DecidableEq

/-- `try_extract_const_u128`. -/
def tryExtractConstU128 : CallOperand → Option ℕ
  | .constant (some z) => if 0 ≤ z then some z.toNat else none
  | _ => none

/-- `DispatchCallContext`, with what the block resolves operands and destination to. -/
structure Call where
  args0 : CallOperand
  args1 : CallOperand
  /-- The type of the first argument, which is the type of the result. -/
  ty : IntTy
  destLocal : ℕ
  target : ℕ
  stmtConstraints : List Expr
  /-- `resolve_ref_or_const_referent`. -/
  resolve : CallOperand → Option Expr
  /-- `resolve_destination`. -/
  destination : Option (String × SmtSort)

/-- Where an edge leads. -/
inductive Target
  | block (idx : ℕ)
  | error
  deriving DecidableEq

/-- The arguments of `emit_goto_rule_extra`. -/
structure Edge where
  target : Target
  stmtConstraints : List Expr
  extra : List Expr

/-- `coerce_eq_constraint` of a bit-vector, for a destination of integer type. -/
def coerceEqConstraint (destVar resultExpr : Expr) (outSort : SmtSort) (signed : Bool) :
    Option Expr :=
  if resultExpr.sort = outSort then some (.eq destVar resultExpr)
  else
    match outSort with
    | .bitvec w =>
      some (.eq destVar (coerceBitvecWidthSafe resultExpr w (.forSignedness signed)))
    | .int => some (.eq destVar (bvToInt signed resultExpr))
    | _ => none

namespace Call

variable (call : Call)

/-- `emit_goto_rule_extra` to the target of the call. -/
def gotoTarget (extra : List Expr) : Edge := ⟨.block call.target, call.stmtConstraints, extra⟩

/-- `emit_sound_fallback_goto`: the destination is left open. -/
def fallback : Edge := call.gotoTarget []

/-- `make_coerced_eq_constraint` for the destination and the edge with it; nothing where the
destination is not resolved. -/
def assign (resultExpr : Expr) : Option Edge :=
  call.destination.map fun (name, sort) =>
    call.gotoTarget (coerceEqConstraint (.var name sort) resultExpr sort call.ty.signed).toList

end Call

/-- `known_pow2_locals`. -/
abbrev KnownPow2 : Type := ℕ → Option Expr

/-- `bitvec_const(n, width)`. -/
def bvConst (width n : ℕ) : Expr := .bitVecConst (BitVec.ofNat width n)

/-- The constant-folded power. -/
def codegenPowConst (call : Call) : Option Edge := do
  let base ← tryExtractConstU128 call.args0
  let exp ← tryExtractConstU128 call.args1
  if exp < 2 ^ 32 then call.assign (bvConst call.ty.width (base ^ exp % 2 ^ 128)) else none

/-- `codegen_pow`; `none` where the builder of `bvshl` panics. -/
def codegenPow (known : KnownPow2) (call : Call) : Option (KnownPow2 × List Edge) :=
  match codegenPowConst call with
  | some edge => some (known, [edge])
  | none =>
    if tryExtractConstU128 call.args0 = some 2 then
      match call.resolve call.args1 with
      | none => some (known, [call.fallback])
      | some exp =>
        let expCoerced := coerceBitvecWidthSafe exp call.ty.width .zeroExtend
        if expCoerced.sort = .bitvec call.ty.width then
          match call.assign (.bv .shl (bvConst call.ty.width 1) expCoerced) with
          | some edge => some (Function.update known call.destLocal (some expCoerced), [edge])
          | none => some (known, [call.fallback])
        else none
    else some (known, [call.fallback])

/-- `EuclidOp`. -/
inductive EuclidOp
  | div
  | rem
  deriving DecidableEq

/-- The shift or the mask for a divisor that is a power of two. -/
def euclidPow2 (op : EuclidOp) (signed : Bool) (width : ℕ) (a exp : Expr) : Expr :=
  match op with
  | .div => if signed then .bv .ashr a exp else .bv .lshr a exp
  | .rem => .bv .and a (.bv .sub (.bv .shl (bvConst width 1) exp) (bvConst width 1))

/-- The division, adjusted where the remainder is negative. -/
def euclidPlain (op : EuclidOp) (signed : Bool) (width : ℕ) (a b : Expr) : Expr :=
  let zero := bvConst width 0
  if signed then
    let r := .bv .srem a b
    match op with
    | .div =>
      let q := .bv .sdiv a b
      .ite (.bvCmp .slt r zero)
        (.ite (.bvCmp .sgt b zero) (.bv .sub q (bvConst width 1)) (.bv .add q (bvConst width 1))) q
    | .rem =>
      .ite (.bvCmp .slt r zero) (.ite (.bvCmp .slt b zero) (.bv .sub r b) (.bv .add r b)) r
  else
    match op with
    | .div => .bv .udiv a b
    | .rem => .bv .urem a b

/-- The recorded exponent of a divisor. -/
def recordedExponent (known : KnownPow2) : CallOperand → Option Expr
  | .place loc false => known loc
  | _ => none

/-- The edge of the shortcut. -/
def codegenEuclidPow2 (known : KnownPow2) (call : Call) (op : EuclidOp) (width : ℕ) (a : Expr) :
    Option Edge := do
  let exp ← recordedExponent known call.args1
  call.assign (euclidPow2 op call.ty.signed width a (coerceBitvecWidthSafe exp width .zeroExtend))

/-- `codegen_euclid`. -/
def codegenEuclid (known : KnownPow2) (call : Call) (op : EuclidOp) : List Edge :=
  match call.resolve call.args0, call.resolve call.args1 with
  | some lhs, some rhs =>
    match lhs.sort.bitvecWidth, rhs.sort.bitvecWidth with
    | some lw, some rw =>
      let a := coerceBitvecWidthSafe lhs (max lw rw) (.forSignedness call.ty.signed)
      let b := coerceBitvecWidthSafe rhs (max lw rw) (.forSignedness call.ty.signed)
      [((codegenEuclidPow2 known call op (max lw rw) a).or
        (call.assign (euclidPlain op call.ty.signed (max lw rw) a b))).getD call.fallback]
    | _, _ => [call.fallback]
  | _, _ => [call.fallback]

/-! ### The calls of a function -/

/-- The two handlers. -/
inductive Handler
  | pow
  | euclid (op : EuclidOp)
  deriving DecidableEq

/-- A call. -/
def codegenCall (known : KnownPow2) : Handler × Call → Option (KnownPow2 × List Edge)
  | (.pow, call) => codegenPow known call
  | (.euclid op, call) => some (known, codegenEuclid known call op)

/-- Calls in the order they are encoded: what is recorded at the end, and all edges. -/
def codegenCalls : KnownPow2 → List (Handler × Call) → Option (KnownPow2 × List Edge)
  | known, [] => some (known, [])
  | known, call :: calls => do
    let (known, edges) ← codegenCall known call
    let (known, rest) ← codegenCalls known calls
    return (known, edges ++ rest)

/-- At the start of a function nothing is recorded. -/
def noRecords : KnownPow2 := fun _ => none

/-! ### Rust -/

/-- The methods. -/
inductive RustOp
  | pow
  | wrappingPow
  | divEuclid
  | remEuclid
  deriving DecidableEq

namespace RustOp

/-- The handler of a method. -/
def handler : RustOp → Handler
  | pow | wrappingPow => .pow
  | divEuclid => .euclid .div
  | remEuclid => .euclid .rem

/-- `u32`. -/
def u32 : IntTy := ⟨false, 32, IntTy.thirtyTwo_mem_widths⟩

/-- The type of the second argument. -/
def argTy (t : IntTy) : RustOp → IntTy
  | pow | wrappingPow => u32
  | divEuclid | remEuclid => t

/-- The result on integers of type `t`; a panic has none. -/
def result (t : IntTy) (x y : ℤ) : RustOp → Option ℤ
  | pow => if t.InRange (x ^ y.toNat) then some (x ^ y.toNat) else none
  | wrappingPow => some (t.read (t.wrap (x ^ y.toNat)))
  | divEuclid => if y = 0 ∨ ¬ t.InRange (x / y) then none else some (x / y)
  | remEuclid => if y = 0 ∨ ¬ t.InRange (x / y) then none else some (x % y)

end RustOp

end Power

end TrustMc
