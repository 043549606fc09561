import TrustMc.Arithmetic.Encode
import TrustMc.Machine.Integers

/-!
# The arithmetic of MIR

What the operators of MIR yield on integers of a machine type, read off exact integer
arithmetic: a result is the exact one reduced to the type, `none` where the operation is
undefined behaviour.

* `BinOp.mir`, `UnOp.mir`: the value of an operator.
* `BinOp.mirChecked`: result and overflow flag of a checked operator.
* `Operand`: a term that stands for an operand, as a bit-vector or lifted to an integer.
* `MirValue.Denoted`, `MirValue.Encoded`: a term that stands for a result, an encoding that
  yields one.
* `BinOp.Exact`, `UnOp.Exact`, `BinOp.ExactChecked`: where the encoding is exact.
-/

namespace TrustMc

namespace Arithmetic

open Machine Carriers.Val

/-- The value of an operator on integers of type `t`. -/
inductive MirValue (t : IntTy)
  | int (v : BitVec t.width)
  | bool (b : Bool)
  | ordering (o : Ordering)
  deriving DecidableEq

/-- The distance a shift of `t` moves by: the operand modulo the width. -/
def shiftDistance (t : IntTy) (y : ℤ) : ℕ := (y % t.width).toNat

/-- A left shift of MIR. -/
def mirShl (t : IntTy) (x y : ℤ) : BitVec t.width := t.wrap x <<< shiftDistance t y

/-- A right shift of MIR: arithmetic for signed types. -/
def mirShr (t : IntTy) (x y : ℤ) : BitVec t.width :=
  if t.signed then (t.wrap x).sshiftRight (shiftDistance t y) else t.wrap x >>> shiftDistance t y

/-- The distance is not negative and below the width. -/
def ShiftInRange (t : IntTy) (y : ℤ) : Prop := 0 ≤ y ∧ y < t.width

instance (t : IntTy) (y : ℤ) : Decidable (ShiftInRange t y) := inferInstanceAs (Decidable (_ ∧ _))

/-- A result that has to be in range. -/
def unchecked (t : IntTy) (z : ℤ) : Option (MirValue t) :=
  if t.InRange z then some (.int (t.wrap z)) else none

/-- A binary operator of MIR. -/
def BinOp.mir (op : BinOp) (t : IntTy) (x y : ℤ) : Option (MirValue t) :=
  match op with
  | .add => some (.int (t.wrap (x + y)))
  | .sub => some (.int (t.wrap (x - y)))
  | .mul => some (.int (t.wrap (x * y)))
  | .addUnchecked => unchecked t (x + y)
  | .subUnchecked => unchecked t (x - y)
  | .mulUnchecked => unchecked t (x * y)
  | .div => if y = 0 then none else unchecked t (x.tdiv y)
  | .rem => if y = 0 ∨ ¬ t.InRange (x.tdiv y) then none else some (.int (t.wrap (x.tmod y)))
  | .bitAnd => some (.int (t.wrap x &&& t.wrap y))
  | .bitOr => some (.int (t.wrap x ||| t.wrap y))
  | .bitXor => some (.int (t.wrap x ^^^ t.wrap y))
  | .shl => some (.int (mirShl t x y))
  | .shr => some (.int (mirShr t x y))
  | .shlUnchecked => if ShiftInRange t y then some (.int (mirShl t x y)) else none
  | .shrUnchecked => if ShiftInRange t y then some (.int (mirShr t x y)) else none
  | .eq => some (.bool (decide (x = y)))
  | .ne => some (.bool (decide (x ≠ y)))
  | .lt => some (.bool (decide (x < y)))
  | .le => some (.bool (decide (x ≤ y)))
  | .gt => some (.bool (decide (y < x)))
  | .ge => some (.bool (decide (y ≤ x)))
  | .cmp => some (.ordering (compare x y))
  | .offset => none

/-- A unary operator of MIR; only signed integers are negated. -/
def UnOp.mir (op : UnOp) (t : IntTy) (x : ℤ) : Option (MirValue t) :=
  match op with
  | .not => some (.int (~~~t.wrap x))
  | .neg => if t.signed then some (.int (t.wrap (-x))) else none
  | .ptrMetadata => none

/-- A checked operator of Rust: the wrapped result and whether it overflows. Division by zero
has no result. -/
def BinOp.mirChecked (op : BinOp) (t : IntTy) (x y : ℤ) : Option (Option (BitVec t.width) × Bool) :=
  match op with
  | .add | .addUnchecked => some (some (t.wrap (x + y)), decide (¬ t.InRange (x + y)))
  | .sub | .subUnchecked => some (some (t.wrap (x - y)), decide (¬ t.InRange (x - y)))
  | .mul | .mulUnchecked => some (some (t.wrap (x * y)), decide (¬ t.InRange (x * y)))
  | .div =>
    if y = 0 then some (none, true)
    else some (some (t.wrap (x.tdiv y)), decide (¬ t.InRange (x.tdiv y)))
  | .rem =>
    if y = 0 then some (none, true)
    else some (some (t.wrap (x.tmod y)), decide (¬ t.InRange (x.tdiv y)))
  | .shl => some (some (mirShl t x y), decide (¬ ShiftInRange t y))
  | .shr => some (some (mirShr t x y), decide (¬ ShiftInRange t y))
  | _ => none

/-! ### Terms and values -/

section Terms

variable {T : Theory} (ρ : T.Env)

/-- The term stands for the integer `z` of type `t`, as a bit-vector of the width or lifted to
an integer of the range. -/
structure Operand (t : IntTy) (e : Expr) (z : ℤ) : Prop where
  /-- The term is well-sorted. -/
  wellSorted : e.WellSorted
  /-- The integer is one of the type. -/
  inRange : t.InRange z
  /-- The value of the term. -/
  value : e.eval ρ = ofBV (t.wrap z) ∨ e.eval ρ = ofInt z

/-- The bits of an `Ordering`. -/
def orderingBits : Ordering → BitVec 32
  | .lt => -1#32
  | .eq => 0#32
  | .gt => 1#32

/-- The term stands for the value. -/
def MirValue.Denoted {t : IntTy} (e : Expr) : MirValue t → Prop
  | int v => e.eval ρ = ofBV v ∨ e.eval ρ = ofInt (t.read v)
  | bool b => e.eval ρ = ofBool b
  | ordering o => e.eval ρ = ofBV (orderingBits o)

/-- An encoding that yields a term for the value. -/
def MirValue.Encoded {t : IntTy} (v : MirValue t) (o : Option Expr) : Prop :=
  ∃ e, o = some e ∧ v.Denoted ρ e

/-- The terms stand for a result, if there is one, and its overflow flag. -/
def DenotedChecked {t : IntTy} (e : Expr × Expr) (v : Option (BitVec t.width) × Bool) : Prop :=
  (∀ result, v.1 = some result → (MirValue.int result).Denoted ρ e.1) ∧
    (MirValue.bool v.2 : MirValue t).Denoted ρ e.2

/-- An encoding that yields terms for result and flag. -/
def EncodedChecked {t : IntTy} (v : Option (BitVec t.width) × Bool) (o : Option (Expr × Expr)) :
    Prop :=
  ∃ e, o = some e ∧ DenotedChecked ρ e v

end Terms

/-! ### Where the encoding is exact -/

/-- A shift of `t` by `y` leaves nothing but the sign. -/
def ShiftedOut (t : IntTy) (op : BinOp) (x y : ℤ) : Prop :=
  match op with
  | .shl => (2 : ℤ) ^ t.width ∣ x * 2 ^ shiftDistance t y
  | _ =>
    if t.signed then -2 ^ shiftDistance t y ≤ x ∧ x < 2 ^ shiftDistance t y
    else x < 2 ^ shiftDistance t y

/-- The inputs a binary operator is encoded exactly on. -/
def BinOp.Exact (op : BinOp) (t : IntTy) (lifted : Prop) (x y : ℤ) : Prop :=
  match op with
  | .add => lifted → t.InRange (x + y)
  | .sub => lifted → t.InRange (x - y)
  | .mul => lifted → t.InRange (x * y)
  | .div | .rem => lifted → 0 ≤ x ∨ y ∣ x
  | .shl | .shr => y % 2 ^ t.width < t.width ∨ ShiftedOut t op x y
  | _ => True

/-- The inputs a unary operator is encoded exactly on. -/
def UnOp.Exact (op : UnOp) (t : IntTy) (lifted : Prop) (x : ℤ) : Prop :=
  match op with
  | .neg => lifted → t.InRange (-x)
  | _ => True

/-- The inputs a checked operator is encoded exactly on: `liftedInt` where it is computed on
integers, `wide` where the distance is a bit-vector wider than the value. -/
def BinOp.ExactChecked (op : BinOp) (t : IntTy) (liftedInt wide : Prop) (x y : ℤ) : Prop :=
  match op with
  | .add | .addUnchecked => liftedInt → t.InRange (x + y)
  | .sub | .subUnchecked => liftedInt → t.InRange (x - y)
  | .mul | .mulUnchecked => liftedInt → t.InRange (x * y)
  | .div | .rem => ¬ liftedInt
  | .shl | .shr =>
    ¬ liftedInt ∧ ¬ wide ∧
      (ShiftInRange t y ∨ ¬ y % 2 ^ t.width < t.width ∧ ShiftedOut t op x y)
  | _ => True

end Arithmetic

end TrustMc
