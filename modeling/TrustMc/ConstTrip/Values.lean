import TrustMc.Arithmetic.Values

/-!
# The constants of the trip-count simulator

The model of constant evaluation in `loop_unroll/const_trip.rs`, next to what the operators of MIR
yield on the same values.

* `evalBinop_sound`: where an operator of MIR has a result, it is what constant evaluation yields,
  if that yields anything.
* `evalBinop_checked`: constant evaluation yields no overflowing result of `+`, `-` and `*`.
-/

namespace TrustMc

namespace ConstTrip

open Machine
open Arithmetic (BinOp UnOp MirValue mirShl mirShr shiftDistance ShiftInRange unchecked)

instance : DecidableEq IntTy := fun t u =>
  decidable_of_iff (t.signed = u.signed ∧ t.width = u.width)
    ⟨fun h => by cases t; cases u; cases h.1; cases h.2; rfl, fun h => h ▸ ⟨rfl, rfl⟩⟩

/-- `Val`: a value the simulator can represent exactly. -/
inductive Val
  | bool (b : Bool)
  | int (t : IntTy) (bits : BitVec t.width)
  deriving DecidableEq

/-- `truncate`. -/
def truncate (bits width : ℕ) : ℕ := bits % 2 ^ width

/-- `switch_bits`. -/
def Val.switchBits : Val → ℕ × ℕ
  | .bool b => (b.toNat, 8)
  | .int t bits => (bits.toNat, t.width)

/-! ### Constant evaluation -/

/-- The checked operations of `i128`. -/
def checkedI128 (z : ℤ) : Option ℤ := if -2 ^ 127 ≤ z ∧ z < 2 ^ 127 then some z else none

/-- The checked operations of `u128`. -/
def checkedU128 (z : ℤ) : Option ℤ := if 0 ≤ z ∧ z < 2 ^ 128 then some z else none

/-- `exact`; a remainder is refused where the quotient overflows. -/
def exactResult (checked : ℤ → Option ℤ) (op : BinOp) (x y : ℤ) : Option ℤ :=
  match op with
  | .add | .addUnchecked => checked (x + y)
  | .sub | .subUnchecked => checked (x - y)
  | .mul | .mulUnchecked => checked (x * y)
  | .div => if y = 0 then none else checked (x.tdiv y)
  | .rem => if y = 0 then none else (checked (x.tdiv y)).map fun _ => x.tmod y
  | _ => none

/-- What does not fit the type. -/
def outOfRange (t : IntTy) (exact : ℤ) : Bool :=
  decide (t.width < 128) &&
    if t.signed then decide (2 ^ (t.width - 1) ≤ exact) || decide (exact < -2 ^ (t.width - 1))
    else decide (2 ^ t.width - 1 < exact)

/-- `eval_binop` on operands of one type. The bitwise operators on `i128` are truncated, which
leaves those on the bits. -/
def evalSameType (op : BinOp) (t : IntTy) (a b : BitVec t.width) : Option Val :=
  let x := t.read a
  let y := t.read b
  match op with
  | .eq => some (.bool (a == b))
  | .ne => some (.bool (a != b))
  | .lt => some (.bool (x < y))
  | .le => some (.bool (x ≤ y))
  | .gt => some (.bool (y < x))
  | .ge => some (.bool (y ≤ x))
  | .bitAnd => some (.int t (a &&& b))
  | .bitOr => some (.int t (a ||| b))
  | .bitXor => some (.int t (a ^^^ b))
  | op => (exactResult (if t.signed then checkedI128 else checkedU128) op x y).bind fun exact =>
    if outOfRange t exact then none else some (.int t (t.wrap exact))

/-- A shift by less than the width. -/
def shifted (op : BinOp) (t : IntTy) (a : BitVec t.width) (shift : ℕ) : Val :=
  match op with
  | .shl | .shlUnchecked => .int t (a <<< shift)
  | _ => .int t (if t.signed then a.sshiftRight shift else a >>> shift)

/-- `eval_binop`. -/
def evalBinop (op : BinOp) : Val → Val → Option Val
  | .bool x, .bool y =>
    match op with
    | .eq => some (.bool (x == y))
    | .ne => some (.bool (x != y))
    | .bitAnd => some (.bool (x && y))
    | .bitOr => some (.bool (x || y))
    | .bitXor => some (.bool (x != y))
    | _ => none
  | .int t a, .int u b =>
    if op.isShift then
      -- the amount is read as signed, whatever its type
      let shift := b.toInt
      if shift < 0 ∨ t.width ≤ shift then none else some (shifted op t a shift.toNat)
    else if h : u = t then evalSameType op t a (h ▸ b)
    else none
  | _, _ => none

/-- `Rvalue::UnaryOp`. -/
def evalUnop (op : UnOp) : Val → Option Val
  | .bool b =>
    match op with
    | .not => some (.bool !b)
    | _ => none
  | .int t a =>
    match op with
    | .not => some (.int t (~~~a))
    | .neg =>
      if t.signed then
        (checkedI128 (-a.toInt)).bind fun neg =>
          if outOfRange t neg then none else some (.int t (t.wrap neg))
      else none
    | .ptrMetadata => none

/-- `CastKind::IntToInt`: extended to `u128` with the sign of its own type, then truncated. -/
def evalCast (t : IntTy) : Val → Val
  | .bool b => .int t (BitVec.ofNat t.width b.toNat)
  | .int u a =>
    let extended := if u.signed then (BitVec.ofInt 128 a.toInt).toNat else a.toNat
    .int t (BitVec.ofNat t.width (truncate extended t.width))

/-! ### The operators of MIR -/

/-- An ordering is not represented. -/
def ofMirValue {t : IntTy} : MirValue t → Option Val
  | .int v => some (.int t v)
  | .bool b => some (.bool b)
  | .ordering _ => none

/-- What an operator yields on Booleans and integers; `none` is undefined behaviour, or no operator
of the types. -/
def mirBinop (op : BinOp) : Val → Val → Option (Option Val)
  | .bool x, .bool y =>
    match op with
    | .eq => some (some (.bool (decide (x = y))))
    | .ne => some (some (.bool (decide (x ≠ y))))
    | .lt => some (some (.bool (decide (x < y))))
    | .le => some (some (.bool (decide (x ≤ y))))
    | .gt => some (some (.bool (decide (y < x))))
    | .ge => some (some (.bool (decide (y ≤ x))))
    | .bitAnd => some (some (.bool (x && y)))
    | .bitOr => some (some (.bool (x || y)))
    | .bitXor => some (some (.bool (x ^^ y)))
    | .cmp => some none
    | _ => none
  | .int t a, .int u b =>
    if op.isShift = true ∨ u = t then (op.mir t (t.read a) (u.read b)).map ofMirValue else none
  | _, _ => none

/-- What `+`, `-` and `*` with an overflow flag yield. -/
def mirChecked (op : BinOp) : Val → Val → Option (Val × Bool)
  | .int t a, .int u b =>
    if u = t then
      match op with
      | .add | .sub | .mul =>
        (op.mirChecked t (t.read a) (u.read b)).bind fun (result, flag) =>
          result.map fun result => (.int t result, flag)
      | _ => none
    else none
  | _, _ => none

/-- What a unary operator yields. -/
def mirUnop (op : UnOp) : Val → Option (Option Val)
  | .bool b =>
    match op with
    | .not => some (some (.bool !b))
    | _ => none
  | .int t a => (op.mir t (t.read a)).map ofMirValue

/-- What a cast between integer types yields. -/
def mirCast (t : IntTy) : Val → Val
  | .bool b => .int t (t.wrap b.toNat)
  | .int u a => .int t (t.wrap (u.read a))

/-! ### Constant evaluation is right -/

section Sound

variable {op : BinOp} {t u : IntTy} {a b : Val} {v : Val} {r : Option Val}

/-- An amount that is not negative is what it is of its type. -/
theorem read_of_nonneg {b : BitVec u.width} (h : 0 ≤ b.toInt) : u.read b = b.toInt := by
  rw [IntTy.read]
  split_ifs with hs
  · rfl
  · rw [BitVec.toInt_eq_toNat_cond] at h ⊢
    split_ifs at h ⊢ with hlt
    · rfl
    · have := b.isLt
      omega

theorem shiftDistance_of_lt {y : ℤ} (hlo : 0 ≤ y) (hhi : y < t.width) :
    shiftDistance t y = y.toNat := by rw [shiftDistance, Int.emod_eq_of_lt hlo hhi]

theorem checkedI128_eq_some {z z' : ℤ} (h : checkedI128 z = some z') :
    z' = z ∧ -2 ^ 127 ≤ z ∧ z < 2 ^ 127 := by
  obtain ⟨hrange, ⟨⟩⟩ := Option.ite_none_right_eq_some.1 h
  exact ⟨rfl, hrange⟩

theorem checkedU128_eq_some {z z' : ℤ} (h : checkedU128 z = some z') :
    z' = z ∧ 0 ≤ z ∧ z < 2 ^ 128 := by
  obtain ⟨hrange, ⟨⟩⟩ := Option.ite_none_right_eq_some.1 h
  exact ⟨rfl, hrange⟩

/-- What fits `i128` or `u128` and is not out of range is in range. -/
theorem inRange_of_not_outOfRange {z z' : ℤ}
    (h : (if t.signed then checkedI128 else checkedU128) z = some z')
    (hfits : outOfRange t z' = false) : z' = z ∧ t.InRange z := by
  rw [outOfRange, Bool.and_eq_false_iff] at hfits
  rw [IntTy.InRange]
  split_ifs at h hfits ⊢ with hs
  · obtain ⟨rfl, hrange⟩ := checkedI128_eq_some h
    refine ⟨rfl, ?_⟩
    rcases hfits with hwide | hfits
    · have hwidth : t.width = 128 := le_antisymm t.width_le (by simpa using hwide)
      rwa [hwidth]
    · simp only [Bool.or_eq_false_iff, decide_eq_false_iff_not] at hfits
      omega
  · obtain ⟨rfl, hrange⟩ := checkedU128_eq_some h
    refine ⟨rfl, ?_⟩
    rcases hfits with hwide | hfits
    · have hwidth : t.width = 128 := le_antisymm t.width_le (by simpa using hwide)
      rwa [hwidth]
    · rw [decide_eq_false_iff_not] at hfits
      omega

/-- The exact result, reduced to the type, is the operator's. -/
theorem mir_of_exactResult {checked : ℤ → Option ℤ}
    (hchecked : ∀ z z', checked z = some z' → z' = z) {x y z : ℤ} {m : MirValue t}
    (h : exactResult checked op x y = some z) (hm : op.mir t x y = some m) :
    ofMirValue m = some (.int t (t.wrap z)) := by
  cases op
  case add | sub | mul =>
    obtain rfl := hchecked _ _ h
    obtain rfl := Option.some.inj hm
    rfl
  case addUnchecked | subUnchecked | mulUnchecked =>
    obtain rfl := hchecked _ _ h
    obtain ⟨-, ⟨⟩⟩ := Option.ite_none_right_eq_some.1 hm
    rfl
  case div =>
    obtain ⟨-, hdiv⟩ := Option.ite_none_left_eq_some.1 h
    obtain rfl := hchecked _ _ hdiv
    obtain ⟨-, hm⟩ := Option.ite_none_left_eq_some.1 hm
    obtain ⟨-, ⟨⟩⟩ := Option.ite_none_right_eq_some.1 hm
    rfl
  case rem =>
    obtain ⟨-, hrem⟩ := Option.ite_none_left_eq_some.1 h
    obtain ⟨-, -, rfl⟩ := Option.map_eq_some_iff.1 hrem
    obtain ⟨-, ⟨⟩⟩ := Option.ite_none_left_eq_some.1 hm
    rfl
  all_goals cases h

theorem checked_eq_some {z z' : ℤ}
    (h : (if t.signed then checkedI128 else checkedU128) z = some z') : z' = z := by
  split_ifs at h
  · exact (checkedI128_eq_some h).1
  · exact (checkedU128_eq_some h).1

theorem evalSameType_sound {a b : BitVec t.width} {m : MirValue t}
    (h : evalSameType op t a b = some v) (hm : op.mir t (t.read a) (t.read b) = some m)
    (hop : op.isShift = false) : ofMirValue m = some v := by
  have hexact : ∀ {exact : ℤ}, exactResult (if t.signed then checkedI128 else checkedU128) op
      (t.read a) (t.read b) = some exact → v = .int t (t.wrap exact) → ofMirValue m = some v :=
    fun hexact hv => hv ▸ mir_of_exactResult (fun _ _ => checked_eq_some) hexact hm
  cases op
  case add | addUnchecked | sub | subUnchecked | mul | mulUnchecked | div | rem =>
    obtain ⟨exact, hres, hfits⟩ := Option.bind_eq_some_iff.1 h
    obtain ⟨-, ⟨⟩⟩ := Option.ite_none_left_eq_some.1 hfits
    exact hexact hres rfl
  case eq | ne =>
    obtain rfl := Option.some.inj h
    obtain rfl := Option.some.inj hm
    simp [ofMirValue, IntTy.read_inj, bne, beq_eq_decide]
  case lt | le | gt | ge =>
    obtain rfl := Option.some.inj h
    obtain rfl := Option.some.inj hm
    rfl
  case bitAnd | bitOr | bitXor =>
    obtain rfl := Option.some.inj h
    obtain rfl := Option.some.inj hm
    simp [ofMirValue, IntTy.wrap_read]
  case shl | shlUnchecked | shr | shrUnchecked => cases hop
  all_goals cases h

/-- Shifts by an amount below the width. -/
theorem mir_shift {a : BitVec t.width} {y : ℤ} {m : MirValue t} (hlo : 0 ≤ y) (hhi : y < t.width)
    (hop : op.isShift = true) (hm : op.mir t (t.read a) y = some m) :
    ofMirValue m = some (shifted op t a y.toNat) := by
  have hshl : mirShl t (t.read a) y = a <<< y.toNat := by
    rw [mirShl, shiftDistance_of_lt hlo hhi, IntTy.wrap_read]
  have hshr : mirShr t (t.read a) y =
      if t.signed then a.sshiftRight y.toNat else a >>> y.toNat := by
    rw [mirShr, shiftDistance_of_lt hlo hhi, IntTy.wrap_read]
  cases op
  case shl =>
    obtain rfl := Option.some.inj hm
    rw [ofMirValue, hshl, shifted]
  case shr =>
    obtain rfl := Option.some.inj hm
    rw [ofMirValue, hshr]
    rfl
  case shlUnchecked =>
    obtain ⟨-, ⟨⟩⟩ := Option.ite_none_right_eq_some.1 hm
    rw [ofMirValue, hshl, shifted]
  case shrUnchecked =>
    obtain ⟨-, ⟨⟩⟩ := Option.ite_none_right_eq_some.1 hm
    rw [ofMirValue, hshr]
    rfl
  all_goals cases hop

/-- **Constant evaluation is right** where the operator has a result. -/
theorem evalBinop_sound (h : evalBinop op a b = some v) (hr : mirBinop op a b = some r) :
    r = some v := by
  cases a with
  | bool x =>
    cases b with
    | bool y =>
      cases op <;> simp only [evalBinop, mirBinop, Option.some.injEq, reduceCtorEq] at h hr <;>
        rw [← hr, ← h] <;> cases x <;> cases y <;> rfl
    | int u b => cases h
  | int t a =>
    cases b with
    | bool y => cases h
    | int u b =>
      obtain ⟨-, hr⟩ := Option.ite_none_right_eq_some.1 hr
      obtain ⟨m, hm, rfl⟩ := Option.map_eq_some_iff.1 hr
      rw [evalBinop] at h
      by_cases hshift : op.isShift = true
      · rw [if_pos hshift] at h
        obtain ⟨hrange, ⟨⟩⟩ := Option.ite_none_left_eq_some.1 h
        rw [not_or, not_lt, not_le] at hrange
        rw [read_of_nonneg hrange.1] at hm
        exact mir_shift hrange.1 hrange.2 hshift hm
      · rw [if_neg hshift] at h
        split_ifs at h with htype
        subst htype
        exact evalSameType_sound h hm (by simpa using hshift)

/-- **No result overflows** where constant evaluation yields one. -/
theorem evalBinop_checked {flagged : Val × Bool} (h : evalBinop op a b = some v)
    (hr : mirChecked op a b = some flagged) : flagged = (v, false) := by
  cases a with
  | bool x => cases b <;> cases hr
  | int t a =>
    cases b with
    | bool y => cases hr
    | int u b =>
      obtain ⟨rfl, hr⟩ := Option.ite_none_right_eq_some.1 hr
      have hexact : ∀ {z : ℤ},
          ((if u.signed then checkedI128 else checkedU128) z).bind (fun exact =>
            if outOfRange u exact then none else some (Val.int u (u.wrap exact))) = some v →
          v = .int u (u.wrap z) ∧ decide (¬ u.InRange z) = false := by
        intro z hz
        obtain ⟨exact, hchecked, hfits⟩ := Option.bind_eq_some_iff.1 hz
        obtain ⟨hfits, ⟨⟩⟩ := Option.ite_none_left_eq_some.1 hfits
        obtain ⟨rfl, hrange⟩ := inRange_of_not_outOfRange hchecked (by simpa using hfits)
        exact ⟨rfl, by simpa using hrange⟩
      cases op
      case add | sub | mul =>
        rw [evalBinop, if_neg (by decide), dif_pos rfl] at h
        obtain ⟨rfl, hflag⟩ := hexact h
        rw [← Option.some.inj hr, hflag]
      all_goals cases hr

theorem evalUnop_sound {op : UnOp} (h : evalUnop op a = some v) (hr : mirUnop op a = some r) :
    r = some v := by
  cases a with
  | bool x =>
    cases op
    case not => exact (Option.some.inj hr).symm.trans h
    all_goals cases h
  | int t a =>
    obtain ⟨m, hm, rfl⟩ := Option.map_eq_some_iff.1 hr
    cases op
    case not =>
      obtain rfl := Option.some.inj hm
      rw [← Option.some.inj h, ofMirValue, IntTy.wrap_read]
    case neg =>
      obtain ⟨hs, hm⟩ := Option.ite_none_right_eq_some.1 hm
      obtain ⟨-, h⟩ := Option.ite_none_right_eq_some.1 h
      obtain ⟨neg, hneg, hfits⟩ := Option.bind_eq_some_iff.1 h
      obtain ⟨-, ⟨⟩⟩ := Option.ite_none_left_eq_some.1 hfits
      obtain ⟨rfl, -⟩ := checkedI128_eq_some hneg
      obtain rfl := Option.some.inj hm
      rw [ofMirValue, IntTy.read, if_pos hs]
    case ptrMetadata => cases h

theorem evalCast_eq (t : IntTy) (v : Val) : evalCast t v = mirCast t v := by
  cases v with
  | bool b => rw [evalCast, mirCast, IntTy.wrap, BitVec.ofInt_natCast]
  | int u a =>
    rw [evalCast, mirCast]
    refine congrArg (Val.int t) (BitVec.eq_of_toNat_eq (Int.natCast_inj.1 ?_))
    have hpow : (2 : ℤ) ^ t.width ∣ 2 ^ 128 := pow_dvd_pow 2 t.width_le
    rw [IntTy.toNat_wrap, truncate, BitVec.toNat_ofNat, Nat.mod_mod, IntTy.read]
    split_ifs
    · rw [BitVec.toNat_ofInt]
      push_cast
      rw [Int.toNat_of_nonneg (Int.emod_nonneg _ (by positivity))]
      exact Int.emod_emod_of_dvd _ hpow
    · push_cast
      rfl

end Sound

end ConstTrip

end TrustMc
