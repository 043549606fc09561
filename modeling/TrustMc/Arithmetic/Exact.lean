import TrustMc.Arithmetic.OnIntegers

/-!
# Where the operators are encoded exactly

`translateBinop` and `translateUnop` on operands that are bit-vectors or lifted integers, in
every mix: the term stands for the value of MIR exactly on the inputs of `BinOp.Exact` and
`UnOp.Exact` (`translateBinop_encoded_iff`, `translateUnop_encoded_iff`).
-/

namespace TrustMc

namespace Arithmetic

open Machine Carriers Carriers.Val TrustMc.Expr

variable {T : Theory} {ρ : T.Env} {t u : IntTy} {l r e : Expr} {x y : ℤ} {op : BinOp}
  {v : MirValue t}

/-! ### Mixed operands -/

theorem wellSorted_bvToInt (isSigned : Bool) {w : ℕ} (hw : 0 < w) (he : e.WellSorted)
    (hs : e.sort = .bitvec w) : (bvToInt isSigned e).WellSorted := by
  have hnat : (bv2int e).WellSorted := by
    simp [bv2int, Op.accepts, hs, he, SmtSort.isBitvec, SmtSort.bitvecWidth]
  cases isSigned with
  | false => exact hnat
  | true =>
    simp [bvToInt, bv2intSigned, bv2int, Op.accepts, Op.resultSort, hs, he, SmtSort.isBitvec,
      SmtSort.bitvecWidth, SmtSort.isBool, hw]

theorem coerceMixed_bits {b : BitVec t.width} {b' : BitVec u.width} (hl : l.eval ρ = ofBV b)
    (hr : r.eval ρ = ofBV b') (isSigned : Bool) : coerceMixed l r isSigned = (l, r) := by
  simp [coerceMixed, sort_of_ofBV hl, sort_of_ofBV hr]

/-- Where one operand is lifted, both become integers; a distance is read with the sign of the
value. -/
theorem exists_coerceMixed (hl : Operand ρ t l x) (hr : Operand ρ u r y)
    (h : l.sort = .int ∨ r.sort = .int) :
    ∃ l' r' y', coerceMixed l r t.signed = (l', r') ∧ l'.WellSorted ∧ r'.WellSorted ∧
      l'.eval ρ = ofInt x ∧ r'.eval ρ = ofInt y' ∧
        (y' = y ∨ y' = readAs t.signed (u.wrap y)) := by
  have hx : readAs t.signed (t.wrap x) = x := IntTy.read_wrap hl.inRange
  rcases hl.value with hlv | hlv <;> rcases hr.value with hrv | hrv
  · rw [sort_of_ofBV hlv, sort_of_ofBV hrv] at h
    simp at h
  · refine ⟨bvToInt t.signed l, r, y, ?_, ?_, hr.wellSorted, ?_, hrv, .inl rfl⟩
    · simp [coerceMixed, sort_of_ofBV hlv, sort_of_ofInt hrv, SmtSort.isBitvec,
        SmtSort.bitvecWidth]
    · exact wellSorted_bvToInt _ t.width_pos hl.wellSorted (sort_of_ofBV hlv)
    · rw [eval_bvToInt_of t.signed t.width_pos hlv, hx]
  · refine ⟨l, bvToInt t.signed r, readAs t.signed (u.wrap y), ?_, hl.wellSorted, ?_, hlv, ?_,
      .inr rfl⟩
    · simp [coerceMixed, sort_of_ofInt hlv, sort_of_ofBV hrv, SmtSort.isBitvec,
        SmtSort.bitvecWidth]
    · exact wellSorted_bvToInt _ u.width_pos hr.wellSorted (sort_of_ofBV hrv)
    · exact eval_bvToInt_of t.signed u.width_pos hrv
  · refine ⟨l, r, y, ?_, hl.wellSorted, hr.wellSorted, hlv, hrv, .inl rfl⟩
    simp [coerceMixed, sort_of_ofInt hlv, sort_of_ofInt hrv, SmtSort.isBitvec,
      SmtSort.bitvecWidth]

/-! ### Binary operators -/

section Binop

variable (floatBinop : BinOp → Expr → Expr → ℕ → Option Expr)

theorem translateBinop_bits {b : BitVec t.width} {b' : BitVec u.width}
    (hl : l.eval ρ = ofBV b) (hr : r.eval ρ = ofBV b') (h : op.isShift = true ∨ u = t)
    (isSigned : Bool) (n : ℕ) :
    translateBinop floatBinop op l r isSigned n false = binopTerm op l r isSigned n := by
  have hcoerce : (if l.sort.isBitvec ∧ ¬ op.isShift then coerceArithmeticOperands l r isSigned
      else (l, r)) = (l, r) := by
    rcases h with h | rfl
    · simp [h]
    · simp [coerceArithmeticOperands, coerceToMaxWidth, sort_of_ofBV hl, sort_of_ofBV hr,
        SmtSort.bitvecWidth]
  simp only [translateBinop, coerceMixed_bits hl hr, hcoerce]
  simp [sort_of_ofBV hr, SmtSort.isBitvec, SmtSort.bitvecWidth]

theorem translateBinop_lifted {l' r' : Expr} {z : ℤ} {isSigned : Bool}
    (h : coerceMixed l r isSigned = (l', r')) (hl : l'.eval ρ = ofInt z) (n : ℕ) :
    translateBinop floatBinop op l r isSigned n false = binopTerm op l' r' isSigned n := by
  simp only [translateBinop, h]
  simp [sort_of_ofInt hl, SmtSort.isBitvec, SmtSort.bitvecWidth]

theorem exact_congr {p q : Prop} (h : p ↔ q) : op.Exact t p x y ↔ op.Exact t q x y := by
  rw [propext h]

/-- A binary operator is encoded by a term for the value of MIR exactly on the inputs of
`BinOp.Exact`. -/
theorem translateBinop_encoded_iff (hl : Operand ρ t l x) (hr : Operand ρ u r y)
    (hu : op.isShift = true ∨ u = t) (hv : op.mir t x y = some v) :
    v.Encoded ρ (translateBinop floatBinop op l r t.signed t.width false) ↔
      op.Exact t (l.sort = .int ∨ r.sort = .int) x y := by
  by_cases hlift : l.sort = .int ∨ r.sort = .int
  · obtain ⟨l', r', y', hmixed, hlw, hrw, hlv, hrv, hread⟩ := exists_coerceMixed hl hr hlift
    rw [translateBinop_lifted floatBinop hmixed hlv, exact_congr (iff_true_intro hlift)]
    cases hop : op.isShift with
    | true => exact shiftTerm_ints_iff hlv hrv hl.inRange hr.inRange hread hop hv
    | false =>
      obtain rfl : u = t := hu.resolve_left (by simp [hop])
      have hself : readAs u.signed (u.wrap y) = y := IntTy.read_wrap hr.inRange
      obtain rfl : y' = y := by rwa [hself, or_self] at hread
      exact binopTerm_ints_iff hlv hrv hl.inRange hlw hrw hop hv
  · -- both operands are bit-vectors
    have hlv := hl.value.resolve_right fun h => hlift (.inl (sort_of_ofInt h))
    have hrv := hr.value.resolve_right fun h => hlift (.inr (sort_of_ofInt h))
    rw [translateBinop_bits floatBinop hlv hrv hu]
    cases hop : op.isShift with
    | true => exact shiftTerm_bits_iff hlv hrv hl.inRange hr.inRange hop hv
    | false =>
      obtain rfl : u = t := hu.resolve_left (by simp [hop])
      refine iff_of_true
        (binopTerm_bits hlv hrv hl.inRange hr.inRange hl.wellSorted hr.wellSorted hop hv) ?_
      cases op <;> first | exact fun h => absurd h hlift | trivial

end Binop

/-! ### Unary operators -/

/-- A unary operator is encoded by a term for the value of MIR exactly on the inputs of
`UnOp.Exact`. -/
theorem translateUnop_encoded_iff {op : UnOp} (he : Operand ρ t e x)
    (hv : op.mir t x = some v) :
    v.Encoded ρ (translateUnop op e t.width t.signed) ↔ op.Exact t (e.sort = .int) x := by
  cases op with
  | not =>
    injection hv with hv
    subst hv
    refine iff_of_true ?_ trivial
    rcases he.value with hbits | hint
    · have hterm : translateUnop .not e t.width t.signed = some (.app (.bvUn .not) [e]) := by
        simp [translateUnop, sort_of_ofBV hbits, SmtSort.isBitvec, SmtSort.bitvecWidth]
      rw [hterm, encoded_some, denoted_int_ofBV (eval_bvUn_of hbits)]
      rfl
    · have hterm : translateUnop .not e t.width t.signed =
          some (bvToInt t.signed (.app (.bvUn .not) [int2bv t.width e])) := by
        simp [translateUnop, sort_of_ofInt hint, SmtSort.isBitvec, SmtSort.bitvecWidth]
      have heval := eval_bvUn_of (f := .not) (eval_int2bv_of (w := t.width) hint)
      rw [hterm, encoded_some, denoted_int_ofInt (eval_bvToInt_of t.signed t.width_pos heval)]
      rfl
  | neg =>
    simp only [UnOp.mir, Option.ite_none_right_eq_some, Option.some.injEq] at hv
    obtain ⟨-, rfl⟩ := hv
    rcases he.value with hbits | hint
    · have hterm : translateUnop .neg e t.width t.signed = some (.app (.bvUn .neg) [e]) := by
        simp [translateUnop, sort_of_ofBV hbits, SmtSort.isBitvec, SmtSort.bitvecWidth]
      have hnot : e.sort ≠ .int := by simp [sort_of_ofBV hbits]
      rw [hterm, encoded_some, denoted_int_ofBV (eval_bvUn_of hbits)]
      exact iff_of_true neg_wrap fun h => absurd h hnot
    · have hterm : translateUnop .neg e t.width t.signed = some (.app .intNeg [e]) := by
        simp [translateUnop, sort_of_ofInt hint]
      rw [hterm, encoded_some, denoted_int_ofInt (eval_intNeg_of hint), eq_comm,
        IntTy.read_wrap_eq_iff]
      simp [UnOp.Exact, sort_of_ofInt hint]
  | ptrMetadata => cases hv

end Arithmetic

end TrustMc
