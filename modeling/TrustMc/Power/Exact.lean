import TrustMc.Arithmetic.Checked
import TrustMc.Power.Handlers

/-!
# Powers and Euclidean division are exact

What the terms of the handlers evaluate to, and from it what their edges say of the destination:
`call_follows_rust`. Panics of Rust have no edge to error.
-/

namespace TrustMc

namespace Power

open Machine Arithmetic TrustMc.Expr Carriers Carriers.Val

variable {T : Theory} {ρ : T.Env} {t : IntTy} {x y : ℤ} {a b e : Expr}

/-! ### Terms -/

theorem eval_bvConst (width n : ℕ) : (bvConst width n).eval ρ = ofBV (BitVec.ofNat width n) :=
  eval_bitVecConst _

/-- A term of the width is left alone. -/
theorem coerceBitvecWidthSafe_self {w : ℕ} (h : e.sort = .bitvec w) (ext : SignExtension) :
    coerceBitvecWidthSafe e w ext = e := by
  rw [coerceBitvecWidthSafe, h]
  exact if_pos rfl

/-- An exponent below the number of values keeps its value. -/
theorem eval_exponent {w : ℕ} {d : BitVec w} (he : e.eval ρ = ofBV d)
    (hd : d.toNat < 2 ^ t.width) :
    ∃ d' : BitVec t.width, (coerceBitvecWidthSafe e t.width .zeroExtend).eval ρ = ofBV d' ∧
      d'.toNat = d.toNat := by
  obtain ⟨d', hd', hnat⟩ := eval_coerceBitvecWidthSafe_of .zeroExtend t.width_pos he
  refine ⟨d', hd', ?_⟩
  have hread : readAs (SignExtension.zeroExtend == .signExtend) d = (d.toNat : ℤ) := rfl
  rw [hread] at hnat
  have hmod : ((d.toNat % 2 ^ t.width : ℕ) : ℤ) = d'.toNat := by
    rw [hnat]
    push_cast
    rfl
  rw [Nat.mod_eq_of_lt hd] at hmod
  exact_mod_cast hmod.symm

/-- The folded power. -/
theorem eval_powConst (base exp : ℕ) :
    (bvConst t.width (base ^ exp % 2 ^ 128)).eval ρ = ofBV (t.wrap ((base : ℤ) ^ exp)) := by
  rw [eval_bvConst, ofBV_inj, ← BitVec.toNat_inj, ← Int.natCast_inj,
    IntTy.toNat_wrap, BitVec.toNat_ofNat, Nat.mod_mod_of_dvd _ (pow_dvd_pow 2 t.width_le)]
  push_cast
  rfl

/-- The shifted one. -/
theorem eval_powShift {d : BitVec t.width} (he : e.eval ρ = ofBV d) :
    (Expr.bv .shl (bvConst t.width 1) e).eval ρ = ofBV (t.wrap (2 ^ d.toNat)) := by
  rw [eval_bv_of (eval_bvConst _ _) he, BvBin.denote, BitVec.shiftLeft_eq', wrap_two_pow]

/-- The function of a handler. -/
def EuclidOp.denote : EuclidOp → ℤ → ℤ → ℤ
  | div, x, y => x / y
  | rem, x, y => x % y

theorem eval_ite_ofBV {w : ℕ} {c : Expr} {p : Prop} [Decidable p] {u v : BitVec w}
    (hc : c.eval ρ = ofBool (decide p)) (ha : a.eval ρ = ofBV u) (hb : b.eval ρ = ofBV v) :
    (Expr.ite c a b).eval ρ = ofBV (if p then u else v) := by
  rw [eval_ite_of hc ((sort_of_ofBV ha).trans (sort_of_ofBV hb).symm), ha, hb]
  by_cases hp : p <;> simp [hp]

/-- The term without the shortcut has the Euclidean result wherever the divisor is not zero. -/
theorem eval_euclidPlain (op : EuclidOp) (ha : a.eval ρ = ofBV (t.wrap x))
    (hb : b.eval ρ = ofBV (t.wrap y)) (hx : t.InRange x) (hy : t.InRange y) (h : y ≠ 0) :
    (euclidPlain op t.signed t.width a b).eval ρ = ofBV (t.wrap (op.denote x y)) := by
  have hzero : (bvConst t.width 0).eval ρ = ofBV (t.wrap 0) := by
    rw [eval_bvConst, wrap_zero]
  have hone : (bvConst t.width 1).eval ρ = ofBV (t.wrap 1) := eval_bvConst _ _
  by_cases hs : t.signed = true
  · have hr : (Expr.bv .srem a b).eval ρ = ofBV (t.wrap (x.tmod y)) := by
      rw [eval_bv_of ha hb, BvBin.denote, srem_wrap hs hx hy]
    have hneg : (Expr.bvCmp .slt (.bv .srem a b) (bvConst t.width 0)).eval ρ =
        ofBool (decide (x.tmod y < 0)) := by
      rw [eval_bvCmp_of hr hzero, BvCmp.denote, slt_wrap hs (hx.tmod y) inRange_zero]
    cases op with
    | div =>
      have hq : (Expr.bv .sdiv a b).eval ρ = ofBV (t.wrap (x.tdiv y)) := by
        rw [eval_bv_of ha hb, BvBin.denote, smtSDiv_wrap hs hx hy h]
      have hpos : (Expr.bvCmp .sgt b (bvConst t.width 0)).eval ρ = ofBool (decide (0 < y)) := by
        rw [eval_bvCmp_of hb hzero, BvCmp.denote, slt_wrap hs inRange_zero hy]
      rw [euclidPlain, if_pos hs,
        eval_ite_ofBV hneg (eval_ite_ofBV hpos (eval_bv_of hq hone) (eval_bv_of hq hone)) hq,
        EuclidOp.denote, ediv_eq_adjusted h]
      simp only [BvBin.denote, wrap_sub, wrap_add]
      split_ifs <;> rfl
    | rem =>
      have hbneg : (Expr.bvCmp .slt b (bvConst t.width 0)).eval ρ = ofBool (decide (y < 0)) := by
        rw [eval_bvCmp_of hb hzero, BvCmp.denote, slt_wrap hs hy inRange_zero]
      rw [euclidPlain, if_pos hs,
        eval_ite_ofBV hneg (eval_ite_ofBV hbneg (eval_bv_of hr hb) (eval_bv_of hr hb)) hr,
        EuclidOp.denote, emod_eq_adjusted h]
      simp only [BvBin.denote, wrap_sub, wrap_add]
      split_ifs <;> rfl
  · have hs' : t.signed = false := by simpa using hs
    cases op with
    | div =>
      rw [euclidPlain, if_neg hs, EuclidOp.denote, eval_bv_of ha hb, BvBin.denote,
        smtUDiv_wrap hs' hx hy h, Int.tdiv_eq_ediv_of_nonneg (hx.nonneg hs')]
    | rem =>
      rw [euclidPlain, if_neg hs, EuclidOp.denote, eval_bv_of ha hb, BvBin.denote,
        umod_wrap hs' hx hy, Int.tmod_eq_emod_of_nonneg (hx.nonneg hs')]

/-- The shift and the mask divide by the power of two. -/
theorem eval_euclidPow2 (op : EuclidOp) (ha : a.eval ρ = ofBV (t.wrap x)) (hx : t.InRange x)
    {d : BitVec t.width} (he : e.eval ρ = ofBV d) (hd : d.toNat ≤ t.width) :
    (euclidPow2 op t.signed t.width a e).eval ρ =
      ofBV (t.wrap (op.denote x (2 ^ d.toNat))) := by
  cases op with
  | div =>
    rw [euclidPow2, EuclidOp.denote]
    by_cases hs : t.signed = true
    · rw [if_pos hs, eval_bv_of ha he, BvBin.denote, BitVec.sshiftRight_eq',
        sshiftRight_wrap hs hx]
    · rw [if_neg hs, eval_bv_of ha he, BvBin.denote, BitVec.ushiftRight_eq',
        ushiftRight_wrap (by simpa using hs) hx]
  | rem =>
    have hone : (bvConst t.width 1).eval ρ = ofBV 1#t.width := eval_bvConst _ _
    rw [euclidPow2, EuclidOp.denote, eval_bv_of ha (eval_bv_of (eval_bv_of hone he) hone)]
    exact congrArg ofBV (and_mask_wrap hd)

/-! ### Destinations -/

namespace Call

variable (call : Call)

/-- The destination of an integer is a bit-vector of its width or lifted. -/
def WellTyped : Prop :=
  ∀ name sort, call.destination = some (name, sort) → sort = .bitvec call.ty.width ∨ sort = .int

/-- The constraint of the edge says that the destination has the value. -/
def Sets (ρ : T.Env) (edge : Edge) (v : BitVec call.ty.width) : Prop :=
  ∃ name sort c, call.destination = some (name, sort) ∧ edge.extra = [c] ∧
    (Holds ρ c ↔ (MirValue.int v : MirValue call.ty).Denoted ρ (.var name sort))

variable {call}

theorem sets_of_assign (hdest : call.WellTyped) {edge : Edge} (h : call.assign e = some edge)
    {v : BitVec call.ty.width} (he : e.eval ρ = ofBV v) : call.Sets ρ edge v := by
  obtain ⟨⟨name, sort⟩, hname, rfl⟩ := Option.map_eq_some_iff.1 h
  have hsort := sort_of_ofBV he
  rcases hdest name sort hname with rfl | rfl
  · refine ⟨name, _, .eq (.var name (.bitvec call.ty.width)) e, hname, ?_, ?_⟩
    · exact congrArg Option.toList (if_pos hsort)
    · rw [holds_eq, he, MirValue.Denoted]
      refine ⟨.inl, fun h => h.resolve_right fun h => ?_⟩
      have := sort_of_ofInt h
      cases this
  · refine ⟨name, _, .eq (.var name .int) (bvToInt call.ty.signed e), hname, ?_, ?_⟩
    · exact congrArg Option.toList (if_neg (by simp [hsort]))
    · rw [holds_eq, eval_bvToInt_of call.ty.signed call.ty.width_pos he, MirValue.Denoted]
      refine ⟨.inr, fun h => h.resolve_left fun h => ?_⟩
      have := sort_of_ofBV h
      cases this

variable (call)

/-- The arguments are the integers `x` and, of type `u`, `y`. -/
structure Reads (ρ : T.Env) (u : IntTy) (x y : ℤ) : Prop where
  const0 : ∀ z, call.args0 = .constant (some z) → z = x
  const1 : ∀ z, call.args1 = .constant (some z) → z = y
  inRange0 : call.ty.InRange x
  inRange1 : u.InRange y
  term0 : ∀ e, call.resolve call.args0 = some e → Operand ρ call.ty e x
  term1 : ∀ e, call.resolve call.args1 = some e → Operand ρ u e y

/-- Where the handler constrains the destination. -/
def Encoded : Handler → Prop
  | .pow => call.destination.isSome ∧ (tryExtractConstU128 call.args0).isSome ∧
      ((tryExtractConstU128 call.args1).isSome ∨
        tryExtractConstU128 call.args0 = some 2 ∧ (call.resolve call.args1).isSome)
  | .euclid _ => call.destination.isSome ∧
      (∃ e, call.resolve call.args0 = some e ∧ e.sort.isBitvec) ∧
        ∃ e, call.resolve call.args1 = some e ∧ e.sort.isBitvec

/-- The call recorded the exponent for the local. -/
def Recorded (loc : ℕ) (e : Expr) : Prop :=
  call.destLocal = loc ∧ tryExtractConstU128 call.args0 = some 2 ∧ e.sort = .bitvec call.ty.width ∧
    ∃ exp, call.resolve call.args1 = some exp ∧
      e = coerceBitvecWidthSafe exp call.ty.width .zeroExtend

end Call

/-- `y` is two to the exponent. -/
def FactHolds (ρ : T.Env) (e : Expr) (y : ℤ) : Prop :=
  ∃ (w : ℕ) (d : BitVec w), e.eval ρ = ofBV d ∧ y = 2 ^ d.toNat

/-- What is beyond the encoding: an exponent that does not fit the width, for a power that wraps,
and a record that does not hold any more, for a division. -/
def Kept (known : KnownPow2) (ρ : T.Env) (call : Call) (y : ℤ) : RustOp → Prop
  | .pow => True
  | .wrappingPow => (tryExtractConstU128 call.args1).isSome ∨ y < 2 ^ call.ty.width
  | .divEuclid | .remEuclid => ∀ e, recordedExponent known call.args1 = some e → FactHolds ρ e y

/-! ### Powers -/

section Pow

variable {call : Call} {known known' : KnownPow2} {edges : List Edge}

theorem tryExtractConstU128_eq_some {o : CallOperand} {n : ℕ} (h : tryExtractConstU128 o = some n) :
    o = .constant (some n) := by
  match o, h with
  | .constant (some z), h =>
    rw [tryExtractConstU128] at h
    split_ifs at h with hz
    obtain rfl := Option.some.inj h
    rw [Int.toNat_of_nonneg hz]

theorem lt_width_of_inRange {n : ℕ} (h : t.InRange (2 ^ n)) : n < t.width :=
  (pow_lt_pow_iff_right₀ (by norm_num : (1 : ℤ) < 2)).1 h.lt

/-- The value of the exponent of a power of two. -/
theorem eval_expCoerced (hreads : call.Reads ρ RustOp.u32 x y) {exp : Expr}
    (hexp : call.resolve call.args1 = some exp)
    (hsort : (coerceBitvecWidthSafe exp call.ty.width .zeroExtend).sort = .bitvec call.ty.width)
    (hy : y < 2 ^ call.ty.width) :
    ∃ d : BitVec call.ty.width,
      (coerceBitvecWidthSafe exp call.ty.width .zeroExtend).eval ρ = ofBV d ∧
        d.toNat = y.toNat := by
  have hterm := hreads.term1 exp hexp
  have hnat : ((RustOp.u32.wrap y).toNat : ℤ) = y :=
    IntTy.toNat_wrap_of_unsigned rfl hterm.inRange
  rcases hterm.value with hval | hval
  · have hlt : (RustOp.u32.wrap y).toNat < 2 ^ call.ty.width := by
      rw [← hnat] at hy
      exact_mod_cast hy
    obtain ⟨d, hd, hdnat⟩ := eval_exponent hval hlt
    exact ⟨d, hd, by omega⟩
  · -- a lifted exponent is left alone, and `bvshl` takes no integer
    have hint : exp.sort = .int := sort_of_ofInt hval
    rw [coerceBitvecWidthSafe, hint] at hsort
    simp [SmtSort.bitvecWidth, SmtSort.isBool, hint] at hsort

/-- What the handler can do. -/
theorem codegenPow_cases (h : codegenPow known call = some (known', edges)) :
    (∃ base exp edge, tryExtractConstU128 call.args0 = some base ∧
        tryExtractConstU128 call.args1 = some exp ∧ exp < 2 ^ 32 ∧
        call.assign (bvConst call.ty.width (base ^ exp % 2 ^ 128)) = some edge ∧
        known' = known ∧ edges = [edge]) ∨
      (∃ exp edge, codegenPowConst call = none ∧ tryExtractConstU128 call.args0 = some 2 ∧
        call.resolve call.args1 = some exp ∧
        (coerceBitvecWidthSafe exp call.ty.width .zeroExtend).sort = .bitvec call.ty.width ∧
        call.assign (.bv .shl (bvConst call.ty.width 1)
          (coerceBitvecWidthSafe exp call.ty.width .zeroExtend)) = some edge ∧
        known' = Function.update known call.destLocal
          (some (coerceBitvecWidthSafe exp call.ty.width .zeroExtend)) ∧ edges = [edge]) ∨
      codegenPowConst call = none ∧ (call.destination = none ∨
        tryExtractConstU128 call.args0 ≠ some 2 ∨ call.resolve call.args1 = none) ∧
        known' = known ∧ edges = [call.fallback] := by
  rw [codegenPow] at h
  cases hconst : codegenPowConst call with
  | some edge =>
    simp only [hconst, Option.some.injEq, Prod.mk.injEq] at h
    simp only [codegenPowConst, Option.bind_eq_bind, Option.bind_eq_some_iff] at hconst
    obtain ⟨base, hbase, exp, hexp, hassign⟩ := hconst
    split_ifs at hassign with hlt
    exact .inl ⟨base, exp, edge, hbase, hexp, hlt, hassign, h.1.symm, h.2.symm⟩
  | none =>
    simp only [hconst] at h
    split_ifs at h with htwo
    · cases hexp : call.resolve call.args1 with
      | none =>
        simp only [hexp, Option.some.injEq, Prod.mk.injEq] at h
        exact .inr (.inr ⟨rfl, .inr (.inr rfl), h.1.symm, h.2.symm⟩)
      | some exp =>
        simp only [hexp] at h
        split_ifs at h with hsort
        cases hassign : call.assign (.bv .shl (bvConst call.ty.width 1)
            (coerceBitvecWidthSafe exp call.ty.width .zeroExtend)) with
        | some edge =>
          simp only [hassign, Option.some.injEq, Prod.mk.injEq] at h
          exact .inr (.inl ⟨exp, edge, rfl, htwo, rfl, hsort, hassign, h.1.symm, h.2.symm⟩)
        | none =>
          simp only [hassign, Option.some.injEq, Prod.mk.injEq] at h
          exact .inr (.inr ⟨rfl, .inl (Option.map_eq_none_iff.1 hassign), h.1.symm, h.2.symm⟩)
    · simp only [Option.some.injEq, Prod.mk.injEq] at h
      exact .inr (.inr ⟨rfl, .inr (.inl htwo), h.1.symm, h.2.symm⟩)

theorem Call.assign_goto {edge : Edge} (h : call.assign e = some edge) :
    call.destination.isSome ∧ edge.target = .block call.target ∧
      edge.stmtConstraints = call.stmtConstraints := by
  obtain ⟨dest, hdest, rfl⟩ := Option.map_eq_some_iff.1 h
  exact ⟨by rw [hdest]; rfl, rfl, rfl⟩

/-- Two constants are folded unless the destination is not resolved. -/
theorem destination_of_codegenPowConst (hreads : call.Reads ρ RustOp.u32 x y) {base exp : ℕ}
    (hnone : codegenPowConst call = none) (hbase : tryExtractConstU128 call.args0 = some base)
    (hexp : tryExtractConstU128 call.args1 = some exp) : call.destination = none := by
  have hy := hreads.inRange1.lt
  obtain rfl := hreads.const1 exp (tryExtractConstU128_eq_some hexp)
  have hlt : exp < 2 ^ 32 := by exact_mod_cast hy
  simp only [codegenPowConst, hbase, hexp, Option.bind_eq_bind, Option.bind_some, hlt,
    if_true] at hnone
  exact Option.map_eq_none_iff.1 hnone

theorem codegenPow_exact (h : codegenPow known call = some (known', edges))
    (hdest : call.WellTyped) :
    ∃ edge, edges = [edge] ∧ edge.target = .block call.target ∧
      edge.stmtConstraints = call.stmtConstraints ∧ (¬ call.Encoded .pow → edge.extra = []) ∧
      (call.Encoded .pow → ∀ {T : Theory} (ρ : T.Env) (x y : ℤ), call.Reads ρ RustOp.u32 x y →
        (tryExtractConstU128 call.args1).isSome ∨ y < 2 ^ call.ty.width →
          call.Sets ρ edge (call.ty.wrap (x ^ y.toNat))) := by
  rcases codegenPow_cases h with ⟨base, exp, edge, hbase, hexp, -, hassign, -, rfl⟩ |
    ⟨exp, edge, hconst, htwo, hexp, hsort, hassign, -, rfl⟩ | ⟨hconst, hnot, -, rfl⟩
  · obtain ⟨hsome, htarget, hstmt⟩ := Call.assign_goto hassign
    refine ⟨edge, rfl, htarget, hstmt, fun hne => ?_, fun _ T ρ x y hreads _ => ?_⟩
    · exact absurd ⟨hsome, by rw [hbase]; rfl, .inl (by rw [hexp]; rfl)⟩ hne
    · obtain rfl := hreads.const0 base (tryExtractConstU128_eq_some hbase)
      obtain rfl := hreads.const1 exp (tryExtractConstU128_eq_some hexp)
      exact Call.sets_of_assign hdest hassign (eval_powConst base exp)
  · obtain ⟨hsome, htarget, hstmt⟩ := Call.assign_goto hassign
    refine ⟨edge, rfl, htarget, hstmt, fun hne => ?_, fun _ T ρ x y hreads hfits => ?_⟩
    · exact absurd ⟨hsome, by rw [htwo]; rfl, .inr ⟨htwo, by rw [hexp]; rfl⟩⟩ hne
    · have hy : y < 2 ^ call.ty.width := hfits.resolve_left fun hconst1 => by
        obtain ⟨n, hn⟩ := Option.isSome_iff_exists.1 hconst1
        have hnone := destination_of_codegenPowConst hreads hconst htwo hn
        rw [hnone] at hsome
        cases hsome
      obtain rfl := hreads.const0 _ (tryExtractConstU128_eq_some htwo)
      obtain ⟨d, hd, hnat⟩ := eval_expCoerced hreads hexp hsort hy
      rw [← hnat]
      exact Call.sets_of_assign hdest hassign (eval_powShift hd)
  · refine ⟨call.fallback, rfl, rfl, rfl, fun _ => rfl, ?_⟩
    rintro ⟨hsome, hbase, hexp⟩ T ρ x y hreads -
    exfalso
    rcases hexp with hexp | ⟨htwo, hexp⟩
    · obtain ⟨base, hbase⟩ := Option.isSome_iff_exists.1 hbase
      obtain ⟨exp, hexp⟩ := Option.isSome_iff_exists.1 hexp
      rw [destination_of_codegenPowConst hreads hconst hbase hexp] at hsome
      cases hsome
    · rcases hnot with hnot | hnot | hnot
      · rw [hnot] at hsome
        cases hsome
      · exact hnot htwo
      · rw [hnot] at hexp
        cases hexp

end Pow

/-! ### Divisions -/

section Euclid

variable {call : Call} {known : KnownPow2}

theorem isBitvec_of_operand (h : Operand ρ t e x) (hbv : e.sort.isBitvec = true) :
    e.eval ρ = ofBV (t.wrap x) :=
  h.value.resolve_right fun hint => by
    rw [sort_of_ofInt hint] at hbv
    cases hbv

/-- The divisor of a shortcut whose record holds. -/
theorem eval_recorded {exp : Expr} (hfact : FactHolds ρ exp y) (hy : t.InRange y) :
    ∃ d : BitVec t.width, (coerceBitvecWidthSafe exp t.width .zeroExtend).eval ρ = ofBV d ∧
      d.toNat < t.width ∧ y = 2 ^ d.toNat := by
  obtain ⟨w, d, hd, rfl⟩ := hfact
  have hlt := lt_width_of_inRange hy
  obtain ⟨d', hd', hnat⟩ := eval_exponent hd (hlt.trans Nat.lt_two_pow_self)
  exact ⟨d', hd', hnat ▸ hlt, by rw [hnat]⟩

/-- Where the destination is not resolved both terms are dropped. -/
theorem Call.assign_eq_none (h : call.destination = none) (e : Expr) : call.assign e = none := by
  rw [Call.assign, h]
  rfl

theorem Call.exists_assign (h : call.destination.isSome) (e : Expr) :
    ∃ edge, call.assign e = some edge := by
  obtain ⟨dest, hdest⟩ := Option.isSome_iff_exists.1 h
  exact ⟨_, by rw [Call.assign, hdest, Option.map_some]⟩

/-- The term the destination is set to: with a recorded exponent that of the shortcut. -/
def euclidTerm (known : KnownPow2) (call : Call) (op : EuclidOp) (width : ℕ) (a b : Expr) : Expr :=
  match recordedExponent known call.args1 with
  | some exp =>
    euclidPow2 op call.ty.signed width a (coerceBitvecWidthSafe exp width .zeroExtend)
  | none => euclidPlain op call.ty.signed width a b

/-- What the handler can do. -/
theorem codegenEuclid_cases (known : KnownPow2) (call : Call) (op : EuclidOp) :
    (∃ l r lw rw edge, call.resolve call.args0 = some l ∧ call.resolve call.args1 = some r ∧
        l.sort.bitvecWidth = some lw ∧ r.sort.bitvecWidth = some rw ∧
        call.assign (euclidTerm known call op (max lw rw)
          (coerceBitvecWidthSafe l (max lw rw) (.forSignedness call.ty.signed))
          (coerceBitvecWidthSafe r (max lw rw) (.forSignedness call.ty.signed))) = some edge ∧
        codegenEuclid known call op = [edge]) ∨
      ¬ call.Encoded (.euclid op) ∧ codegenEuclid known call op = [call.fallback] := by
  rw [codegenEuclid]
  cases hl : call.resolve call.args0 with
  | none => exact .inr ⟨fun ⟨_, ⟨e, he, _⟩, _⟩ => Option.some_ne_none e (he.symm.trans hl), rfl⟩
  | some l =>
    cases hr : call.resolve call.args1 with
    | none => exact .inr ⟨fun ⟨_, _, e, he, _⟩ => Option.some_ne_none e (he.symm.trans hr), rfl⟩
    | some r =>
      cases hlw : l.sort.bitvecWidth with
      | none =>
        refine .inr ⟨fun ⟨_, ⟨e, he, hbv⟩, _⟩ => ?_, by simp only [hlw]⟩
        obtain rfl := Option.some.inj (hl.symm.trans he)
        rw [SmtSort.isBitvec, hlw] at hbv
        cases hbv
      | some lw =>
        cases hrw : r.sort.bitvecWidth with
        | none =>
          refine .inr ⟨fun ⟨_, _, e, he, hbv⟩ => ?_, by simp only [hlw, hrw]⟩
          obtain rfl := Option.some.inj (hr.symm.trans he)
          rw [SmtSort.isBitvec, hrw] at hbv
          cases hbv
        | some rw' =>
          simp only [hlw, hrw]
          cases hd : call.destination with
          | none =>
            refine .inr ⟨fun hencoded => by simp [Call.Encoded, hd] at hencoded, ?_⟩
            rw [codegenEuclidPow2]
            cases recordedExponent known call.args1 <;> simp [Call.assign_eq_none hd]
          | some dest =>
            have hsome : call.destination.isSome := by rw [hd]; rfl
            obtain ⟨edge, hedge⟩ := Call.exists_assign hsome (euclidTerm known call op (max lw rw')
              (coerceBitvecWidthSafe l (max lw rw') (.forSignedness call.ty.signed))
              (coerceBitvecWidthSafe r (max lw rw') (.forSignedness call.ty.signed)))
            refine .inl ⟨l, r, lw, rw', edge, rfl, rfl, hlw, hrw, hedge, ?_⟩
            rw [codegenEuclidPow2]
            rw [euclidTerm] at hedge
            cases hrec : recordedExponent known call.args1 with
            | none =>
              rw [hrec] at hedge
              simp [hedge]
            | some exp =>
              rw [hrec] at hedge
              simp [hedge]

/-- The shortcut and the division it stands for. -/
theorem eval_euclidTerm (op : EuclidOp) (ha : a.eval ρ = ofBV (call.ty.wrap x))
    (hb : b.eval ρ = ofBV (call.ty.wrap y)) (hx : call.ty.InRange x) (hy : call.ty.InRange y)
    (h : y ≠ 0) (hkept : ∀ e, recordedExponent known call.args1 = some e → FactHolds ρ e y) :
    (euclidTerm known call op call.ty.width a b).eval ρ = ofBV (call.ty.wrap (op.denote x y)) := by
  rw [euclidTerm]
  cases hrec : recordedExponent known call.args1 with
  | none => exact eval_euclidPlain op ha hb hx hy h
  | some exp =>
    obtain ⟨d, hd, hlt, hyd⟩ := eval_recorded (hkept exp hrec) hy
    rw [hyd]
    exact eval_euclidPow2 op ha hx hd hlt.le

theorem codegenEuclid_exact (op : EuclidOp) (hdest : call.WellTyped) :
    ∃ edge, codegenEuclid known call op = [edge] ∧ edge.target = .block call.target ∧
      edge.stmtConstraints = call.stmtConstraints ∧
      (¬ call.Encoded (.euclid op) → edge.extra = []) ∧
      (call.Encoded (.euclid op) → ∀ {T : Theory} (ρ : T.Env) (x y : ℤ),
        call.Reads ρ call.ty x y → y ≠ 0 →
        (∀ e, recordedExponent known call.args1 = some e → FactHolds ρ e y) →
          call.Sets ρ edge (call.ty.wrap (op.denote x y))) := by
  rcases codegenEuclid_cases known call op with
    ⟨l, r, lw, rw', edge, hl, hr, hlw, hrw, hassign, hedges⟩ | ⟨hne, hedges⟩
  · obtain ⟨hsome, htarget, hstmt⟩ := Call.assign_goto hassign
    have hlbv : l.sort.isBitvec = true := by rw [SmtSort.isBitvec, hlw]; rfl
    have hrbv : r.sort.isBitvec = true := by rw [SmtSort.isBitvec, hrw]; rfl
    refine ⟨edge, hedges, htarget, hstmt, fun hne => ?_, fun _ T ρ x y hreads hy hkept => ?_⟩
    · exact absurd ⟨hsome, ⟨l, hl, hlbv⟩, r, hr, hrbv⟩ hne
    · have hlval := isBitvec_of_operand (hreads.term0 l hl) hlbv
      have hrval := isBitvec_of_operand (hreads.term1 r hr) hrbv
      rw [sort_of_ofBV hlval] at hlw
      rw [sort_of_ofBV hrval] at hrw
      obtain rfl : call.ty.width = lw := Option.some.inj hlw
      obtain rfl : call.ty.width = rw' := Option.some.inj hrw
      rw [max_self, coerceBitvecWidthSafe_self (sort_of_ofBV hlval),
        coerceBitvecWidthSafe_self (sort_of_ofBV hrval)] at hassign
      exact Call.sets_of_assign hdest hassign
        (eval_euclidTerm op hlval hrval hreads.inRange0 hreads.inRange1 hy hkept)
  · exact ⟨call.fallback, hedges, rfl, rfl, fun _ => rfl, fun h => absurd h hne⟩

end Euclid

/-! ### The calls of a function -/

/-- What is recorded was recorded by a power of two among the calls. -/
theorem exists_recorded {calls : List (Handler × Call)} {known known' : KnownPow2}
    {edges : List Edge} (h : codegenCalls known calls = some (known', edges)) {loc : ℕ} {e : Expr}
    (he : known' loc = some e) :
    known loc = some e ∨ ∃ power, (Handler.pow, power) ∈ calls ∧ power.Recorded loc e := by
  induction calls generalizing known edges with
  | nil =>
    rw [codegenCalls, Option.some.injEq, Prod.mk.injEq] at h
    exact .inl (h.1 ▸ he)
  | cons call calls ih =>
    simp only [codegenCalls, Option.bind_eq_bind, Option.bind_eq_some_iff, Option.pure_def,
      Option.some.injEq, Prod.mk.injEq, Prod.exists] at h
    obtain ⟨mid, first, hcall, last, rest, hrest, rfl, -⟩ := h
    rcases ih hrest with hmid | ⟨power, hmem, hrec⟩
    · obtain ⟨handler, call⟩ := call
      cases handler with
      | euclid op =>
        rw [codegenCall, Option.some.injEq, Prod.mk.injEq] at hcall
        exact .inl (hcall.1 ▸ hmid)
      | pow =>
        rcases codegenPow_cases hcall with ⟨_, _, _, -, -, -, -, rfl, -⟩ |
          ⟨exp, _, -, htwo, hexp, hsort, -, rfl, -⟩ | ⟨-, -, rfl, -⟩
        · exact .inl hmid
        · by_cases hloc : loc = call.destLocal
          · subst hloc
            rw [Function.update_self, Option.some.injEq] at hmid
            exact .inr ⟨call, List.mem_cons_self, rfl, htwo, hmid ▸ hsort, exp, hexp, hmid.symm⟩
          · rw [Function.update_of_ne hloc] at hmid
            exact .inl hmid
        · exact .inl hmid
    · exact .inr ⟨power, List.mem_cons_of_mem _ hmem, hrec⟩

/-- The record of a power that Rust computed holds as long as the variables of the exponent keep
their values. -/
theorem factHolds_of_recorded {power : Call} {loc : ℕ} {n v : ℤ} (hrec : power.Recorded loc e)
    (hreads : power.Reads ρ RustOp.u32 x n) (hv : RustOp.pow.result power.ty x n = some v)
    {ρ' : T.Env} (hfree : ∀ name ∈ e.freeVars, ρ' name = ρ name) : FactHolds ρ' e v := by
  obtain ⟨-, htwo, hsort, exp, hexp, rfl⟩ := hrec
  obtain rfl := hreads.const0 _ (tryExtractConstU128_eq_some htwo)
  rw [RustOp.result] at hv
  split_ifs at hv with hrange
  obtain rfl := Option.some.inj hv
  have hlt : n.toNat < power.ty.width := lt_width_of_inRange hrange
  have hn : n < 2 ^ power.ty.width := by
    have hpow : n.toNat < 2 ^ power.ty.width := hlt.trans Nat.lt_two_pow_self
    have hcast : (n.toNat : ℤ) < 2 ^ power.ty.width := by exact_mod_cast hpow
    exact (Int.self_le_toNat n).trans_lt hcast
  obtain ⟨d, hd, hnat⟩ := eval_expCoerced hreads hexp hsort hn
  exact ⟨_, d, (eval_congr hfree).trans hd, by rw [hnat]; rfl⟩

/-- The power of a call that Rust computes fits where the shift is used. -/
theorem codegenPow_fits {call : Call} (hencoded : call.Encoded .pow)
    (hreads : call.Reads ρ RustOp.u32 x y) (hrange : call.ty.InRange (x ^ y.toNat)) :
    (tryExtractConstU128 call.args1).isSome ∨ y < 2 ^ call.ty.width := by
  refine hencoded.2.2.imp_right fun htwo => ?_
  obtain rfl := hreads.const0 _ (tryExtractConstU128_eq_some htwo.1)
  have hlt : y.toNat < 2 ^ call.ty.width :=
    (lt_width_of_inRange hrange).trans Nat.lt_two_pow_self
  have hcast : (y.toNat : ℤ) < 2 ^ call.ty.width := by exact_mod_cast hlt
  exact (Int.self_le_toNat y).trans_lt hcast

/-- **Powers and Euclidean division.** After any calls, a call emits one edge, to its target. Where
the call is not encoded the destination is open. Otherwise the edge says that the destination is
what Rust returns, if Rust returns: for a power; for one that wraps, unless its exponent is cut
off; and for a division, unless there is a record for the divisor that does not hold. A record comes
from a power of two that was assigned to the divisor, and holds when that power returned and as long
as divisor and exponent are not assigned again. Where it holds, shift and mask are the division. -/
theorem call_follows_rust {before : List (Handler × Call)} {known known' : KnownPow2}
    {emitted edges : List Edge} (hrun : codegenCalls noRecords before = some (known, emitted))
    (op : RustOp) {call : Call}
    (hcall : codegenCall known (op.handler, call) = some (known', edges))
    (hdest : call.WellTyped) :
    (∃ edge, edges = [edge] ∧ edge.target = .block call.target ∧
      edge.stmtConstraints = call.stmtConstraints ∧
      (¬ call.Encoded op.handler → edge.extra = []) ∧
      (call.Encoded op.handler → ∀ {T : Theory} (ρ : T.Env) (x y v : ℤ),
        call.Reads ρ (op.argTy call.ty) x y → Kept known ρ call y op →
          op.result call.ty x y = some v → call.Sets ρ edge (call.ty.wrap v))) ∧
      (∀ loc e, call.args1 = .place loc false → known loc = some e →
        ∃ power, (Handler.pow, power) ∈ before ∧ power.Recorded loc e ∧
          ∀ {T : Theory} (ρ ρ' : T.Env) (x n v : ℤ), power.Reads ρ RustOp.u32 x n →
            RustOp.pow.result power.ty x n = some v → (∀ name ∈ e.freeVars, ρ' name = ρ name) →
              FactHolds ρ' e v) ∧
      ∀ (op : EuclidOp) {T : Theory} (ρ : T.Env) (a b e : Expr) (x y : ℤ),
        a.eval ρ = ofBV (call.ty.wrap x) → b.eval ρ = ofBV (call.ty.wrap y) →
          call.ty.InRange x → call.ty.InRange y → FactHolds ρ e y →
            (euclidPow2 op call.ty.signed call.ty.width a
              (coerceBitvecWidthSafe e call.ty.width .zeroExtend)).eval ρ =
                (euclidPlain op call.ty.signed call.ty.width a b).eval ρ := by
  refine ⟨?_, fun loc e _ he => ?_, fun op T ρ a b e x y ha hb hx hy hfact => ?_⟩
  · cases op with
    | pow =>
      obtain ⟨edge, hedges, htarget, hstmt, hopen, hset⟩ := codegenPow_exact hcall hdest
      refine ⟨edge, hedges, htarget, hstmt, hopen, fun hencoded T ρ x y v hreads _ hv => ?_⟩
      rw [RustOp.result] at hv
      split_ifs at hv with hrange
      obtain rfl := Option.some.inj hv
      exact hset hencoded ρ x y hreads (codegenPow_fits hencoded hreads hrange)
    | wrappingPow =>
      obtain ⟨edge, hedges, htarget, hstmt, hopen, hset⟩ := codegenPow_exact hcall hdest
      refine ⟨edge, hedges, htarget, hstmt, hopen, fun hencoded T ρ x y v hreads hkept hv => ?_⟩
      obtain rfl := Option.some.inj hv
      rw [IntTy.wrap_read]
      exact hset hencoded ρ x y hreads hkept
    | divEuclid =>
      obtain rfl := (Prod.mk.inj (Option.some.inj hcall)).2
      obtain ⟨edge, hedges, htarget, hstmt, hopen, hset⟩ :=
        @codegenEuclid_exact _ known .div hdest
      refine ⟨edge, hedges, htarget, hstmt, hopen, fun hencoded T ρ x y v hreads hkept hv => ?_⟩
      rw [RustOp.result] at hv
      split_ifs at hv with hpanic
      obtain rfl := Option.some.inj hv
      exact hset hencoded ρ x y hreads (fun hy => hpanic (.inl hy)) hkept
    | remEuclid =>
      obtain rfl := (Prod.mk.inj (Option.some.inj hcall)).2
      obtain ⟨edge, hedges, htarget, hstmt, hopen, hset⟩ :=
        @codegenEuclid_exact _ known .rem hdest
      refine ⟨edge, hedges, htarget, hstmt, hopen, fun hencoded T ρ x y v hreads hkept hv => ?_⟩
      rw [RustOp.result] at hv
      split_ifs at hv with hpanic
      obtain rfl := Option.some.inj hv
      exact hset hencoded ρ x y hreads (fun hy => hpanic (.inl hy)) hkept
  · obtain ⟨power, hmem, hrec⟩ := (exists_recorded hrun he).resolve_left (by simp [noRecords])
    exact ⟨power, hmem, hrec, fun _ _ _ _ _ hreads hv hfree =>
      factHolds_of_recorded hrec hreads hv hfree⟩
  · obtain ⟨d, hd, hlt, rfl⟩ := eval_recorded hfact hy
    rw [eval_euclidPow2 op ha hx hd hlt.le, eval_euclidPlain op ha hb hx hy (by positivity)]

/-! ### A shift, a division by zero and a cube -/

/-- A word of a local. -/
def wordVar (w : ℕ) (name : String) : Expr := .var name (.bitvec w)

/-- A call in a block that reads the locals 1 and 2. -/
def localsCall (ty : IntTy) (args0 args1 : CallOperand) (destLocal : ℕ) : Call where
  args0 := args0
  args1 := args1
  ty := ty
  destLocal := destLocal
  target := 1
  stmtConstraints := []
  resolve
    | .place 1 false => some (wordVar ty.width "_1")
    | .place 2 false => some (wordVar ty.width "_2")
    | .place 3 false => some (wordVar 32 "_3")
    | _ => none
  destination := some ("_4__out", .bitvec ty.width)

theorem wellTyped_localsCall (ty : IntTy) (args0 args1 : CallOperand) (destLocal : ℕ) :
    (localsCall ty args0 args1 destLocal).WellTyped := by
  intro name sort h
  obtain ⟨-, rfl⟩ := Prod.mk.inj (Option.some.inj h)
  exact .inl rfl

/-- `2i32.pow(_3)`, assigned to the local 2. -/
def powerOfTwo : Call := localsCall i32 (.constant (some 2)) (.place 3 false) 2

/-- `_1.div_euclid(_2)`. -/
def division (ty : IntTy) : Call := localsCall ty (.place 1 false) (.place 2 false) 4

/-- The locals 1, 2 and 3, and the destination. -/
noncomputable def localsEnv {w w' : ℕ} (T : Theory) (x y dest : BitVec w) (n : BitVec w') : T.Env :=
  Theory.Env.ofVals fun name =>
    if name = "_1" then ofBV x
    else if name = "_2" then ofBV y
    else if name = "_3" then ofBV n
    else ofBV dest

theorem reads_division {d : BitVec t.width} {w' : ℕ} {n : BitVec w'} (hx : t.InRange x)
    (hy : t.InRange y) :
    (division t).Reads (localsEnv T (t.wrap x) (t.wrap y) d n) t x y where
  const0 := by simp [division, localsCall]
  const1 := by simp [division, localsCall]
  inRange0 := hx
  inRange1 := hy
  term0 e he := by
    obtain rfl := Option.some.inj he
    exact ⟨trivial, hx, .inl (eval_var_ofVals rfl)⟩
  term1 e he := by
    obtain rfl := Option.some.inj he
    exact ⟨trivial, hy, .inl (eval_var_ofVals rfl)⟩

/-- After `2i32.pow(3)` minus seven is divided by the result with a shift. -/
theorem division_shifts :
    ∃ known emitted edge, codegenCalls noRecords [(.pow, powerOfTwo)] = some (known, emitted) ∧
      codegenCall known (.euclid .div, division i32) = some (known, [edge]) ∧
      known 2 = some (wordVar 32 "_3") ∧ RustOp.divEuclid.result i32 (-7) 8 = some (-1) ∧
      (division i32).Sets (localsEnv default (i32.wrap (-7)) (i32.wrap 8) (i32.wrap (-1)) 3#32)
        edge (i32.wrap (-1)) := by
  have hrun : codegenCalls noRecords [(.pow, powerOfTwo)] =
      some (Function.update noRecords 2 (some (wordVar 32 "_3")),
        [powerOfTwo.gotoTarget [.eq (.var "_4__out" (.bitvec 32))
          (.bv .shl (bvConst 32 1) (wordVar 32 "_3"))]]) := by
    simp [codegenCalls, codegenCall, codegenPow, codegenPowConst, tryExtractConstU128, powerOfTwo,
      localsCall, Call.assign, Call.gotoTarget, coerceEqConstraint, coerceBitvecWidthSafe, wordVar,
      SmtSort.bitvecWidth, bvConst, Op.resultSort, i32]
  obtain ⟨⟨edge, hedges, -, -, -, hset⟩, -, -⟩ := @call_follows_rust _ _ _ _ _ hrun .divEuclid
    (division i32) rfl (wellTyped_localsCall _ _ _ _)
  refine ⟨_, _, edge, hrun, by rw [← hedges]; rfl, by simp, by decide, ?_⟩
  refine hset ⟨rfl, ⟨_, rfl, rfl⟩, _, rfl, rfl⟩ _ (-7) 8 (-1) ?_ ?_ (by decide)
  · exact reads_division (by decide) (by decide)
  · intro e he
    have hrecord : some (wordVar 32 "_3") = some e := he
    obtain rfl := Option.some.inj hrecord
    exact ⟨32, 3#32, eval_var_ofVals rfl, by decide⟩

/-- What a call that follows Rust would be: where Rust returns, every edge has the result as
destination, and where Rust panics there is an edge to error. -/
def FollowsRust (op : RustOp) (call : Call) (edges : List Edge) : Prop :=
  ∀ {T : Theory} (ρ : T.Env) (x y : ℤ), call.Reads ρ (op.argTy call.ty) x y →
    match op.result call.ty x y with
    | some v => ∀ edge ∈ edges, (∀ c ∈ edge.stmtConstraints ++ edge.extra, Holds ρ c) →
        ∃ name sort, call.destination = some (name, sort) ∧
          (MirValue.int (call.ty.wrap v) : MirValue call.ty).Denoted ρ (.var name sort)
    | none => ∃ edge ∈ edges, edge.target = .error ∧
        ∀ c ∈ edge.stmtConstraints ++ edge.extra, Holds ρ c

/-- `_1.pow(3)`, a power the handler leaves open. -/
def cube : Call := localsCall u8 (.place 1 false) (.constant (some 3)) 4

/-- A division by zero has no edge to error, and the cube of two may be anything. -/
theorem division_and_cube_do_not_follow :
    (∃ edges, codegenCall noRecords (.euclid .div, division u8) = some (noRecords, edges) ∧
      ¬ FollowsRust .divEuclid (division u8) edges) ∧
      ∃ edges, codegenCall noRecords (.pow, cube) = some (noRecords, edges) ∧
        ¬ FollowsRust .pow cube edges := by
  constructor
  · refine ⟨_, rfl, fun hfollows => ?_⟩
    obtain ⟨edge, hedges, htarget, -⟩ :=
      @codegenEuclid_exact (division u8) noRecords .div (wellTyped_localsCall _ _ _ _)
    obtain ⟨edge', hmem, herror, -⟩ := hfollows _ 1 0
      (reads_division (T := default) (d := 0) (n := 0#32) (by decide) (by decide))
    rw [hedges, List.mem_singleton] at hmem
    rw [hmem, htarget] at herror
    cases herror
  · refine ⟨[cube.fallback], rfl, fun hfollows => ?_⟩
    have hreads : cube.Reads (localsEnv default 2#8 0#8 0#8 0#32) RustOp.u32 2 3 := {
      const0 := by simp [cube, localsCall]
      const1 := by simp [cube, localsCall]
      inRange0 := by decide
      inRange1 := by decide
      term0 := fun e he => by
        obtain rfl := Option.some.inj he
        exact ⟨trivial, by decide, .inl (eval_var_ofVals rfl)⟩
      term1 := fun e he => by cases he }
    obtain ⟨name, sort, hname, hdenoted⟩ := hfollows _ 2 3 hreads _ (List.mem_singleton_self _)
      (by simp [Call.fallback, Call.gotoTarget, cube, localsCall])
    obtain ⟨rfl, rfl⟩ := Prod.mk.inj (Option.some.inj hname)
    have hzero : (Expr.var "_4__out" (.bitvec 8)).eval (localsEnv default 2#8 0#8 0#8 0#32) =
        ofBV 0#8 := eval_var_ofVals rfl
    rcases hdenoted with h | h
    · have heq : (ofBV 0#8 : (default : Theory).Val) = ofBV 8#8 := hzero.symm.trans h
      exact absurd (ofBV_inj.1 heq) (by decide)
    · exact ofBV_ne_ofInt (hzero.symm.trans h)

end Power

end TrustMc
