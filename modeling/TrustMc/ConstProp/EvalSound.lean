import TrustMc.ConstProp.Eval
import Mathlib.Tactic.Ring

/-!
# Constant evaluation keeps the meaning

On a well-sorted regular term, what `tryEvalToBool` and `tryEvalToConst` return is the value
of the term under every assignment (`tryEvalToBool_sound`, `tryEvalToConst_sound`), and
reading through stores returns a term of the same value (`evalSelectStoreConst_sound`).

* **Arithmetic** is on integers and wraps once, in `bitvecConst`; `ofInt_foldBvBin` says that
  this is the bit-vector operation.
* **Scalar constants** are equal exactly when their values are (`eval_eq_iff_of_isScalarConstant`).
-/

namespace TrustMc

namespace ConstProp

open Carriers Carriers.Val TrustMc.Expr

variable {T : Theory} {H : T.Env → Prop} {inlined : List Expr}

/-! ### Arithmetic -/

theorem bitvecToSigned_toNat {w : ℕ} (x : BitVec w) : bitvecToSigned x.toNat w = x.toInt := by
  have hlt := x.isLt
  rw [bitvecToSigned, BitVec.toInt_eq_toNat_cond]
  cases w with
  | zero => simp_all
  | succ w =>
    have hpow : 2 ^ (w + 1) = 2 * 2 ^ w := by rw [pow_succ, Nat.mul_comm]
    simp only [Nat.add_sub_cancel]
    split_ifs with h₁ h₂ h₂
    · omega
    · push_cast; ring
    · rfl
    · omega

theorem signedTruncDiv_eq (a b : ℤ) : signedTruncDiv a b = a.tdiv b := by
  rcases lt_or_ge a 0 with ha | ha <;> rcases lt_or_ge b 0 with hb | hb
  · obtain ⟨m, rfl⟩ := Int.eq_negSucc_of_lt_zero ha
    obtain ⟨n, rfl⟩ := Int.eq_negSucc_of_lt_zero hb
    simp [signedTruncDiv, Int.tdiv]
  · obtain ⟨m, rfl⟩ := Int.eq_negSucc_of_lt_zero ha
    obtain ⟨n, rfl⟩ := Int.eq_ofNat_of_zero_le hb
    simp [signedTruncDiv, Int.tdiv]
  · obtain ⟨m, rfl⟩ := Int.eq_ofNat_of_zero_le ha
    obtain ⟨n, rfl⟩ := Int.eq_negSucc_of_lt_zero hb
    simp [signedTruncDiv, Int.tdiv]
  · obtain ⟨m, rfl⟩ := Int.eq_ofNat_of_zero_le ha
    obtain ⟨n, rfl⟩ := Int.eq_ofNat_of_zero_le hb
    simp [signedTruncDiv, Int.tdiv, ha.not_gt, hb.not_gt]

/-- Division of a negative number rounds towards minus infinity. -/
private theorem neg_ceil_eq_div {z d : ℤ} (hd : 0 < d) : -((-z + d - 1) / d) = z / d := by
  have h := Int.mul_ediv_add_emod z d
  have hlt := Int.emod_lt_of_pos z hd
  have hge := Int.emod_nonneg z hd.ne'
  have hq : (-z + d - 1) / d = -(z / d) := by
    have hz : -z + d - 1 = (d - 1 - z % d) + d * -(z / d) := by linarith
    rw [hz, Int.add_mul_ediv_left _ _ hd.ne', Int.ediv_eq_zero_of_lt (by omega) (by omega),
      zero_add]
  rw [hq, neg_neg]

theorem signedAshr_eq {w : ℕ} (x : BitVec w) (n : ℕ) :
    signedAshr x.toInt (shiftAmount n w) w = x.toInt / 2 ^ n := by
  have hpow : (0 : ℤ) < 2 ^ n := by positivity
  by_cases hw : w ≤ n
  · have hwn : (2 : ℤ) ^ w ≤ 2 ^ n := by exact_mod_cast Nat.pow_le_pow_right (by omega) hw
    rw [signedAshr, shiftAmount, min_eq_right hw, if_pos le_rfl]
    split_ifs with hneg
    · have hle := BitVec.le_two_mul_toInt (w := w) (x := x)
      have hz : x.toInt = (x.toInt + 2 ^ n) + 2 ^ n * -1 := by ring
      rw [hz, Int.add_mul_ediv_left _ _ hpow.ne', Int.ediv_eq_zero_of_lt (by omega) (by omega),
        zero_add]
    · have hlt := BitVec.two_mul_toInt_lt (w := w) (x := x)
      rw [Int.ediv_eq_zero_of_lt (by omega) (by omega)]
  · rw [signedAshr, shiftAmount, min_eq_left (by omega), if_neg hw]
    split_ifs with hneg
    · rfl
    · rw [neg_ceil_eq_div hpow]

/-- SMT-LIB's signed division is truncated division off zero. -/
private theorem smtSDiv_of_ne {w : ℕ} {x y : BitVec w} (h : y ≠ 0#w) : x.smtSDiv y = x.sdiv y := by
  have hneg : -y ≠ 0#w := by simpa using h
  rw [BitVec.smtSDiv_eq, BitVec.sdiv_eq]
  cases x.msb <;> cases y.msb <;> simp [BitVec.smtUDiv_eq, h]

theorem ofInt_natCast_eq {w n : ℕ} {x : BitVec w} (h : x.toNat = n) :
    BitVec.ofInt w (n : ℤ) = x := by
  rw [BitVec.ofInt_natCast, ← h, BitVec.ofNat_toNat, BitVec.setWidth_eq]

theorem ofInt_foldBvBin {w : ℕ} {x y : BitVec w} {f : BvBin} {z : ℤ}
    (h : foldBvBin x.toNat y.toNat w w f = some z) : BitVec.ofInt w z = f.denote x y := by
  have hx : BitVec.ofInt w x.toNat = x := ofInt_natCast_eq rfl
  have hy : BitVec.ofInt w y.toNat = y := ofInt_natCast_eq rfl
  have hzero : y.toNat ≠ 0 → y ≠ 0#w := fun h₀ h => h₀ (by simp [h])
  have hsigned := bitvecToSigned_toNat x
  have hsigned' := bitvecToSigned_toNat y
  cases f with
  | add =>
    obtain rfl := Option.some.inj h
    rw [BitVec.ofInt_add, hx, hy, BvBin.denote]
  | sub =>
    obtain rfl := Option.some.inj h
    rw [sub_eq_add_neg, BitVec.ofInt_add, BitVec.ofInt_neg, hx, hy, BvBin.denote,
      BitVec.sub_eq_add_neg]
  | mul =>
    obtain rfl := Option.some.inj h
    rw [BitVec.ofInt_mul, hx, hy, BvBin.denote]
  | udiv =>
    obtain ⟨h₀, hz⟩ := Option.ite_none_right_eq_some.1 h
    obtain rfl := Option.some.inj hz
    have hne := hzero h₀
    exact ofInt_natCast_eq (by simp [BvBin.denote, BitVec.smtUDiv, hne])
  | urem =>
    obtain ⟨h₀, hz⟩ := Option.ite_none_right_eq_some.1 h
    obtain rfl := Option.some.inj hz
    exact ofInt_natCast_eq (by simp [BvBin.denote])
  | sdiv =>
    obtain ⟨h₀, hz⟩ := Option.ite_none_right_eq_some.1 h
    obtain rfl := Option.some.inj hz
    rw [hsigned, hsigned', signedTruncDiv_eq, BvBin.denote, smtSDiv_of_ne (hzero h₀)]
    exact BitVec.eq_of_toInt_eq (by rw [BitVec.toInt_ofInt, BitVec.toInt_sdiv])
  | srem =>
    obtain ⟨h₀, hz⟩ := Option.ite_none_right_eq_some.1 h
    obtain rfl := Option.some.inj hz
    rw [hsigned, hsigned', signedTruncDiv_eq, mul_comm, ← Int.tmod_def, ← BitVec.toInt_srem,
      BitVec.ofInt_toInt, BvBin.denote]
  | and =>
    obtain rfl := Option.some.inj h
    exact ofInt_natCast_eq (BitVec.toNat_and x y)
  | or =>
    obtain rfl := Option.some.inj h
    exact ofInt_natCast_eq (BitVec.toNat_or x y)
  | xor =>
    obtain rfl := Option.some.inj h
    exact ofInt_natCast_eq (BitVec.toNat_xor x y)
  | shl =>
    obtain rfl := Option.some.inj h
    split_ifs with hle
    · have hw : w ≤ y.toNat := (le_min_iff.1 hle).1
      rw [BvBin.denote, BitVec.shiftLeft_eq', BitVec.shiftLeft_eq_zero hw]
      rfl
    · have hmin : shiftAmount y.toNat w = y.toNat := min_eq_left (by simp_all [shiftAmount]; omega)
      rw [hmin, BitVec.ofInt_natCast, BvBin.denote, BitVec.shiftLeft_eq']
      exact BitVec.eq_of_toNat_eq (by simp)
  | lshr =>
    obtain rfl := Option.some.inj h
    split_ifs with hle
    · have hw : w ≤ y.toNat := (le_min_iff.1 hle).1
      rw [BvBin.denote, BitVec.ushiftRight_eq', BitVec.ushiftRight_eq_zero hw]
      rfl
    · have hmin : shiftAmount y.toNat w = y.toNat := min_eq_left (by simp_all [shiftAmount]; omega)
      rw [hmin, BvBin.denote, BitVec.ushiftRight_eq']
      exact ofInt_natCast_eq (BitVec.toNat_ushiftRight x y.toNat)
  | ashr =>
    obtain rfl := Option.some.inj h
    have hdiv : x.toInt / 2 ^ y.toNat = (x.sshiftRight' y).toInt := by
      rw [BitVec.toInt_sshiftRight', Int.shiftRight_eq_div_pow]
      push_cast
      rfl
    rw [hsigned, signedAshr_eq, hdiv, BitVec.ofInt_toInt, BvBin.denote]

theorem foldBvCmp_eq {w : ℕ} (x y : BitVec w) (f : BvCmp) :
    foldBvCmp x.toNat y.toNat w w f = f.denote x y := by
  cases f <;>
    simp [foldBvCmp, BvCmp.denote, BitVec.ult, BitVec.ule, BitVec.slt, BitVec.sle,
      bitvecToSigned_toNat]

/-- A term whose bits are those of an integer. -/
theorem rewrites_bitvecConst {e : Expr} {z : ℤ} {w : ℕ} (hs : e.sort = .bitvec w)
    (h : ∀ ρ : T.Env, bits w e ρ = BitVec.ofInt w z) :
    Rewrites H inlined e (bitvecConst z w) := by
  refine .of_eval ?_ ?_ (by simp [bitvecConst]) (by simp [bitvecConst]) fun ρ _ => ?_
  · simp [bitvecConst, hs, Op.resultSort]
  · simp [bitvecConst, Op.accepts]
  · rw [eval_eq_ofBV_bits hs, h ρ, bitvecConst, eval_app, Op.interp]

/-- Folding a binary operator on constants. -/
theorem evalBvBinaryConst_sound {op : Op} {a b c : Expr} (hws : (Expr.app op [a, b]).WellSorted)
    (h : evalBvBinaryConst op a b = some c) :
    Rewrites H inlined (.app op [a, b]) c ∧ isScalarConstant c = true := by
  have hacc := (wellSorted_app.1 hws).1
  unfold evalBvBinaryConst at h
  split at h
  case h_2 => cases h
  rename_i wa x args wb y args'
  have hx : (Expr.app (.bitVecConst wa x) args).sort = .bitvec wa := by simp [Op.resultSort]
  have hy : (Expr.app (.bitVecConst wb y) args').sort = .bitvec wb := by simp [Op.resultSort]
  simp only [List.map_cons, List.map_nil, hx, hy] at hacc
  split at h
  · rename_i f
    obtain ⟨z, hz, rfl⟩ := Option.map_eq_some_iff.1 h
    obtain rfl : wa = wb := by simpa [Op.accepts] using hacc
    refine ⟨rewrites_bitvecConst (by simp [Op.resultSort]) fun ρ => ?_, rfl⟩
    rw [bits, eval_bv hx, toBV_ofBV, bits_bitVecConst, bits_bitVecConst, ofInt_foldBvBin hz]
  · rename_i f
    obtain rfl := Option.some.inj h
    obtain rfl : wa = wb := by simpa [Op.accepts] using hacc
    refine ⟨.to_boolConst (by simp [Op.resultSort]) fun ρ _ => ?_, rfl⟩
    rw [holds_bvCmp hx, bits_bitVecConst, bits_bitVecConst, foldBvCmp_eq]
  · obtain rfl := Option.some.inj h
    refine ⟨rewrites_bitvecConst (by simp [Op.resultSort]) fun ρ => ?_, rfl⟩
    rw [bits, eval_bvConcat hx hy, toBV_ofBV, bits_bitVecConst, bits_bitVecConst]
    exact (ofInt_natCast_eq (BitVec.toNat_append x y)).symm
  · obtain rfl := Option.some.inj h
    obtain rfl : wa = wb := by simpa [Op.accepts] using hacc
    refine ⟨.to_boolConst (by simp [Op.resultSort]) fun ρ _ => ?_, rfl⟩
    rw [holds_bvCheck hx, bits_bitVecConst, bits_bitVecConst, BvCheck.denote]
  · obtain rfl := Option.some.inj h
    obtain rfl : wa = wb := by simpa [Op.accepts] using hacc
    refine ⟨.to_boolConst (by simp [Op.resultSort]) fun ρ _ => ?_, rfl⟩
    rw [holds_bvCheck hx, bits_bitVecConst, bits_bitVecConst, BvCheck.denote]
  · cases h

/-- Extraction from a constant. -/
theorem rewrites_foldExtract {e c : Expr} {high low w : ℕ} {x : BitVec w}
    (he : e.sort = .bitvec w) (hx : ∀ ρ : T.Env, bits w e ρ = x)
    (h : foldExtract high low x.toNat w = some c) :
    Rewrites H [] (.app (.bvExtract high low) [e]) c ∧ isScalarConstant c = true := by
  obtain ⟨-, h⟩ := Option.ite_none_right_eq_some.1 h
  obtain rfl := Option.some.inj h
  refine ⟨rewrites_bitvecConst (by simp [Op.resultSort]) fun ρ => ?_, rfl⟩
  rw [bits, eval_bvExtract he, toBV_ofBV, hx ρ]
  exact (ofInt_natCast_eq (by
    rw [BitVec.extractLsb_toNat, Nat.and_two_pow_sub_one_eq_mod])).symm

/-! ### Regular terms -/

/-- The node is not one that constant evaluation misreads: a positional selector names the
field at its position in every constructor that has one there, and no array is indexed by
arrays. -/
def regularNode : Op → List SmtSort → Bool
  | .store, ss => !(ss.getD 1 .bool).isArray
  | .datatypeSelector _ selectorName _, [d] =>
    match fieldIndex selectorName with
    | none => true
    | some k =>
      (d.constructors.getD []).all fun c =>
        (c.fields[k]?).isNone || c.fields.findIdx? (·.name == selectorName) == some k
  | _, _ => true

/-- No node of the term is misread. -/
def Regular (e : Expr) : Prop := ∀ nd ∈ e.nodes, regularNode nd.1 nd.2 = true

instance (e : Expr) : Decidable (Regular e) := inferInstanceAs (Decidable (∀ nd ∈ _, _))

@[simp]
theorem regular_var (n : String) (s : SmtSort) : Regular (.var n s) := by simp [Regular]

@[simp]
theorem regular_app {op : Op} {args : List Expr} :
    Regular (.app op args) ↔
      regularNode op (args.map Expr.sort) = true ∧ ∀ a ∈ args, Regular a := by
  simp only [Regular, nodes_app, List.forall_mem_cons, List.mem_flatMap]
  refine and_congr_right fun _ => ?_
  exact ⟨fun h a ha nd hnd => h nd ⟨a, ha, hnd⟩, fun h nd ⟨a, ha, hnd⟩ => h a ha nd hnd⟩

@[simp]
theorem regular_quant {q : Quantifier} {vs : List (String × SmtSort)} {b : Expr} :
    Regular (.quant q vs b) ↔ Regular b := Iff.rfl

/-! ### Scalar constants -/

/-- A scalar constant is applied to nothing. -/
theorem eq_of_isScalarConstant {e : Expr} (h : isScalarConstant e = true) (hws : e.WellSorted) :
    (∃ b, e = .boolConst b) ∨ (∃ w, ∃ x : BitVec w, e = .bitVecConst x) ∨
      (∃ z, e = .intConst z) ∨ ∃ z, e = .realConst z := by
  cases e with
  | var n s => cases h
  | quant q vs b => cases h
  | app op args =>
    have hacc := (wellSorted_app.1 hws).1
    unfold isScalarConstant at h
    split at h
    case h_5 => cases h
    all_goals
      rename_i heq
      obtain ⟨rfl, rfl⟩ := Expr.app.inj heq
      obtain rfl : args = [] := by simpa [Op.accepts] using hacc
      simp

theorem regular_of_isScalarConstant {e : Expr} (h : isScalarConstant e = true)
    (hws : e.WellSorted) : Regular e := by
  rcases eq_of_isScalarConstant h hws with ⟨_, rfl⟩ | ⟨_, _, rfl⟩ | ⟨_, rfl⟩ | ⟨_, rfl⟩ <;>
    simp [regularNode]

theorem eval_eq_iff_of_isScalarConstant {a b : Expr} (ha : isScalarConstant a = true)
    (hb : isScalarConstant b = true) (hwa : a.WellSorted) (hwb : b.WellSorted) {ρ : T.Env} :
    a.eval ρ = b.eval ρ ↔ a = b := by
  refine ⟨fun h => ?_, fun h => h ▸ rfl⟩
  have hsort : a.sort = b.sort := by rw [← eval_sort a ρ, ← eval_sort b ρ, h]
  rcases eq_of_isScalarConstant ha hwa with ⟨_, rfl⟩ | ⟨_, _, rfl⟩ | ⟨_, rfl⟩ | ⟨_, rfl⟩ <;>
    rcases eq_of_isScalarConstant hb hwb with ⟨_, rfl⟩ | ⟨_, _, rfl⟩ | ⟨_, rfl⟩ | ⟨_, rfl⟩ <;>
    simp only [sort_app, Op.resultSort, reduceCtorEq, SmtSort.bitvec.injEq] at hsort
  · simpa [Op.interp] using h
  · subst hsort
    simpa [Op.interp] using h
  · simpa [Op.interp] using h
  · simpa [Op.interp] using h

/-! ### One level of evaluation -/

/-- What a Boolean evaluator returns on a term of `R` is the truth value of the formula. -/
def BoolSound (H : T.Env → Prop) (R : Expr → Prop) (toBool : Expr → Option Bool) : Prop :=
  ∀ e b, e.WellSorted → R e → toBool e = some b → Rewrites H [] e (.boolConst b)

/-- What a constant evaluator returns on a term of `R` is a scalar constant with the value of
the term. -/
def ConstSound (H : T.Env → Prop) (R : Expr → Prop) (toConst : Expr → Option Expr) : Prop :=
  ∀ e c, e.WellSorted → R e → toConst e = some c →
    Rewrites H [] e c ∧ isScalarConstant c = true

/-- The arguments of a term of `R` are in `R`. -/
def Hereditary (R : Expr → Prop) : Prop := ∀ op args, R (.app op args) → ∀ a ∈ args, R a

theorem hereditary_regular : Hereditary Regular := fun _ _ h => (regular_app.1 h).2

section Step

variable {R : Expr → Prop} {toBool : Expr → Option Bool} {toConst : Expr → Option Expr}

theorem holds_of_rewrites_boolConst {e : Expr} {b : Bool} (h : Rewrites H [] e (.boolConst b))
    {ρ : T.Env} (hρ : H ρ) : Holds ρ e ↔ b = true := by
  rw [← h.holds_iff hρ, holds_boolConst]

/-- The children of a conjunction (`stop = false`) or a disjunction (`stop = true`). -/
theorem tryEvalChildren_sound (hB : BoolSound H R toBool) {stop allOther v : Bool} {es : List Expr}
    (hes : ∀ e ∈ es, e.WellSorted ∧ R e)
    (h : tryEvalChildren toBool stop es allOther = some v) {ρ : T.Env} (hρ : H ρ) :
    (v = stop → ∃ e ∈ es, Holds ρ e ↔ stop = true) ∧
      (v ≠ stop → allOther = true ∧ ∀ e ∈ es, Holds ρ e ↔ stop = false) := by
  induction es generalizing allOther with
  | nil =>
    cases allOther with
    | false => cases h
    | true =>
      obtain rfl := Option.some.inj h
      simp
  | cons e es ih =>
    have hes' : ∀ e ∈ es, e.WellSorted ∧ R e := fun e he => hes e (List.mem_cons_of_mem _ he)
    obtain ⟨hws, hreg⟩ := hes e List.mem_cons_self
    unfold tryEvalChildren at h
    split at h
    · rename_i b hb
      have hholds := holds_of_rewrites_boolConst (hB e b hws hreg hb) hρ
      split_ifs at h with hstop
      · obtain rfl := Option.some.inj h
        subst hstop
        exact ⟨fun _ => ⟨e, List.mem_cons_self, hholds⟩, fun hne => absurd rfl hne⟩
      · obtain ⟨hyes, hno⟩ := ih hes' h
        refine ⟨fun hv => ?_, fun hv => ⟨(hno hv).1, List.forall_mem_cons.2 ⟨?_, (hno hv).2⟩⟩⟩
        · obtain ⟨e', he', hiff⟩ := hyes hv
          exact ⟨e', List.mem_cons_of_mem _ he', hiff⟩
        · rw [hholds]
          cases b <;> cases stop <;> simp_all
    · obtain ⟨hyes, hno⟩ := ih hes' h
      refine ⟨fun hv => ?_, fun hv => absurd (hno hv).1 (by simp)⟩
      obtain ⟨e', he', hiff⟩ := hyes hv
      exact ⟨e', List.mem_cons_of_mem _ he', hiff⟩

/-- A constant array against a single store over it. -/
theorem evalConstArrayStoreEqOrdered_sound (hR : Hereditary R) (hC : ConstSound H R toConst)
    {a b : Expr} {v : Bool}
    (ha : a.WellSorted ∧ R a) (hb : b.WellSorted ∧ R b) (hs : a.sort = b.sort)
    (h : evalConstArrayStoreEqOrdered toConst a b = some v) {ρ : T.Env} (hρ : H ρ) :
    a.eval ρ = b.eval ρ ↔ v = true := by
  unfold evalConstArrayStoreEqOrdered at h
  split at h
  case h_2 => cases h
  rename_i s constValue s' baseValue i storedValue
  obtain ⟨hstore, hargs⟩ := wellSorted_app.1 hb.1
  by_cases hbase : baseValue = constValue
  case neg => simp [hbase] at h
  subst hbase
  simp only [List.map_cons, List.map_nil, sort_app, Op.resultSort, List.headD_cons, Op.accepts,
    beq_iff_eq, SmtSort.array.injEq] at hstore hs
  obtain ⟨rfl, -⟩ := hs
  obtain ⟨hi, hv⟩ := hstore
  rw [eval_constArray_eq_store hi.symm hv.symm]
  simp only [ne_eq, not_true_eq_false, if_false] at h
  split_ifs at h with hsame
  · obtain rfl := Option.some.inj h
    simp [hsame]
  · simp only [Option.bind_eq_bind, Option.bind_eq_some_iff] at h
    obtain ⟨c, hc, c', hc', hcc⟩ := h
    obtain rfl := Option.some.inj hcc
    obtain ⟨hrc, hscalar⟩ := hC baseValue c ((wellSorted_app.1 ha.1).2 _ (by simp))
      (hR _ _ ha.2 _ (by simp)) hc
    obtain ⟨hrc', hscalar'⟩ := hC storedValue c' (hargs _ (by simp)) (hR _ _ hb.2 _ (by simp)) hc'
    rw [← hrc.eval ρ hρ, ← hrc'.eval ρ hρ,
      eval_eq_iff_of_isScalarConstant hscalar hscalar' hrc.wellSorted hrc'.wellSorted, beq_iff_eq]

/-- The sides of an equation have one sort. -/
theorem sort_eq_of_wellSorted_eq {a b : Expr} (h : (a.eq b).WellSorted) : a.sort = b.sort := by
  simpa [Op.accepts] using (wellSorted_app.1 h).1

theorem tryEvalEq_sound (hR : Hereditary R) (hB : BoolSound H R toBool)
    (hC : ConstSound H R toConst) {a b : Expr} {v : Bool} (hws : (a.eq b).WellSorted)
    (hreg : R (a.eq b))
    (h : tryEvalEq toBool toConst a b = some v) {ρ : T.Env} (hρ : H ρ) :
    Holds ρ (a.eq b) ↔ v = true := by
  have hs := sort_eq_of_wellSorted_eq hws
  have ha : a.WellSorted ∧ R a :=
    ⟨(wellSorted_app.1 hws).2 a (by simp), hR _ _ hreg a (by simp)⟩
  have hb : b.WellSorted ∧ R b :=
    ⟨(wellSorted_app.1 hws).2 b (by simp), hR _ _ hreg b (by simp)⟩
  rw [holds_eq]
  unfold tryEvalEq at h
  split_ifs at h with hab
  · obtain rfl := Option.some.inj h
    simp [hab]
  split at h
  · rename_i l r hl hr
    obtain rfl := Option.some.inj h
    have hla := hB a l ha.1 ha.2 hl
    have hrb := hB b r hb.1 hb.2 hr
    rw [← hla.eval ρ hρ, ← hrb.eval ρ hρ, eval_eq_iff_of_isScalarConstant rfl rfl hla.wellSorted
      hrb.wellSorted]
    simp
  · split at h
    · rename_i value hvalue
      obtain rfl := Option.some.inj h
      unfold evalConstArrayStoreEq at hvalue
      rcases Option.or_eq_some_iff.1 hvalue with hvalue | ⟨-, hvalue⟩
      · exact evalConstArrayStoreEqOrdered_sound hR hC ha hb hs hvalue hρ
      · rw [eq_comm]
        exact evalConstArrayStoreEqOrdered_sound hR hC hb ha hs.symm hvalue hρ
    · simp only [Option.bind_eq_bind, Option.bind_eq_some_iff] at h
      obtain ⟨c, hc, c', hc', hcc⟩ := h
      obtain rfl := Option.some.inj hcc
      obtain ⟨hrc, hscalar⟩ := hC a c ha.1 ha.2 hc
      obtain ⟨hrc', hscalar'⟩ := hC b c' hb.1 hb.2 hc'
      rw [← hrc.eval ρ hρ, ← hrc'.eval ρ hρ,
        eval_eq_iff_of_isScalarConstant hscalar hscalar' hrc.wellSorted hrc'.wellSorted, beq_iff_eq]

/-- A binary operator on operands that evaluate. -/
theorem tryEvalBinary_sound (hR : Hereditary R) (hC : ConstSound H R toConst) {op : Op}
    {a b c : Expr} (hws : (Expr.app op [a, b]).WellSorted) (hreg : R (.app op [a, b]))
    (h : tryEvalBinary toConst op a b = some c) :
    Rewrites H [] (.app op [a, b]) c ∧ isScalarConstant c = true := by
  simp only [tryEvalBinary, Option.bind_eq_bind, Option.bind_eq_some_iff] at h
  obtain ⟨ca, hca, cb, hcb, h⟩ := h
  obtain ⟨hacc, hargs⟩ := wellSorted_app.1 hws
  obtain ⟨hra, -⟩ := hC a ca (hargs a (by simp)) (hR _ _ hreg a (by simp)) hca
  obtain ⟨hrb, -⟩ := hC b cb (hargs b (by simp)) (hR _ _ hreg b (by simp)) hcb
  have happ : Rewrites H [] (.app op [a, b]) (.app op [ca, cb]) := .app₂ hra hrb hacc
  obtain ⟨hr, hscalar⟩ := evalBvBinaryConst_sound happ.wellSorted h
  exact ⟨happ.trans hr, hscalar⟩

theorem tryEvalComparison_sound (hR : Hereditary R) (hC : ConstSound H R toConst) {op : Op}
    {a b : Expr} {v : Bool} (hws : (Expr.app op [a, b]).WellSorted) (hreg : R (.app op [a, b]))
    (h : tryEvalComparison toConst op a b = some v) :
    Rewrites H [] (.app op [a, b]) (.boolConst v) := by
  have hbin : ∃ args, tryEvalBinary toConst op a b = some (.app (.boolConst v) args) := by
    simp only [tryEvalComparison, Option.bind_eq_bind, Option.bind_eq_some_iff] at h
    obtain ⟨ca, hca, cb, hcb, r, hr, h⟩ := h
    split at h
    · rename_i w args
      obtain rfl := Option.some.inj h
      exact ⟨args, by simp [tryEvalBinary, hca, hcb, hr]⟩
    · cases h
  obtain ⟨args, hbin⟩ := hbin
  obtain ⟨hr, -⟩ := tryEvalBinary_sound hR hC hws hreg hbin
  obtain rfl : args = [] := by simpa [Op.accepts] using (wellSorted_app.1 hr.wellSorted).1
  exact hr

/-- **Soundness of one level** of the Boolean evaluator. -/
theorem tryEvalToBoolStep_sound (hR : Hereditary R) (hB : BoolSound H R toBool)
    (hC : ConstSound H R toConst) : BoolSound H R (tryEvalToBoolStep toBool toConst) := by
  intro e v hws hreg h
  unfold tryEvalToBoolStep at h
  split at h
  · rename_i b args
    obtain rfl := Option.some.inj h
    obtain rfl : args = [] := by simpa [Op.accepts] using (wellSorted_app.1 hws).1
    exact .refl hws
  · rename_i es
    have hes : ∀ e ∈ es, e.WellSorted ∧ R e := fun e he =>
      ⟨(wellSorted_app.1 hws).2 e he, hR _ _ hreg e he⟩
    refine .to_boolConst (by simp [Op.resultSort]) fun ρ hρ => ?_
    obtain ⟨hyes, hno⟩ := tryEvalChildren_sound hB hes h hρ
    rw [holds_and]
    cases v with
    | false =>
      obtain ⟨e, he, hiff⟩ := hyes rfl
      simpa using ⟨e, he, by simpa using hiff⟩
    | true =>
      simpa using fun e he => by simpa using (hno (by simp)).2 e he
  · rename_i es
    have hes : ∀ e ∈ es, e.WellSorted ∧ R e := fun e he =>
      ⟨(wellSorted_app.1 hws).2 e he, hR _ _ hreg e he⟩
    refine .to_boolConst (by simp [Op.resultSort]) fun ρ hρ => ?_
    obtain ⟨hyes, hno⟩ := tryEvalChildren_sound hB hes h hρ
    rw [holds_or]
    cases v with
    | true =>
      obtain ⟨e, he, hiff⟩ := hyes rfl
      simpa using ⟨e, he, by simpa using hiff⟩
    | false =>
      simpa using fun e he => by simpa using (hno (by simp)).2 e he
  · rename_i inner
    obtain ⟨b, hb, rfl⟩ := Option.map_eq_some_iff.1 h
    obtain ⟨hacc, hargs⟩ := wellSorted_app.1 hws
    have hr := hB inner b (hargs _ (by simp)) (hR _ _ hreg _ (by simp)) hb
    refine .to_boolConst (by simp [Op.resultSort]) fun ρ hρ => ?_
    rw [holds_not, holds_of_rewrites_boolConst hr hρ]
    simp
  · rename_i a b
    exact .to_boolConst (by simp [Op.resultSort]) fun ρ hρ => tryEvalEq_sound hR hB hC hws hreg h hρ
  · exact tryEvalComparison_sound hR hC hws hreg h
  · exact tryEvalComparison_sound hR hC hws hreg h
  · exact tryEvalComparison_sound hR hC hws hreg h
  · cases h

/-- A unary operator on an operand that evaluates: what is computed from the bits of the
operand is the value of the operator on them. -/
theorem tryEvalUnary_sound (hR : Hereditary R) (hC : ConstSound H R toConst) {op : Op}
    {f : ℕ → ℕ → Option Expr} {a c : Expr} (hws : (Expr.app op [a]).WellSorted)
    (hreg : R (.app op [a]))
    (hf : ∀ w (x : BitVec w) (e c : Expr), e.sort = .bitvec w → (∀ ρ : T.Env, bits w e ρ = x) →
      (Expr.app op [e]).WellSorted → f x.toNat w = some c →
      Rewrites H [] (.app op [e]) c ∧ isScalarConstant c = true)
    (h : tryEvalUnary toConst f a = some c) :
    Rewrites H [] (.app op [a]) c ∧ isScalarConstant c = true := by
  simp only [tryEvalUnary, Option.bind_eq_bind, Option.bind_eq_some_iff] at h
  obtain ⟨ca, hca, h⟩ := h
  obtain ⟨hacc, hargs⟩ := wellSorted_app.1 hws
  obtain ⟨hra, -⟩ := hC a ca (hargs a (by simp)) (hR _ _ hreg a (by simp)) hca
  have happ : Rewrites H [] (.app op [a]) (.app op [ca]) := .app₁ hra hacc
  split at h
  · rename_i w x args
    obtain ⟨hr, hscalar⟩ := hf w x _ c (by simp [Op.resultSort])
      (fun ρ => bits_bitVecConst x args) happ.wellSorted h
    exact ⟨happ.trans hr, hscalar⟩
  · cases h

/-- Selecting a field of a constructor application gives the argument of the field. -/
theorem rewrites_selectedArg {dt dt' sel c n : String} {s : SmtSort} {cs : List SmtConstructor}
    {d : SmtConstructor} {args : List Expr} {k : ℕ} {arg : Expr}
    (hws : ((Expr.datatypeConstructor dt' c args (.datatype n cs)).fieldSelect dt sel s).WellSorted)
    (hd : cs.find? (·.name == c) = some d)
    (hsorts : args.map Expr.sort = d.fields.map SmtField.sort)
    (hk : d.fields.findIdx? (·.name == sel) = some k) (harg : args[k]? = some arg) :
    Rewrites H [] ((Expr.datatypeConstructor dt' c args (.datatype n cs)).fieldSelect dt sel s)
      arg := by
  have hmem : arg ∈ args := List.mem_of_getElem? harg
  have hs : arg.sort = s := sort_of_selectedArg hws hd hsorts hk harg
  have hctor := (wellSorted_app.1 hws).2 _ (List.mem_singleton_self _)
  refine .of_eval ?_ ((wellSorted_app.1 hctor).2 arg hmem) ?_ ?_ fun ρ _ => ?_
  · simp [Op.resultSort, hs]
  · intro o ho
    simpa using ⟨arg, hmem, ho⟩
  · intro n hn
    simpa using ⟨arg, hmem, hn⟩
  · exact (eval_fieldSelect_constructor hd hsorts hk harg hs).symm

theorem tryEvalSelector_sound (hC : ConstSound H Regular toConst) {dt sel : String} {s : SmtSort}
    {a c : Expr} (hws : (a.fieldSelect dt sel s).WellSorted)
    (hreg : Regular (a.fieldSelect dt sel s))
    (h : tryEvalSelector toConst dt sel a = some c) :
    Rewrites H [] (a.fieldSelect dt sel s) c ∧ isScalarConstant c = true := by
  unfold tryEvalSelector at h
  split at h
  case h_2 => cases h
  rename_i ctorDt ctor s' args
  split_ifs at h with hdt
  simp only [Option.bind_eq_bind, Option.bind_eq_some_iff] at h
  obtain ⟨k, hk, arg, harg, h⟩ := h
  obtain ⟨hacc, hinner⟩ := wellSorted_app.1 hws
  have hctor := hinner _ (List.mem_singleton_self _)
  obtain ⟨hnode, hregs⟩ := regular_app.1 hreg
  obtain ⟨n, cs, d, rfl, hd, hsorts⟩ := constructor_of_wellSorted hctor
  have hmem : arg ∈ args := List.mem_of_getElem? harg
  have hws' : arg.WellSorted := (wellSorted_app.1 hctor).2 arg hmem
  have hreg' : Regular arg := (regular_app.1 (hregs _ (List.mem_singleton_self _))).2 arg hmem
  -- the field at the position is the selected one, and so has the sort of the selection
  obtain ⟨fld, hfld, hfs⟩ : ∃ fld, d.fields[k]? = some fld ∧ arg.sort = fld.sort := by
    have hlen := congrArg (·[k]?) hsorts
    simp only [List.getElem?_map, harg, Option.map_some] at hlen
    obtain ⟨fld, hfld, hs⟩ := Option.map_eq_some_iff.1 hlen.symm
    exact ⟨fld, hfld, hs.symm⟩
  have hidx : d.fields.findIdx? (·.name == sel) = some k := by
    have hall : ∀ c ∈ cs, (c.fields[k]?).isNone ∨
        c.fields.findIdx? (·.name == sel) = some k := by
      simpa [regularNode, hk, Op.resultSort, SmtSort.constructors] using hnode
    exact (hall d (List.mem_of_find?_eq_some hd)).resolve_left (by simp [hfld])
  obtain ⟨hr, hscalar⟩ := hC arg c hws' hreg' h
  exact ⟨(rewrites_selectedArg hws hd hsorts hidx harg).trans hr, hscalar⟩

/-- **Soundness of one level** of the constant evaluator, but for its reading of selectors. -/
theorem tryEvalToConstStep_sound (hR : Hereditary R) (hB : BoolSound H R toBool)
    (hC : ConstSound H R toConst) {e c : Expr} (hws : e.WellSorted) (hreg : R e)
    (hsel : ∀ a dt sel s, e = a.fieldSelect dt sel s → tryEvalSelector toConst dt sel a = some c →
      Rewrites H [] e c ∧ isScalarConstant c = true)
    (h : tryEvalToConstStep toBool toConst e = some c) :
    Rewrites H [] e c ∧ isScalarConstant c = true := by
  unfold tryEvalToConstStep at h
  split at h
  · -- constants are their own values
    obtain rfl := Option.some.inj h
    exact ⟨.refl hws, rfl⟩
  · obtain rfl := Option.some.inj h
    exact ⟨.refl hws, rfl⟩
  · exact tryEvalBinary_sound hR hC hws hreg h
  · exact tryEvalBinary_sound hR hC hws hreg h
  · rename_i high low a
    exact tryEvalUnary_sound hR hC hws hreg
      (fun w x e c he hx hwse hc => rewrites_foldExtract he hx hc) h
  · -- zero extension
    rename_i n a
    refine tryEvalUnary_sound hR hC hws hreg (fun w x e c he hx hwse hc => ?_) h
    obtain rfl := Option.some.inj hc
    refine ⟨rewrites_bitvecConst (by simp [Op.resultSort, he]) fun ρ => ?_, rfl⟩
    rw [bits, eval_bvZeroExtend he, toBV_ofBV, hx ρ, BitVec.ofInt_natCast, BitVec.ofNat_toNat]
  · -- sign extension
    rename_i n a
    refine tryEvalUnary_sound hR hC hws hreg (fun w x e c he hx hwse hc => ?_) h
    obtain rfl := Option.some.inj hc
    refine ⟨rewrites_bitvecConst (by simp [Op.resultSort, he]) fun ρ => ?_, rfl⟩
    rw [bits, eval_bvSignExtend he, toBV_ofBV, hx ρ, bitvecToSigned_toNat, BitVec.signExtend]
  · -- complement
    rename_i a
    refine tryEvalUnary_sound hR hC hws hreg (fun w x e c he hx hwse hc => ?_) h
    obtain rfl := Option.some.inj hc
    refine ⟨rewrites_bitvecConst (by simp [Op.resultSort, he]) fun ρ => ?_, rfl⟩
    rw [bits, eval_bvUn he, toBV_ofBV, hx ρ]
    refine (ofInt_natCast_eq ?_).symm
    rw [BvUn.denote, ← BitVec.xor_allOnes, BitVec.toNat_xor, BitVec.toNat_allOnes]
  · -- negation, where the difference from `2 ^ w` may be `2 ^ w` itself
    rename_i a
    refine tryEvalUnary_sound hR hC hws hreg (fun w x e c he hx hwse hc => ?_) h
    obtain rfl := Option.some.inj hc
    refine ⟨rewrites_bitvecConst (by simp [Op.resultSort, he]) fun ρ => ?_, rfl⟩
    rw [bits, eval_bvUn he, toBV_ofBV, hx ρ]
    have hle : x.toNat ≤ 2 ^ w := x.isLt.le
    rw [← Nat.cast_sub hle, ← Int.natCast_emod]
    exact (ofInt_natCast_eq (BitVec.toNat_neg x)).symm
  · -- the branch that the condition takes
    rename_i cond a b
    obtain ⟨hacc, hargs⟩ := wellSorted_app.1 hws
    obtain ⟨hcs, hab⟩ : cond.sort = .bool ∧ a.sort = b.sort := by simpa [Op.accepts] using hacc
    have hregs := hR _ _ hreg
    simp only [Option.bind_eq_bind, Option.bind_eq_some_iff] at h
    obtain ⟨v, hv, h⟩ := h
    have hcond := hB cond v (hargs _ (by simp)) (hregs _ (by simp)) hv
    have htaken : ∀ t, (t = a ∧ v = true ∨ t = b ∧ v = false) →
        Rewrites H [] (Expr.ite cond a b) t := by
      intro t ht
      refine .of_eval ?_ (hargs t ?_) ?_ ?_ fun ρ hρ => ?_
      · rcases ht with ⟨rfl, -⟩ | ⟨rfl, -⟩ <;> simp [Op.resultSort, hab]
      · rcases ht with ⟨rfl, -⟩ | ⟨rfl, -⟩ <;> simp
      · rcases ht with ⟨rfl, -⟩ | ⟨rfl, -⟩ <;> simp +contextual
      · rcases ht with ⟨rfl, -⟩ | ⟨rfl, -⟩ <;> simp +contextual
      · rw [eval_ite hab]
        rcases ht with ⟨rfl, rfl⟩ | ⟨rfl, rfl⟩
        · rw [if_pos ((holds_of_rewrites_boolConst hcond hρ).2 rfl)]
        · rw [if_neg fun hh => by simpa using (holds_of_rewrites_boolConst hcond hρ).1 hh]
    split_ifs at h with hvt
    · obtain ⟨hr, hscalar⟩ := hC a c (hargs _ (by simp)) (hregs _ (by simp)) h
      exact ⟨(htaken a (Or.inl ⟨rfl, hvt⟩)).trans hr, hscalar⟩
    · obtain ⟨hr, hscalar⟩ := hC b c (hargs _ (by simp)) (hregs _ (by simp)) h
      exact ⟨(htaken b (Or.inr ⟨rfl, by simpa using hvt⟩)).trans hr, hscalar⟩
  · exact hsel _ _ _ _ rfl h
  · -- everything else goes to the Boolean evaluator
    obtain ⟨b, hb, rfl⟩ := Option.map_eq_some_iff.1 h
    exact ⟨tryEvalToBoolStep_sound hR hB hC _ _ hws hreg hb, rfl⟩

end Step

/-! ### Evaluation -/

theorem tryEvalAt_sound (n : ℕ) :
    BoolSound H Regular (tryEvalToBoolAt n) ∧ ConstSound H Regular (tryEvalToConstAt n) := by
  induction n with
  | zero => exact ⟨fun _ _ _ _ h => (Option.some_ne_none _ h.symm).elim,
      fun _ _ _ _ h => (Option.some_ne_none _ h.symm).elim⟩
  | succ n ih =>
    refine ⟨tryEvalToBoolStep_sound hereditary_regular ih.1 ih.2, fun e c hws hreg => ?_⟩
    refine tryEvalToConstStep_sound hereditary_regular ih.1 ih.2 hws hreg ?_
    rintro a dt sel s rfl hsel
    exact tryEvalSelector_sound ih.2 hws hreg hsel

/-- What `tryEvalToBool` returns is the truth value of the formula. -/
theorem tryEvalToBool_sound {e : Expr} {b : Bool} (hws : e.WellSorted) (hreg : Regular e)
    (h : tryEvalToBool e = some b) : Rewrites H [] e (.boolConst b) :=
  (tryEvalAt_sound e.depth).1 e b hws hreg h

/-- What `tryEvalToConst` returns is a scalar constant with the value of the term. -/
theorem tryEvalToConst_sound {e c : Expr} (hws : e.WellSorted) (hreg : Regular e)
    (h : tryEvalToConst e = some c) : Rewrites H [] e c ∧ isScalarConstant c = true :=
  (tryEvalAt_sound e.depth).2 e c hws hreg h

/-! ### Constants of every sort -/

/-- A constant that is not an array is a scalar. -/
theorem isScalarConstant_of_isConstant {e : Expr} (h : isConstant e = true) (hws : e.WellSorted)
    (hs : e.sort.isArray = false) : isScalarConstant e = true := by
  unfold isConstant at h
  split at h
  · simp [Op.resultSort, SmtSort.isArray, SmtSort.arraySort] at hs
  · rename_i a i v
    have hacc := (wellSorted_app.1 hws).1
    simp only [List.map_cons, List.map_nil, Op.accepts, beq_iff_eq] at hacc
    simp [Op.resultSort, hacc, SmtSort.isArray, SmtSort.arraySort] at hs
  · exact h

/-- Constants are closed. -/
theorem closed_of_isConstant {e : Expr} (h : isConstant e = true) (hws : e.WellSorted) :
    e.freeOccs = [] ∧ e.boundVars = [] := by
  induction e with
  | var n s => cases h
  | quant q vs b => cases h
  | app op args ih =>
    obtain ⟨hacc, hargs⟩ := wellSorted_app.1 hws
    unfold isConstant at h
    split at h
    · rename_i s v heq
      obtain ⟨rfl, rfl⟩ := Expr.app.inj heq
      simpa using ih v (by simp) h (hargs v (by simp))
    · rename_i a i v heq
      obtain ⟨rfl, rfl⟩ := Expr.app.inj heq
      simp only [Bool.and_eq_true] at h
      have ha := ih a (by simp) h.1.1 (hargs a (by simp))
      have hi := ih i (by simp) h.1.2 (hargs i (by simp))
      have hv := ih v (by simp) h.2 (hargs v (by simp))
      simp [ha, hi, hv]
    · rcases eq_of_isScalarConstant h hws with ⟨_, he⟩ | ⟨_, _, he⟩ | ⟨_, he⟩ | ⟨_, he⟩ <;>
        simp [he]

theorem isConstant_of_isScalarConstant {e : Expr} (h : isScalarConstant e = true)
    (hws : e.WellSorted) : isConstant e = true := by
  rcases eq_of_isScalarConstant h hws with ⟨_, rfl⟩ | ⟨_, _, rfl⟩ | ⟨_, rfl⟩ | ⟨_, rfl⟩ <;> rfl

/-- A constant has one value. -/
theorem eval_isConstant {e : Expr} (h : isConstant e = true) (hws : e.WellSorted) (ρ ρ' : T.Env) :
    e.eval ρ = e.eval ρ' :=
  eval_congr_occs (by simp [(closed_of_isConstant h hws).1])

/-! ### Reading through stores -/

/-- Reading at `sel` passes no store whose index has the value of `sel`. -/
def TellsApart (T : Theory) : Expr → Expr → Prop
  | .app .store [innerArr, storeIdx, _], sel =>
    sel ≠ storeIdx → isConstant sel = true → isConstant storeIdx = true →
      (∀ ρ : T.Env, sel.eval ρ ≠ storeIdx.eval ρ) ∧ TellsApart T innerArr sel
  | _, _ => True

/-- The sorts of a well-sorted store. -/
theorem sorts_of_store {a i v : Expr} (h : (a.store i v).WellSorted) :
    a.sort = .array i.sort v.sort := by
  simpa [Op.accepts] using (wellSorted_app.1 h).1

/-- What a well-sorted read of a store is made of. -/
theorem parts_of_select_store {a i v sel : Expr} (h : ((a.store i v).select sel).WellSorted) :
    a.sort = .array i.sort v.sort ∧ sel.sort = i.sort ∧ (a.select sel).WellSorted ∧
      i.WellSorted ∧ v.WellSorted ∧ sel.WellSorted := by
  obtain ⟨hsel, hargs⟩ := wellSorted_app.1 h
  have hstore := hargs _ List.mem_cons_self
  have hsort := sorts_of_store hstore
  have hparts := (wellSorted_app.1 hstore).2
  have hselws : sel.WellSorted := hargs sel (by simp)
  have hsels : sel.sort = i.sort := by
    rw [eq_comm]
    simpa [Op.resultSort, Op.accepts, hsort, SmtSort.arraySort] using hsel
  refine ⟨hsort, hsels, wellSorted_app.2 ⟨?_, ?_⟩, hparts i (by simp), hparts v (by simp), hselws⟩
  · simp [Op.accepts, hsort, SmtSort.arraySort, hsels]
  · simpa using ⟨hparts a (by simp), hselws⟩

/-- **Soundness of reading through stores**: the value that is returned is what the array
holds at the index, when the stores that are passed have other indices. -/
theorem evalSelectStoreConst_rewrites {arr sel v : Expr} (hws : (arr.select sel).WellSorted)
    (hapart : TellsApart T arr sel) (h : evalSelectStoreConst arr sel = some v) :
    Rewrites H [] (arr.select sel) v := by
  induction arr with
  | var n s => cases h
  | quant q vs b => cases h
  | app op args ih =>
    rw [evalSelectStoreConst.eq_def] at h
    split at h
    case h_2 => cases h
    rename_i sel' _ _ inner idx val heq
    obtain ⟨rfl, rfl⟩ := Expr.app.inj heq
    obtain ⟨hstore, hsels, hinner, -, hval, -⟩ := parts_of_select_store hws
    split_ifs at h with hidx hconst
    · obtain rfl := Option.some.inj h
      refine .of_eval ?_ hval ?_ ?_ fun ρ _ => ?_
      · simp only [sort_app, Op.resultSort, List.map_cons, List.headD_cons, hstore,
          SmtSort.arraySort, Option.map_some, Option.getD_some]
      · simp +contextual
      · simp +contextual
      · exact (eval_select_store_eq hstore rfl (by rw [hidx])).symm
    · rw [Bool.and_eq_true] at hconst
      rw [TellsApart.eq_def] at hapart
      obtain ⟨hne, hapart⟩ := hapart hidx hconst.1 hconst.2
      refine Rewrites.trans (.of_eval ?_ hinner ?_ ?_ fun ρ _ => ?_)
        (ih inner (by simp) hinner hapart h)
      · simp [Op.resultSort, hstore, SmtSort.arraySort]
      · simp only [freeOccs_app, List.flatMap_cons, List.flatMap_nil, List.append_nil,
          List.mem_append]
        tauto
      · simp only [boundVars_app, List.flatMap_cons, List.flatMap_nil, List.append_nil,
          List.mem_append]
        tauto
      · exact (eval_select_store_ne hstore rfl hsels (hne ρ).symm).symm

/-- What is read is a stored value. -/
theorem regular_evalSelectStoreConst {arr sel v : Expr} (hreg : Regular arr)
    (h : evalSelectStoreConst arr sel = some v) : Regular v := by
  induction arr with
  | var n s => cases h
  | quant q vs b => cases h
  | app op args ih =>
    rw [evalSelectStoreConst.eq_def] at h
    split at h
    case h_2 => cases h
    rename_i inner idx val heq
    obtain ⟨rfl, rfl⟩ := Expr.app.inj heq
    have hregs := (regular_app.1 hreg).2
    split_ifs at h
    · obtain rfl := Option.some.inj h
      exact hregs _ (by simp)
    · exact ih inner (by simp) (hregs inner (by simp)) h

/-- Different scalar constants are told apart, and a regular array is indexed by scalars. -/
theorem tellsApart_of_regular {arr sel : Expr} (hws : (arr.select sel).WellSorted)
    (hreg : Regular arr) : TellsApart T arr sel := by
  induction arr with
  | var n s => simp [TellsApart]
  | quant q vs b => simp [TellsApart]
  | app op args ih =>
    rw [TellsApart.eq_def]
    split
    case h_2 => exact trivial
    rename_i sel' _ inner idx val heq
    obtain ⟨rfl, rfl⟩ := Expr.app.inj heq
    intro hidx hsel hconst
    obtain ⟨hnode, hregs⟩ := regular_app.1 hreg
    obtain ⟨-, hsels, hinner, hidxws, -, hselws⟩ := parts_of_select_store hws
    have hna : idx.sort.isArray = false := by simpa [regularNode] using hnode
    have hs := isScalarConstant_of_isConstant hsel hselws (by rw [hsels, hna])
    have hi := isScalarConstant_of_isConstant hconst hidxws hna
    refine ⟨fun ρ heq => hidx ?_, ih inner (by simp) hinner (hregs inner (by simp))⟩
    exact (eval_eq_iff_of_isScalarConstant hs hi hselws hidxws).1 heq

theorem evalSelectStoreConst_sound {arr sel v : Expr} (hws : (arr.select sel).WellSorted)
    (hreg : Regular arr) (h : evalSelectStoreConst arr sel = some v) :
    Rewrites H [] (arr.select sel) v ∧ Regular v :=
  ⟨evalSelectStoreConst_rewrites hws (tellsApart_of_regular hws hreg) h,
    regular_evalSelectStoreConst hreg h⟩

end ConstProp

end TrustMc
