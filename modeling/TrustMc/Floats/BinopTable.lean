import TrustMc.Floats.Predicates
import TrustMc.Arithmetic.BitIntrinsics

/-!
# The table of the float operations

The model of `float_binop_table.rs`: an operation on symbolic patterns is a read of a table that
nothing constrains, at a key made of the operation and both operands; two refinements force the
result to be no number where an operand is none, and zero where an operand is subtracted from
itself.

* `realTable` reads operation and operands back from the key, so it realises five operations at
  once (`eval_select_realTable`).
* `or_quietNanForcingMask`: the mask changes no quiet pattern that is no number.
* `operandNanGuard_spec`: the guards of constants and of symbolic operands ask the same.
* `float_binops_covered`: with that table the term is the operation, on all operands.
-/

namespace TrustMc

namespace Floats

open Machine Carriers Carriers.Val TrustMc.Expr Arithmetic

/-! ### The term -/

/-- The name of the table of a width, as in `float_binop_table_names`. -/
def floatBinopTableName (width : ℕ) : Option String :=
  match width with
  | 32 => some "float_binop_tbl_f32"
  | 64 => some "float_binop_tbl_f64"
  | _ => none

/-- `float_binop_table_sort`. -/
def floatBinopTableSort (width : ℕ) : Option SmtSort :=
  (floatBinopTableName width).map fun _ => .array (.bitvec (8 + 2 * width)) (.bitvec width)

/-- `float_binop_op_tag`. -/
def floatBinopOpTag : BinOp → Option ℕ
  | .add | .addUnchecked => some 0
  | .sub | .subUnchecked => some 1
  | .mul | .mulUnchecked => some 2
  | .div => some 3
  | .rem => some 4
  | _ => none

/-- `float_binop_congruent_key`. -/
def floatBinopCongruentKey (op : BinOp) (lhs rhs : Expr) (width : ℕ) : Option Expr := do
  let tag ← floatBinopOpTag op
  if lhs.sort.bitvecWidth ≠ some width ∨ rhs.sort.bitvecWidth ≠ some width then none
  else return .app .bvConcat [.app .bvConcat [bvConst 8 tag, lhs], rhs]

/-- `ieee754_bit_fields`. -/
def ieee754BitFields (width : ℕ) : Option (ℕ × ℕ) := do
  let p ← ieee754Params width
  return ((2 ^ p.expWidth - 1) <<< p.mantBits, 2 ^ p.mantBits - 1)

/-- `quiet_nan_forcing_mask`. -/
def quietNanForcingMask (width : ℕ) : Option ℕ := do
  let (expField, mantMask) ← ieee754BitFields width
  return expField ||| ((mantMask >>> 1) + 1)

/-- `OperandNan`. -/
inductive OperandNan
  | always | never
  | maybe (guard : Expr)

/-- Whether a literal is no number. -/
def literalNan (v : Expr) (width : ℕ) : Option Bool :=
  match v with
  | .app (.bitVecConst constWidth value) [] =>
    if constWidth = width then
      (ieee754BitFields width).map fun (expField, mantMask) =>
        decide (value.toNat &&& expField = expField ∧ value.toNat &&& mantMask ≠ 0)
    else none
  | _ => none

/-- `operand_nan_guard`. -/
def operandNanGuard (v : Expr) (width : ℕ) : OperandNan :=
  match literalNan v width with
  | some true => .always
  | some false => .never
  | none =>
    match buildFloatPredicateExpr v .nan with
    | some g => .maybe g
    | none => .never

/-- One more guard: `prev.or(g)`. -/
def addGuard (cond : Option Expr) (g : Expr) : Expr :=
  match cond with
  | some prev => .or [prev, g]
  | none => g

/-- The loop over the operands: whether one of them is no number, from the guards so far. -/
def nanCondition (width : ℕ) : List Expr → Option Expr → OperandNan
  | [], none => .never
  | [], some cond => .maybe cond
  | operand :: operands, cond =>
    match operandNanGuard operand width with
    | .always => .always
    | .never => nanCondition width operands cond
    | .maybe g => nanCondition width operands (some (addGuard cond g))

/-- `refine_nan_propagation`. -/
def refineNanPropagation (lhs rhs : Expr) (width : ℕ) (tblTerm : Expr) : Expr :=
  match quietNanForcingMask width with
  | none => tblTerm
  | some nanMask =>
    let nanify (v : Expr) : Expr := .bv .or v (bvConst width nanMask)
    match nanCondition width [lhs, rhs] none with
    | .always => nanify tblTerm
    | .never => tblTerm
    | .maybe cond => .ite cond (nanify tblTerm) tblTerm

/-- `refine_sub_reflexive_boundary`. -/
def refineSubReflexiveBoundary (op : BinOp) (lhs rhs : Expr) (width : ℕ) (tblTerm : Expr) : Expr :=
  if op = .sub ∨ op = .subUnchecked then
    match buildFloatPredicateExpr lhs .finite with
    | none => tblTerm
    | some finite => .ite (.and [.eq lhs rhs, finite]) (bvConst width 0) tblTerm
  else tblTerm

/-- `float_binop_table_var`: the variable, if it is declared. -/
def floatBinopTableVar (stateVars : List (String × SmtSort)) (width : ℕ) : Option Expr := do
  let inName ← floatBinopTableName width
  let (name, sort) ← stateVars.find? (·.1 == inName)
  return .var name sort

/-- `float_binop_chc_term`: `fold` is `bv_float_binop_chc`, which folds two literals. -/
def floatBinopChcTerm (fold : BinOp → Expr → Expr → ℕ → Option Expr)
    (stateVars : List (String × SmtSort)) (op : BinOp) (lhs rhs : Expr) (width : ℕ) :
    Option Expr :=
  match fold op lhs rhs width with
  | some folded => some folded
  | none => do
    let tbl ← floatBinopTableVar stateVars width
    let key ← floatBinopCongruentKey op lhs rhs width
    let tblTerm := refineNanPropagation lhs rhs width (.select tbl key)
    return refineSubReflexiveBoundary op lhs rhs width tblTerm

/-! ### Operations on patterns -/

/-- The operations that have a tag. -/
inductive FloatOp
  | add | sub | mul | div | rem
  deriving DecidableEq, Repr

namespace FloatOp

/-- The operation of an operator; the unchecked ones are the same. -/
def ofBinOp : BinOp → Option FloatOp
  | .add | .addUnchecked => some add
  | .sub | .subUnchecked => some sub
  | .mul | .mulUnchecked => some mul
  | .div => some div
  | .rem => some rem
  | _ => none

/-- The tag of an operation. -/
def tag : FloatOp → ℕ
  | add => 0
  | sub => 1
  | mul => 2
  | div => 3
  | rem => 4

/-- The operation of a tag. -/
def ofTag : ℕ → FloatOp
  | 0 => add
  | 1 => sub
  | 2 => mul
  | 3 => div
  | _ => rem

@[simp] theorem ofTag_tag (o : FloatOp) : ofTag o.tag = o := by cases o <;> rfl

theorem tag_inj {o o' : FloatOp} : o.tag = o'.tag ↔ o = o' :=
  ⟨fun h => by rw [← ofTag_tag o, h, ofTag_tag], congrArg tag⟩

theorem tag_lt (o : FloatOp) : o.tag < 2 ^ 8 := by cases o <;> decide

end FloatOp

theorem floatBinopOpTag_eq (op : BinOp) :
    floatBinopOpTag op = (FloatOp.ofBinOp op).map FloatOp.tag := by
  cases op <;> rfl

/-- The formats that have a table. -/
def tableFormats : List FloatFormat :=
  [⟨8, 23, two_le_single_expBits⟩, ⟨11, 52, two_le_double_expBits⟩]

/-- The pattern is a quiet one that is no number. -/
def IsQuietNan (f : FloatFormat) (x : ℕ) : Prop :=
  f.exponent x = f.maxExponent ∧ 2 ^ (f.mantBits - 1) ≤ f.mantissa x

/-- A family of operations that no arithmetic of the format rules out: no number stays none, and
a finite pattern minus itself is zero. -/
structure Arithmetical (f : FloatFormat)
    (F : FloatOp → BitVec f.width → BitVec f.width → BitVec f.width) : Prop where
  /-- An operand that is no number makes the result a quiet one. -/
  nan : ∀ o a b, f.read a.toNat = .nan ∨ f.read b.toNat = .nan → IsQuietNan f (F o a b).toNat
  /-- A finite pattern minus itself. -/
  sub_self : ∀ a, (∃ q, f.read a.toNat = .finite q) → F .sub a a = 0

/-! ### Masks -/

section Masks

variable {f : FloatFormat} {x : ℕ}

/-- A mask on a field, as a mask on the field's bits. -/
theorem and_shiftLeft_eq (x y m : ℕ) : x &&& y <<< m = ((x >>> m) &&& y) <<< m := by
  refine Nat.eq_of_testBit_eq fun i => ?_
  rw [Nat.testBit_and, Nat.testBit_shiftLeft, Nat.testBit_shiftLeft, Nat.testBit_and,
    Nat.testBit_shiftRight]
  by_cases h : m ≤ i
  · simp [h, Nat.add_sub_cancel' h]
  · simp [h]

/-- The exponent mask keeps the exponent. -/
theorem and_expField : x &&& f.maxExponent <<< f.mantBits = f.exponent x <<< f.mantBits := by
  rw [and_shiftLeft_eq, FloatFormat.maxExponent, Nat.and_two_pow_sub_one_eq_mod,
    Nat.shiftRight_eq_div_pow, FloatFormat.exponent]

/-- The two mask tests of a literal. -/
theorem literal_nan_iff :
    (x &&& f.maxExponent <<< f.mantBits = f.maxExponent <<< f.mantBits ∧
      x &&& (2 ^ f.mantBits - 1) ≠ 0) ↔ f.read x = .nan := by
  rw [and_expField, Nat.and_two_pow_sub_one_eq_mod, Nat.shiftLeft_eq, Nat.shiftLeft_eq,
    Nat.mul_left_inj (by positivity), read_eq_nan_iff, FloatFormat.mantissa]

/-- The bits that make a pattern a quiet one that is no number. -/
def quietMask (f : FloatFormat) : ℕ := f.maxExponent <<< f.mantBits ||| 2 ^ (f.mantBits - 1)

theorem testBit_quietMask {i : ℕ} : (quietMask f).testBit i = true ↔
    (f.mantBits ≤ i ∧ i < f.mantBits + f.expBits) ∨ i = f.mantBits - 1 := by
  rw [quietMask, Nat.testBit_or, Nat.testBit_shiftLeft, FloatFormat.maxExponent,
    Nat.testBit_two_pow_sub_one, Nat.testBit_two_pow]
  simp only [ge_iff_le, Bool.or_eq_true, Bool.and_eq_true, decide_eq_true_eq]
  omega

/-- A quiet pattern that is no number has these bits already. -/
theorem or_quietMask (hm : 0 < f.mantBits) (h : IsQuietNan f x) : x ||| quietMask f = x := by
  refine Nat.eq_of_testBit_eq fun i => ?_
  rw [Nat.testBit_or, Bool.or_eq_left_iff_imp, testBit_quietMask]
  rintro (⟨hlo, hhi⟩ | rfl)
  · have hbit : (f.exponent x).testBit (i - f.mantBits) = true := by
      rw [h.1, FloatFormat.maxExponent, Nat.testBit_two_pow_sub_one, decide_eq_true_eq]
      omega
    rw [FloatFormat.exponent, Nat.testBit_mod_two_pow, Nat.testBit_div_two_pow, Bool.and_eq_true,
      Nat.sub_add_cancel hlo] at hbit
    exact hbit.2
  · have hbit : (f.mantissa x).testBit (f.mantBits - 1) = true := by
      refine Nat.testBit_of_two_pow_le_and_two_pow_add_one_gt h.2 ?_
      rw [Nat.sub_add_cancel hm]
      exact f.mantissa_lt x
    rw [FloatFormat.mantissa, Nat.testBit_mod_two_pow, Bool.and_eq_true] at hbit
    exact hbit.2

theorem ieee754BitFields_width (hf : f ∈ ieeeFormats) :
    ieee754BitFields f.width = some (f.maxExponent <<< f.mantBits, 2 ^ f.mantBits - 1) := by
  rw [ieee754BitFields, ieee754Params_width hf]
  simp only [Option.bind_eq_bind, Option.bind_some, expWidth_params]
  rfl

theorem quietNanForcingMask_width (hf : f ∈ ieeeFormats) :
    quietNanForcingMask f.width = some (quietMask f) := by
  have hm := mantBits_pos hf
  have hhalf : (2 ^ f.mantBits - 1) >>> 1 + 1 = 2 ^ (f.mantBits - 1) := by
    have hpow : 2 ^ f.mantBits = 2 * 2 ^ (f.mantBits - 1) := by
      rw [← pow_succ', Nat.sub_add_cancel hm]
    have hpos : 0 < 2 ^ (f.mantBits - 1) := by positivity
    rw [Nat.shiftRight_eq_div_pow, hpow]
    omega
  rw [quietNanForcingMask, ieee754BitFields_width hf]
  simp only [Option.bind_eq_bind, Option.bind_some, hhalf]
  rfl

end Masks

/-! ### The guards -/

variable {T : Theory} {ρ : T.Env} {f : FloatFormat} {v lhs rhs tblTerm : Expr}

/-- What an answer of the guard says. -/
def OperandNan.Says (ρ : T.Env) (isNan : Prop) : OperandNan → Prop
  | always => isNan
  | never => ¬ isNan
  | maybe g => g.WellSorted ∧ g.sort = .bool ∧ (Holds ρ g ↔ isNan)

/-- A literal is answered as the guard built for a symbolic operand would answer. -/
theorem literalNan_eq {w : ℕ} (hf : f ∈ ieeeFormats) {a : BitVec w} (ha : Denotes ρ v a)
    {b : Bool} (h : literalNan v f.width = some b) : b = true ↔ f.read a.toNat = .nan := by
  unfold literalNan at h
  split at h
  case h_1 constWidth value =>
    split_ifs at h with hw
    rw [ieee754BitFields_width hf, Option.map_some, Option.some.injEq] at h
    have hnat := ha.hasNat.toNat
    have hsort := ha.sort
    simp only [sort_app, Op.resultSort, SmtSort.bitvec.injEq] at hsort
    subst hsort
    rw [bits_bitVecConst] at hnat
    rw [← h, decide_eq_true_eq, literal_nan_iff, hnat]
  case h_2 => cases h

/-- The guards of constants and of symbolic operands ask the same. -/
theorem operandNanGuard_spec (hf : f ∈ ieeeFormats) {a : BitVec f.width} (ha : Denotes ρ v a) :
    (operandNanGuard v f.width).Says ρ (f.read a.toNat = .nan) := by
  rw [operandNanGuard]
  cases h : literalNan v f.width with
  | none =>
    obtain ⟨g, hg, hgw, hgs, hiff⟩ :=
      exists_buildFloatPredicateExpr hf ha.hasNat ha.wellSorted .nan
    simp only [hg]
    exact ⟨hgw, hgs, hiff⟩
  | some b =>
    have hb := literalNan_eq hf ha h
    cases b with
    | true => exact hb.1 rfl
    | false => exact fun hnan => absurd (hb.2 hnan) (by decide)

/-- An operand is no number. -/
def NanAt (ρ : T.Env) (f : FloatFormat) (v : Expr) : Prop :=
  ∃ a : BitVec f.width, Denotes ρ v a ∧ f.read a.toNat = .nan

theorem nanAt_iff {a : BitVec f.width} (ha : Denotes ρ v a) :
    NanAt ρ f v ↔ f.read a.toNat = .nan := by
  refine ⟨fun ⟨b, hb, hnan⟩ => ?_, fun h => ⟨a, ha, h⟩⟩
  rwa [← ofBV_inj.1 (hb.value.symm.trans ha.value)]

/-- The guard collected over the operands. -/
theorem nanCondition_spec (hf : f ∈ ieeeFormats) :
    ∀ {operands : List Expr} {cond : Option Expr},
      (∀ v ∈ operands, ∃ a : BitVec f.width, Denotes ρ v a) →
      (∀ c ∈ cond, c.WellSorted ∧ c.sort = .bool) →
      (nanCondition f.width operands cond).Says ρ
        ((∃ c ∈ cond, Holds ρ c) ∨ ∃ v ∈ operands, NanAt ρ f v)
  | [], none, _, _ => by simp [nanCondition, OperandNan.Says]
  | [], some c, _, hc => ⟨(hc c rfl).1, (hc c rfl).2, by simp⟩
  | v :: operands, cond, hops, hcond => by
    obtain ⟨a, ha⟩ := hops v (by simp)
    have hsays := operandNanGuard_spec hf ha
    rw [← nanAt_iff ha] at hsays
    have hrest := fun u hu => hops u (List.mem_cons_of_mem _ hu)
    rw [nanCondition]
    cases hg : operandNanGuard v f.width with
    | always =>
      rw [hg] at hsays
      exact .inr ⟨v, by simp, hsays⟩
    | never =>
      rw [hg] at hsays
      have hnot : ¬ NanAt ρ f v := hsays
      simpa [hnot] using nanCondition_spec hf hrest hcond
    | maybe g =>
      rw [hg] at hsays
      obtain ⟨hgw, hgs, hiff⟩ := hsays
      -- the guards so far, or this one
      have hadd : ((addGuard cond g).WellSorted ∧ (addGuard cond g).sort = .bool) ∧
          (Holds ρ (addGuard cond g) ↔ (∃ c ∈ cond, Holds ρ c) ∨ NanAt ρ f v) := by
        cases cond with
        | none => exact ⟨⟨hgw, hgs⟩, by simpa [addGuard] using hiff⟩
        | some prev =>
          obtain ⟨hpw, hps⟩ := hcond prev rfl
          refine ⟨⟨?_, ?_⟩, ?_⟩
          · simp [addGuard, Op.accepts, hpw, hps, hgw, hgs, SmtSort.isBool]
          · simp [addGuard, Op.resultSort]
          · simp [addGuard, hiff]
      have hguard : ∀ c ∈ some (addGuard cond g), c.WellSorted ∧ c.sort = .bool := by
        simpa using hadd.1
      have ih := nanCondition_spec hf hrest hguard
      simpa only [Option.mem_def, Option.some.injEq, exists_eq_left', hadd.2, List.mem_cons,
        exists_eq_or_imp, or_assoc] using ih

/-! ### The refinements -/

section Refinements

variable {a b c : BitVec f.width}

/-- A branch on a guard. -/
theorem denotes_ite {w : ℕ} {g e e' : Expr} {u u' d : BitVec w} (hgw : g.WellSorted)
    (hgs : g.sort = .bool) (he : Denotes ρ e u) (he' : Denotes ρ e' u')
    (hu : Holds ρ g → u = d) (hu' : ¬ Holds ρ g → u' = d) : Denotes ρ (.ite g e e') d := by
  refine ⟨?_, ?_⟩
  · simp [Op.accepts, hgw, hgs, he.wellSorted, he'.wellSorted, he.sort, he'.sort, SmtSort.isBool]
  · rw [eval_ite (he.sort.trans he'.sort.symm), he.value, he'.value]
    split_ifs with h
    · rw [hu h]
    · rw [hu' h]

/-- The mask leaves a quiet pattern that is no number as it is. -/
theorem or_bits_quietMask (hf : f ∈ ieeeFormats) (hc : IsQuietNan f c.toNat) :
    c ||| BitVec.ofNat f.width (quietMask f) = c := by
  refine BitVec.eq_of_toNat_eq ?_
  have hor := or_quietMask (mantBits_pos hf) hc
  have hle : quietMask f ≤ c.toNat := by
    rw [← hor]
    exact Nat.right_le_or
  rw [BitVec.toNat_or, BitVec.toNat_ofNat, Nat.mod_eq_of_lt (hle.trans_lt c.isLt), hor]

/-- The first refinement keeps a result that is quiet wherever an operand is no number. -/
theorem denotes_refineNanPropagation (hf : f ∈ ieeeFormats) (hl : Denotes ρ lhs a)
    (hr : Denotes ρ rhs b) (ht : Denotes ρ tblTerm c)
    (hc : f.read a.toNat = .nan ∨ f.read b.toNat = .nan → IsQuietNan f c.toNat) :
    Denotes ρ (refineNanPropagation lhs rhs f.width tblTerm) c := by
  have hnan : (∃ v ∈ [lhs, rhs], NanAt ρ f v) ↔
      f.read a.toNat = .nan ∨ f.read b.toNat = .nan := by
    simp [nanAt_iff hl, nanAt_iff hr]
  have hops : ∀ v ∈ [lhs, rhs], ∃ x : BitVec f.width, Denotes ρ v x := by
    simpa using ⟨⟨a, hl⟩, ⟨b, hr⟩⟩
  have hspec := @nanCondition_spec _ ρ f hf [lhs, rhs] none hops (by simp)
  simp only [Option.not_mem_none, false_and, exists_false, false_or, hnan] at hspec
  rw [refineNanPropagation, quietNanForcingMask_width hf]
  simp only
  have hnanify := ht.or (denotes_const (BitVec.ofNat f.width (quietMask f)))
  cases hcond : nanCondition f.width [lhs, rhs] none with
  | always =>
    rw [hcond] at hspec
    rwa [or_bits_quietMask hf (hc hspec)] at hnanify
  | never => exact ht
  | maybe g =>
    rw [hcond] at hspec
    obtain ⟨hgw, hgs, hiff⟩ := hspec
    exact denotes_ite hgw hgs hnanify ht (fun h => or_bits_quietMask hf (hc (hiff.1 h))) fun _ => rfl

/-- The second refinement keeps a result that is zero wherever a finite operand is subtracted
from itself. -/
theorem denotes_refineSubReflexiveBoundary (hf : f ∈ ieeeFormats) {op : BinOp}
    (hl : Denotes ρ lhs a) (hr : Denotes ρ rhs b) (ht : Denotes ρ tblTerm c)
    (hc : op = .sub ∨ op = .subUnchecked → a = b → (∃ q, f.read a.toNat = .finite q) → c = 0) :
    Denotes ρ (refineSubReflexiveBoundary op lhs rhs f.width tblTerm) c := by
  rw [refineSubReflexiveBoundary]
  split_ifs with hop
  · obtain ⟨g, hg, hgw, hgs, hiff⟩ :=
      exists_buildFloatPredicateExpr hf hl.hasNat hl.wellSorted .finite
    rw [hg]
    have heq : Holds ρ (.eq lhs rhs) ↔ a = b := by
      rw [Expr.holds_eq, hl.value, hr.value, ofBV_inj]
    have hand : Holds ρ (.and [.eq lhs rhs, g]) ↔
        a = b ∧ ∃ q, f.read a.toNat = .finite q := by
      rw [Expr.holds_and]
      simp only [List.mem_cons, List.not_mem_nil, or_false, forall_eq_or_imp, forall_eq, heq]
      exact and_congr_right fun _ => hiff
    refine denotes_ite ?_ (by simp [Op.resultSort]) (denotes_const _) ht (fun h => ?_) fun _ => rfl
    · simp [Op.accepts, Op.resultSort, hl.sort, hr.sort, hl.wellSorted, hr.wellSorted, hgw, hgs,
        SmtSort.isBool]
    · rw [hc hop (hand.1 h).1 (hand.1 h).2]
      rfl
  · exact ht

end Refinements

/-! ### The table -/

/-- The number of a key. -/
def keyNumber (w : ℕ) (o : FloatOp) (a b : ℕ) : ℕ := (o.tag * 2 ^ w + a) * 2 ^ w + b

/-- A key is read back as the operation and the operands. -/
theorem keyNumber_spec {w a b : ℕ} (o : FloatOp) (ha : a < 2 ^ w) (hb : b < 2 ^ w) :
    keyNumber w o a b / 2 ^ w / 2 ^ w = o.tag ∧ keyNumber w o a b / 2 ^ w % 2 ^ w = a ∧
      keyNumber w o a b % 2 ^ w = b := by
  have hpos : 0 < 2 ^ w := by positivity
  have hdiv : keyNumber w o a b / 2 ^ w = o.tag * 2 ^ w + a := by
    rw [keyNumber, mul_comm, Nat.mul_add_div hpos, Nat.div_eq_of_lt hb, add_zero]
  refine ⟨?_, ?_, ?_⟩
  · rw [hdiv, mul_comm, Nat.mul_add_div hpos, Nat.div_eq_of_lt ha, add_zero]
  · rw [hdiv, Nat.mul_add_mod_of_lt ha]
  · rw [keyNumber, Nat.mul_add_mod_of_lt hb]

/-- Keys of one number are of one operation and of the same operands in the same order. -/
theorem keyNumber_inj {w a b a' b' : ℕ} {o o' : FloatOp} (ha : a < 2 ^ w) (hb : b < 2 ^ w)
    (ha' : a' < 2 ^ w) (hb' : b' < 2 ^ w) :
    keyNumber w o a b = keyNumber w o' a' b' ↔ o = o' ∧ a = a' ∧ b = b' := by
  refine ⟨fun h => ?_, fun ⟨h₁, h₂, h₃⟩ => h₁ ▸ h₂ ▸ h₃ ▸ rfl⟩
  obtain ⟨ht, hx, hy⟩ := keyNumber_spec o ha hb
  obtain ⟨ht', hx', hy'⟩ := keyNumber_spec o' ha' hb'
  rw [h] at ht hx hy
  exact ⟨FloatOp.tag_inj.1 (ht.symm.trans ht'), hx.symm.trans hx', hy.symm.trans hy'⟩

/-- The table of a family of operations. -/
def realTable {w : ℕ} (F : FloatOp → BitVec w → BitVec w → BitVec w) : T.Val :=
  ⟨.array (.bitvec (8 + 2 * w)) (.bitvec w), fun k : BitVec (8 + 2 * w) =>
    F (FloatOp.ofTag (k.toNat / 2 ^ w / 2 ^ w)) (BitVec.ofNat w (k.toNat / 2 ^ w % 2 ^ w))
      (BitVec.ofNat w (k.toNat % 2 ^ w))⟩

theorem selectVal_realTable {w : ℕ} (F : FloatOp → BitVec w → BitVec w → BitVec w) (k : T.Val) :
    selectVal (realTable F) k =
      ofBV (F (FloatOp.ofTag ((k.toBV (8 + 2 * w)).toNat / 2 ^ w / 2 ^ w))
        (BitVec.ofNat w ((k.toBV (8 + 2 * w)).toNat / 2 ^ w % 2 ^ w))
        (BitVec.ofNat w ((k.toBV (8 + 2 * w)).toNat % 2 ^ w))) := rfl

section Table

variable {w : ℕ} {a b : BitVec w} {o : FloatOp} {op : BinOp}

/-- The key of two operands. -/
theorem exists_key (ho : FloatOp.ofBinOp op = some o) (hl : Denotes ρ lhs a)
    (hr : Denotes ρ rhs b) :
    ∃ key, floatBinopCongruentKey op lhs rhs w = some key ∧ key.WellSorted ∧
      HasNat ρ key (8 + 2 * w) (keyNumber w o a.toNat b.toNat) := by
  have htag : HasNat ρ (bvConst 8 o.tag) 8 o.tag := hasNat_const o.tag_lt
  refine ⟨.app .bvConcat [.app .bvConcat [bvConst 8 o.tag, lhs], rhs], ?_, ?_,
    ((htag.concat hl.hasNat).concat hr.hasNat).cast (by omega) rfl⟩
  · rw [floatBinopCongruentKey, floatBinopOpTag_eq, ho]
    simp [hl.bitvecWidth, hr.bitvecWidth]
  · simp [bvConst, Op.accepts, Op.resultSort, hl.sort, hr.sort, hl.wellSorted, hr.wellSorted,
      SmtSort.isBitvec, SmtSort.bitvecWidth]

/-- Reading the table of the operations at a key is the operation. -/
theorem eval_select_realTable {F : FloatOp → BitVec w → BitVec w → BitVec w} {tbl key : Expr}
    (htbl : tbl.eval ρ = realTable F)
    (hkey : HasNat ρ key (8 + 2 * w) (keyNumber w o a.toNat b.toNat)) :
    (Expr.select tbl key).eval ρ = ofBV (F o a b) := by
  obtain ⟨ht, hx, hy⟩ := keyNumber_spec o a.isLt b.isLt
  rw [eval_select, htbl, selectVal_realTable, hkey.eval_eq, toBV_ofBV, BitVec.toNat_ofNat,
    Nat.mod_eq_of_lt hkey.lt, ht, hx, hy, FloatOp.ofTag_tag, BitVec.ofNat_toNat,
    BitVec.ofNat_toNat, BitVec.setWidth_eq, BitVec.setWidth_eq]

end Table

/-! ### Declared tables -/

/-- The input side of `push_state_var_pair`. -/
def pushStateVar (stateVars : List (String × SmtSort)) (name : String) (sort : SmtSort) :
    List (String × SmtSort) :=
  if (stateVars.find? (·.1 == name)).isSome then stateVars else stateVars ++ [(name, sort)]

/-- `collect_float_binop_table_state_vars`, one width. -/
def declareTable (stateVars : List (String × SmtSort)) (width : ℕ) : List (String × SmtSort) :=
  match floatBinopTableName width, floatBinopTableSort width with
  | some name, some sort => pushStateVar stateVars name sort
  | _, _ => stateVars

/-- The table of a width is a state variable, with its sort. -/
def Declared (stateVars : List (String × SmtSort)) (w : ℕ) (name : String) : Prop :=
  floatBinopTableName w = some name ∧
    floatBinopTableVar stateVars w =
      some (.var name (.array (.bitvec (8 + 2 * w)) (.bitvec w)))

/-- Declaring it makes it one, unless the name stands for another sort. -/
theorem declared_declareTable {stateVars : List (String × SmtSort)} {w : ℕ} {name : String}
    (hname : floatBinopTableName w = some name)
    (hfree : ∀ v ∈ stateVars, v.1 = name → v.2 = .array (.bitvec (8 + 2 * w)) (.bitvec w)) :
    Declared (declareTable stateVars w) w name := by
  refine ⟨hname, ?_⟩
  rw [floatBinopTableVar, declareTable, floatBinopTableSort, hname]
  simp only [Option.bind_eq_bind, Option.bind_some, Option.map_some]
  rw [pushStateVar]
  cases hfind : stateVars.find? (·.1 == name) with
  | none =>
    rw [if_neg (by simp), List.find?_append, hfind]
    simp
  | some v =>
    have heq : v.1 = name := by simpa using List.find?_some hfind
    have hsort := hfree v (List.mem_of_find?_eq_some hfind) heq
    rw [if_pos (by simp), hfind]
    simp [heq, hsort]

/-! ### All operations -/

/-- Folding two literals follows the operations. -/
def FoldsAs (T : Theory) (fold : BinOp → Expr → Expr → ℕ → Option Expr)
    (F : FloatOp → BitVec f.width → BitVec f.width → BitVec f.width) : Prop :=
  ∀ {ρ : T.Env} {op : BinOp} {o : FloatOp} {lhs rhs e : Expr} {a b : BitVec f.width},
    FloatOp.ofBinOp op = some o → fold op lhs rhs f.width = some e → Denotes ρ lhs a →
      Denotes ρ rhs b → Denotes ρ e (F o a b)

theorem ieee_of_table (hf : f ∈ tableFormats) : f ∈ ieeeFormats := by
  simp only [tableFormats, ieeeFormats, List.mem_cons, List.not_mem_nil, or_false] at hf ⊢
  tauto

theorem ofBinOp_of_sub {op : BinOp} {o : FloatOp} (ho : FloatOp.ofBinOp op = some o)
    (hop : op = .sub ∨ op = .subUnchecked) : o = .sub := by
  rcases hop with rfl | rfl <;> exact (Option.some.inj ho).symm

/-- Where the table is the one of the operations, the term is the operation. -/
theorem denotes_floatBinopChcTerm (hf : f ∈ tableFormats)
    {F : FloatOp → BitVec f.width → BitVec f.width → BitVec f.width} (hF : Arithmetical f F)
    {fold : BinOp → Expr → Expr → ℕ → Option Expr} (hfold : FoldsAs T fold F)
    {stateVars : List (String × SmtSort)} {name : String} (hdecl : Declared stateVars f.width name)
    (hρ : (⟨_, ρ name (.array (.bitvec (8 + 2 * f.width)) (.bitvec f.width))⟩ : T.Val) = realTable F)
    {op : BinOp} {o : FloatOp} (ho : FloatOp.ofBinOp op = some o) {a b : BitVec f.width}
    (hl : Denotes ρ lhs a) (hr : Denotes ρ rhs b) :
    ∃ e, floatBinopChcTerm fold stateVars op lhs rhs f.width = some e ∧ Denotes ρ e (F o a b) := by
  have hieee := ieee_of_table hf
  rw [floatBinopChcTerm]
  cases h : fold op lhs rhs f.width with
  | some e => exact ⟨e, rfl, hfold ho h hl hr⟩
  | none =>
    obtain ⟨key, hkey, hkeyw, hnat⟩ := exists_key ho hl hr
    have htbl : (Expr.var name
        (.array (.bitvec (8 + 2 * f.width)) (.bitvec f.width))).eval ρ = realTable F :=
      (eval_var _ _ _).trans hρ
    have hselect : Denotes ρ (.select (.var name
        (.array (.bitvec (8 + 2 * f.width)) (.bitvec f.width))) key) (F o a b) := by
      refine ⟨?_, eval_select_realTable htbl hnat⟩
      simp [Op.accepts, hkeyw, hnat.sort, SmtSort.arraySort]
    simp only [hdecl.2, hkey, Option.bind_eq_bind, Option.bind_some]
    refine ⟨_, rfl, denotes_refineSubReflexiveBoundary hieee hl hr
      (denotes_refineNanPropagation hieee hl hr hselect (hF.nan o a b)) ?_⟩
    rintro hop rfl hfin
    rw [ofBinOp_of_sub ho hop]
    exact hF.sub_self a hfin

/-- One value of the table realises a family of operations: with it every term of the width is
the operation of its operator, whatever the operands. Keys are equal exactly for one operation
and the same operands in the same order, and a literal is taken for no number exactly where
the guard of a symbolic operand would hold. -/
theorem float_binops_covered (hf : f ∈ tableFormats)
    {F : FloatOp → BitVec f.width → BitVec f.width → BitVec f.width} (hF : Arithmetical f F)
    {fold : BinOp → Expr → Expr → ℕ → Option Expr} (hfold : FoldsAs T fold F)
    {stateVars : List (String × SmtSort)} {name : String}
    (hdecl : Declared stateVars f.width name) :
    (∃ tbl : T.Dom (.array (.bitvec (8 + 2 * f.width)) (.bitvec f.width)), ∀ ρ : T.Env,
        ρ name (.array (.bitvec (8 + 2 * f.width)) (.bitvec f.width)) = tbl →
        ∀ {op : BinOp} {o : FloatOp}, FloatOp.ofBinOp op = some o →
        ∀ {lhs rhs : Expr} {a b : BitVec f.width}, Denotes ρ lhs a → Denotes ρ rhs b →
          ∃ e, floatBinopChcTerm fold stateVars op lhs rhs f.width = some e ∧
            Denotes ρ e (F o a b)) ∧
      (∀ (ρ : T.Env) {op op' : BinOp} {o o' : FloatOp} {lhs rhs lhs' rhs' key key' : Expr}
        {a b a' b' : BitVec f.width}, FloatOp.ofBinOp op = some o → FloatOp.ofBinOp op' = some o' →
        Denotes ρ lhs a → Denotes ρ rhs b → Denotes ρ lhs' a' → Denotes ρ rhs' b' →
        floatBinopCongruentKey op lhs rhs f.width = some key →
        floatBinopCongruentKey op' lhs' rhs' f.width = some key' →
          (key.eval ρ = key'.eval ρ ↔ o = o' ∧ a = a' ∧ b = b')) ∧
      ∀ (ρ : T.Env) {v guard : Expr} {a : BitVec f.width} {b : Bool}, Denotes ρ v a →
        literalNan v f.width = some b → buildFloatPredicateExpr v .nan = some guard →
          (b = true ↔ Holds ρ guard) := by
  have hieee := ieee_of_table hf
  refine ⟨⟨(realTable F : T.Val).2, fun ρ hρ _ _ ho _ _ _ _ hl hr => ?_⟩, ?_, ?_⟩
  · exact denotes_floatBinopChcTerm hf hF hfold hdecl (by rw [hρ]; rfl) ho hl hr
  · intro ρ op op' o o' lhs rhs lhs' rhs' key key' a b a' b' ho ho' hl hr hl' hr' hk hk'
    obtain ⟨k, hkey, -, hnat⟩ := exists_key ho hl hr
    obtain ⟨k', hkey', -, hnat'⟩ := exists_key ho' hl' hr'
    obtain rfl := Option.some.inj (hkey.symm.trans hk)
    obtain rfl := Option.some.inj (hkey'.symm.trans hk')
    rw [hnat.eval_eq, hnat'.eval_eq, ofBV_inj, ← BitVec.toNat_inj, BitVec.toNat_ofNat,
      BitVec.toNat_ofNat, Nat.mod_eq_of_lt hnat.lt, Nat.mod_eq_of_lt hnat'.lt,
      keyNumber_inj a.isLt b.isLt a'.isLt b'.isLt, BitVec.toNat_inj, BitVec.toNat_inj]
  · intro ρ v guard a b hv hlit hguard
    obtain ⟨g, hg, -, -, hiff⟩ :=
      exists_buildFloatPredicateExpr hieee hv.hasNat hv.wellSorted .nan
    obtain rfl := Option.some.inj (hg.symm.trans hguard)
    rw [literalNan_eq hieee hv hlit, hiff]
    rfl

/-- The format of 32 bits. -/
def f32 : FloatFormat := ⟨8, 23, two_le_single_expBits⟩

/-- A family that knows a quiet pattern for what is no number, and zero. -/
def quietOrZero (_ : FloatOp) (a b : BitVec 32) : BitVec 32 :=
  if (f32.exponent a.toNat = f32.maxExponent ∧ f32.mantissa a.toNat ≠ 0) ∨
    (f32.exponent b.toNat = f32.maxExponent ∧ f32.mantissa b.toNat ≠ 0) then 0x7fc00000#32
  else 0#32

theorem arithmetical_quietOrZero : Arithmetical f32 quietOrZero where
  nan o a b h := by
    rw [read_eq_nan_iff, read_eq_nan_iff] at h
    rw [show quietOrZero o a b = 0x7fc00000#32 from if_pos h]
    exact ⟨by decide, by decide⟩
  sub_self a h := by
    rw [exists_read_finite_iff] at h
    exact if_neg fun hnan => h (hnan.elim And.left And.left)

/-- The pattern of one minus itself is the pattern of zero. -/
theorem float_binops_covered_one :
    ∃ (ρ : (default : Theory).Env) (e : Expr), floatBinopChcTerm (fun _ _ _ _ => none)
        [("float_binop_tbl_f32", .array (.bitvec 72) (.bitvec 32))] .sub
        (.var "x" (.bitvec 32)) (.var "x" (.bitvec 32)) 32 = some e ∧
      (Expr.var "x" (.bitvec 32)).eval ρ = ofBV 0x3f800000#32 ∧ Denotes ρ e 0#32 := by
  have hdecl : Declared (declareTable [] 32) 32 "float_binop_tbl_f32" :=
    declared_declareTable rfl (by simp)
  have hfold : FoldsAs (f := f32) default (fun _ _ _ _ => none) quietOrZero := by
    intro _ _ _ _ _ _ _ _ _ h
    cases h
  have hsub : FloatOp.ofBinOp .sub = some .sub := rfl
  obtain ⟨⟨tbl, htbl⟩, -⟩ := float_binops_covered (f := f32) (T := default)
    (by simp [tableFormats, f32])
    arithmetical_quietOrZero @hfold hdecl
  let ρ : (default : Theory).Env := Theory.Env.ofVals fun n =>
    if n = "x" then ofBV 0x3f800000#32 else ⟨.array (.bitvec 72) (.bitvec 32), tbl⟩
  have hx : Denotes ρ (.var "x" (.bitvec 32)) 0x3f800000#32 := ⟨trivial, eval_var_ofVals rfl⟩
  obtain ⟨e, he, hvalue⟩ := htbl ρ (as_mk _ _) hsub hx hx
  exact ⟨ρ, e, he, hx.value, hvalue⟩

end Floats

end TrustMc
