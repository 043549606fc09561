import TrustMc.Switch.Guards

/-!
# Where a composed switch sends its values

The meaning of a `SwitchInt` is the target of the first case whose bit pattern is the
discriminant's, or the default (`Switch.route`). A case value is the discriminant's
pattern zero- or sign-extended to 128 bits, the latter being how negative cases are
stored.

* `reads`: what a case guard compares. It is the bit pattern on Boolean and bit-vector
  discriminants; on integer-sorted ones it is the *unsigned* case value.
* `selected_codegenSwitchint_iff`, `selected_composedArms_iff`: the blocks the two
  encodings lead to, in terms of `reads`.
-/

namespace TrustMc

namespace Switch

open TrustMc.Expr Carriers Carriers.Val

/-! ### Discriminants -/

/-- A discriminant's type and the sort it is encoded at. -/
inductive Discr
  | bool
  | bitvec (width : ℕ) (h : 0 < width ∧ width ≤ 128)
  | int (signed : Bool) (width : ℕ) (h : 0 < width ∧ width ≤ 128)

namespace Discr

/-- The discriminant's values. -/
def Value : Discr → Type
  | bool => Bool
  | bitvec w _ => BitVec w
  | int _ w _ => BitVec w

/-- The sort of the discriminant term. -/
def sort : Discr → SmtSort
  | bool => .bool
  | bitvec w _ => .bitvec w
  | int _ _ _ => .int

/-- The integer an integer-typed value stands for. -/
def intValue (signed : Bool) {w : ℕ} (v : BitVec w) : ℤ := if signed then v.toInt else v.toNat

/-- The value of the discriminant term. -/
def encode {T : Theory} : (k : Discr) → k.Value → T.Val
  | bool, b => ofBool b
  | bitvec w _, v => ofBV (show BitVec w from v)
  | int s w _, v => ofInt (intValue s (show BitVec w from v))

/-- The case value is the bit pattern, zero- or sign-extended. -/
def extends_ {w : ℕ} (v : BitVec w) (c : BitVec 128) : Bool :=
  c == v.setWidth 128 || c == v.signExtend 128

/-- The case value is the value's bit pattern. -/
def denotes : (k : Discr) → k.Value → BitVec 128 → Bool
  | bool, b, c => c == if (show Bool from b) then 1#128 else 0#128
  | bitvec w _, v, c => extends_ (show BitVec w from v) c
  | int _ w _, v, c => extends_ (show BitVec w from v) c

/-- What the guard of a case compares: on an integer-sorted discriminant, the unsigned
case value. -/
def reads : (k : Discr) → k.Value → BitVec 128 → Bool
  | bool, b, c => denotes bool b c
  | bitvec w h, v, c => denotes (bitvec w h) v c
  | int s w _, v, c => intValue s (show BitVec w from v) == c.toNat

@[simp]
theorem fst_encode {T : Theory} (k : Discr) (v : k.Value) : (k.encode v : T.Val).1 = k.sort := by
  cases k <;> rfl

end Discr

/-! ### Case values -/

theorem getLsbD_mask {w i : ℕ} (hw : w < 128) :
    (mask w).getLsbD i = decide (i < w) := by
  have hpow : (1#128 <<< w).toNat = 2 ^ w := by
    rw [BitVec.toNat_shiftLeft, Nat.shiftLeft_eq]
    have : 2 ^ w < 2 ^ 128 := Nat.pow_lt_pow_right (by omega) hw
    simpa using this
  have hmask : (mask w).toNat = 2 ^ w - 1 := by
    have : 1 ≤ 2 ^ w := Nat.one_le_two_pow
    rw [mask, BitVec.toNat_sub_of_le (by rw [BitVec.le_def, hpow]; simpa), hpow]
    rfl
  rw [BitVec.getLsbD, hmask, Nat.testBit_two_pow_sub_one]

theorem and_mask {w : ℕ} (hw : w < 128) (c : BitVec 128) :
    c &&& mask w = (c.setWidth w).setWidth 128 := by
  refine BitVec.eq_of_getLsbD_eq fun i hi => ?_
  rw [BitVec.getLsbD_and, getLsbD_mask hw, BitVec.getLsbD_setWidth, BitVec.getLsbD_setWidth]
  simp [hi, Bool.and_comm]

theorem signExtended_setWidth {w : ℕ} (hpos : 0 < w) (hw : w < 128) (v : BitVec w) :
    signExtended w (v.setWidth 128) = v.signExtend 128 := by
  have hsign : (v.setWidth 128 &&& (1#128 <<< (w - 1)) ≠ 0#128) ↔ v.msb = true := by
    have htwo : 1#128 <<< (w - 1) = BitVec.twoPow 128 (w - 1) := by
      rw [BitVec.twoPow]
    have hne : BitVec.twoPow 128 (w - 1) ≠ 0#128 := by
      intro h
      have := congrArg (BitVec.getLsbD · (w - 1)) h
      simp at this
      omega
    rw [htwo, BitVec.and_twoPow, BitVec.getLsbD_setWidth, BitVec.msb_eq_getLsbD_last,
      decide_eq_true (by omega : w - 1 < 128), Bool.true_and]
    split <;> simp_all
  rw [signExtended]
  refine BitVec.eq_of_getLsbD_eq fun i hi => ?_
  rw [BitVec.getLsbD_signExtend]
  by_cases hm : v.msb = true
  · rw [if_pos (hsign.2 hm), BitVec.getLsbD_or, BitVec.getLsbD_not, getLsbD_mask hw]
    by_cases hiw : i < w <;> simp [hi, hiw, hm]
  · rw [if_neg (mt hsign.1 hm), BitVec.getLsbD_setWidth]
    by_cases hiw : i < w
    · simp [hi, hiw]
    · simp [hiw, hm, BitVec.getLsbD_of_ge v i (by omega)]

/-- The masked case value passes the extension check and is the value exactly if the case
value is an extension of the value. -/
theorem extends_iff {w : ℕ} (hpos : 0 < w) (hw : w < 128) (v : BitVec w) (c : BitVec 128) :
    ¬(c &&& mask w ≠ c ∧ signExtended w (c &&& mask w) ≠ c) ∧ v = c.setWidth w ↔
      Discr.extends_ v c = true := by
  rw [and_mask hw, signExtended_setWidth hpos hw, Discr.extends_, Bool.or_eq_true, beq_iff_eq,
    beq_iff_eq]
  constructor
  · rintro ⟨hext, rfl⟩
    by_cases h : (c.setWidth w).setWidth 128 = c
    · exact Or.inl h.symm
    · exact Or.inr (by_contra fun h' => hext ⟨h, fun h'' => h' h''.symm⟩)
  · have hzero : (v.setWidth 128).setWidth w = v := by
      rw [BitVec.setWidth_setWidth_of_le _ (by omega), BitVec.setWidth_eq]
    have hsign : (v.signExtend 128).setWidth w = v := by
      refine BitVec.eq_of_getLsbD_eq fun i hi => ?_
      rw [BitVec.getLsbD_setWidth, BitVec.getLsbD_signExtend]
      simp [hi, show i < 128 by omega]
    rintro (rfl | rfl)
    · rw [hzero]
      exact ⟨fun h => h.1 rfl, rfl⟩
    · rw [hsign]
      exact ⟨fun h => h.2 rfl, rfl⟩

theorem setWidth_setWidth_self {w : ℕ} (hw : w ≤ 128) (v : BitVec w) :
    (v.setWidth 128).setWidth w = v := by
  rw [BitVec.setWidth_setWidth_of_le _ hw, BitVec.setWidth_eq]

/-- At width 128 there is one extension. -/
theorem extends_iff_of_width {w : ℕ} (hw : w = 128) (v : BitVec w) (c : BitVec 128) :
    v = c.setWidth w ↔ Discr.extends_ v c = true := by
  subst hw
  rw [Discr.extends_, BitVec.setWidth_eq, BitVec.setWidth_eq, BitVec.signExtend_eq, Bool.or_self,
    beq_iff_eq, eq_comm]

/-- On an integer-sorted discriminant a case value that is compared equal is the bit
pattern. -/
theorem denotes_of_reads {k : Discr} {v : k.Value} {c : BitVec 128} (h : k.reads v c = true) :
    k.denotes v c = true := by
  cases k with
  | bool => exact h
  | bitvec w hw => exact h
  | int s w hw =>
    have hval : Discr.intValue s (show BitVec w from v) = c.toNat := by
      simpa [Discr.reads] using h
    have hnat : (show BitVec w from v).toNat = c.toNat := by
      unfold Discr.intValue at hval
      split at hval
      · rw [BitVec.toInt_eq_toNat_cond] at hval
        have := (show BitVec w from v).isLt
        split at hval <;> omega
      · exact_mod_cast hval
    have hc : c = (show BitVec w from v).setWidth 128 := by
      refine BitVec.eq_of_toNat_eq ?_
      rw [BitVec.toNat_setWidth, hnat, Nat.mod_eq_of_lt c.isLt]
    simp [Discr.denotes, Discr.extends_, hc]

/-! ### Case guards -/

section Guards

variable {T : Theory} {ρ : T.Env} {k : Discr} {v : k.Value} {discr : Expr}

theorem sort_eq_of_encode (h : discr.eval ρ = k.encode v) : discr.sort = k.sort := by
  rw [← eval_sort discr ρ, h, Discr.fst_encode]

/-- **Case guards.** On the supported sorts every case has a guard, and it is true exactly
on the values it reads. -/
theorem exists_switchintCaseGuard (h : discr.eval ρ = k.encode v) (c : BitVec 128) :
    ∃ g, switchintCaseGuard discr c = some g ∧ (Holds ρ g ↔ k.reads v c = true) := by
  have hsort : discr.sort = k.sort := sort_eq_of_encode h
  cases k with
  | bool =>
    simp only [switchintCaseGuard, hsort, Discr.sort]
    have hdiscr : Holds ρ discr ↔ (show Bool from v) = true := by
      rw [Holds, h]
      exact Bool.eq_iff_iff.1 (toBool_ofBool _)
    by_cases h0 : c = 0#128
    · refine ⟨discr.not, by simp [h0], ?_⟩
      rw [holds_not, hdiscr]
      cases v <;> simp [Discr.reads, Discr.denotes, h0]
    by_cases h1 : c = 1#128
    · refine ⟨discr, by simp [h1], ?_⟩
      rw [hdiscr]
      cases v <;> simp [Discr.reads, Discr.denotes, h1]
    · refine ⟨.boolConst false, by simp [h0, h1], ?_⟩
      cases v <;> simp [Discr.reads, Discr.denotes, h0, h1]
  | bitvec w hw =>
    simp only [switchintCaseGuard, hsort, Discr.sort, if_neg hw.1.ne']
    have heq : ∀ x : BitVec w,
        Holds ρ (discr.eq (.bitVecConst x)) ↔ (show BitVec w from v) = x := by
      intro x
      rw [holds_eq, h, eval_app]
      exact ofBV_inj
    by_cases hlt : w < 128
    · have hext := extends_iff hw.1 hlt (show BitVec w from v) c
      by_cases hover : c &&& mask w ≠ c ∧ signExtended w (c &&& mask w) ≠ c
      · refine ⟨.boolConst false, by simp only [if_pos hlt, if_pos hover], ?_⟩
        have hreads : Discr.extends_ (show BitVec w from v) c ≠ true :=
          fun hreads => (hext.2 hreads).1 hover
        rw [holds_boolConst]
        exact ⟨fun hfalse => absurd hfalse (by decide), fun hreads' => absurd hreads' hreads⟩
      · refine ⟨discr.eq (bitvecConst (c &&& mask w) w),
          by simp only [if_pos hlt, if_neg hover], ?_⟩
        rw [bitvecConst, heq, and_mask hlt, setWidth_setWidth_self hw.2]
        exact ⟨fun hv => hext.1 ⟨hover, hv⟩, fun hreads => (hext.2 hreads).2⟩
    · refine ⟨discr.eq (bitvecConst c w), by simp only [if_neg hlt], ?_⟩
      rw [bitvecConst, heq]
      exact extends_iff_of_width (by omega) _ c
  | int s w hw =>
    refine ⟨discr.eq (.intConst c.toNat), by simp [switchintCaseGuard, hsort, Discr.sort], ?_⟩
    rw [holds_eq, h, Discr.encode]
    simp [Op.interp, Discr.reads]

/-! ### The default guard -/

/-- The `u128` stands for the value: Booleans are `0` and `1`. -/
inductive Represents : T.Val → BitVec 128 → Prop
  | bool (b : Bool) : Represents (ofBool b) (if b then 1#128 else 0#128)
  | bitvec {w : ℕ} (y : BitVec w) (x : BitVec 128) (h : y.toNat = x.toNat) :
      Represents (ofBV y) x
  | int (x : BitVec 128) : Represents (ofInt x.toNat) x

theorem represents_constValue {op : Op} {args : List Expr} {x : BitVec 128}
    (h : constValue op = some x) : Represents ((app op args).eval ρ) x := by
  rw [eval_app]
  cases op with
  | bitVecConst w y =>
    simp only [constValue] at h
    split at h
    · rename_i hlt
      obtain rfl := Option.some.inj h
      exact .bitvec y _ (by rw [BitVec.toNat_ofNat, Nat.mod_eq_of_lt hlt])
    · cases h
  | intConst z =>
    simp only [constValue] at h
    split at h
    · rename_i hz
      obtain rfl := Option.some.inj h
      have hnat : ((BitVec.ofInt 128 z).toNat : ℤ) = z := by
        rw [BitVec.toNat_ofInt]
        omega
      have := Represents.int (T := T) (BitVec.ofInt 128 z)
      rwa [hnat] at this
    · cases h
  | _ => simp [constValue] at h

theorem mem_foldl_push {vs us : List (BitVec 128)} {x : BitVec 128} :
    x ∈ us.foldl (fun vs v => if v ∈ vs then vs else vs ++ [v]) vs ↔ x ∈ vs ∨ x ∈ us := by
  induction us generalizing vs with
  | nil => simp
  | cons u us ih =>
    rw [List.foldl_cons, ih]
    by_cases hu : u ∈ vs
    · rw [if_pos hu, List.mem_cons]
      have hmem : x = u → x ∈ vs := fun h => h ▸ hu
      tauto
    · rw [if_neg hu, List.mem_append, List.mem_singleton, List.mem_cons, or_assoc]

theorem sort_eq_of_wellSorted_ite {c a b : Expr} (h : (Expr.ite c a b).WellSorted) :
    a.sort = b.sort := by
  have haccepts : c.sort.isBool = true ∧ a.sort = b.sort := by
    simpa [Op.accepts] using (wellSorted_app.1 h).1
  exact haccepts.2

theorem represents_of_sort_bool {e : Expr} (h : e.sort = .bool) :
    ∃ x ∈ [0#128, 1#128], Represents (e.eval ρ) x := by
  have hbool : e.eval ρ = ofBool (e.eval ρ).toBool := (ofBool_toBool (by simp [h])).symm
  rw [hbool]
  refine ⟨_, ?_, .bool _⟩
  cases (e.eval ρ).toBool <;> simp

/-- The syntactic value set contains the value. -/
theorem exists_mem_finiteSwitchintValues {e : Expr} {depth : ℕ} {values : List (BitVec 128)}
    (hws : e.WellSorted) (h : finiteSwitchintValues e depth = some values) :
    ∃ x ∈ values, Represents (e.eval ρ) x := by
  induction e, depth using finiteSwitchintValues.induct generalizing values with
  | case1 e depth hdepth =>
    -- too deep
    rw [finiteSwitchintValues.eq_def, if_pos hdepth] at h
    cases h
  | case2 e depth hdepth hbool =>
    rw [finiteSwitchintValues.eq_def, if_neg hdepth, if_pos hbool] at h
    exact Option.some.inj h ▸ represents_of_sort_bool (SmtSort.isBool_iff.1 hbool)
  | case3 depth hdepth c a b hbool iha ihb =>
    -- the values of both branches, of which one is taken
    have hargs := (wellSorted_app.1 hws).2
    rw [finiteSwitchintValues, if_neg hdepth, if_neg hbool] at h
    simp only [Option.bind_eq_bind, Option.bind_eq_some_iff, Option.some.injEq] at h
    obtain ⟨va, ha, vb, hb, rfl⟩ := h
    rw [eval_ite (sort_eq_of_wellSorted_ite hws)]
    by_cases hc : Holds ρ c
    · rw [if_pos hc]
      obtain ⟨x, hx, hrep⟩ := iha (hargs a (by simp)) ha
      exact ⟨x, mem_foldl_push.2 (Or.inl hx), hrep⟩
    · rw [if_neg hc]
      obtain ⟨x, hx, hrep⟩ := ihb (hargs b (by simp)) hb
      exact ⟨x, mem_foldl_push.2 (Or.inr hx), hrep⟩
  | case4 depth hdepth op args hite hbool =>
    -- a constant is its own value, and of other applications nothing is known
    rw [finiteSwitchintValues.eq_def, if_neg hdepth, if_neg hbool] at h
    obtain ⟨x, hx, rfl⟩ : ∃ x, constValue op = some x ∧ [x] = values := by
      split at h
      · rename_i heq
        obtain ⟨hop, hargs⟩ := app.inj heq
        exact absurd hargs (hite _ _ _ hop)
      · rename_i heq
        obtain ⟨rfl, rfl⟩ := app.inj heq
        simpa using h
      · rename_i hne
        exact absurd rfl (hne op args)
    exact ⟨x, by simp, represents_constValue hx⟩
  | case5 e depth hdepth hbool hite happ =>
    -- variables and quantifiers have no value set
    rw [finiteSwitchintValues.eq_def, if_neg hdepth, if_neg hbool] at h
    split at h
    · exact absurd rfl (hite _ _ _)
    · exact absurd rfl (happ _ _)
    · cases h

theorem represents_ofBool {b : Bool} {x : BitVec 128} (h : Represents (T := T) (ofBool b) x) :
    x = if b then 1#128 else 0#128 := by
  generalize hv : (ofBool b : T.Val) = w at h
  cases h with
  | bool b' => rw [ofBool_inj.1 hv]
  | bitvec y x hy => exact absurd (congrArg Sigma.fst hv) (by simp)
  | int x => exact absurd (congrArg Sigma.fst hv) (by simp)

theorem represents_ofBV {w : ℕ} {y : BitVec w} {x : BitVec 128}
    (h : Represents (T := T) (ofBV y) x) : y.toNat = x.toNat := by
  generalize hv : (ofBV y : T.Val) = u at h
  cases h with
  | bool b' => exact absurd (congrArg Sigma.fst hv) (by simp)
  | bitvec y' x hy =>
    obtain rfl := SmtSort.bitvec.inj (congrArg Sigma.fst hv)
    rw [ofBV_inj.1 hv, hy]
  | int x => exact absurd (congrArg Sigma.fst hv) (by simp)

theorem represents_ofInt {z : ℤ} {x : BitVec 128} (h : Represents (T := T) (ofInt z) x) :
    z = x.toNat := by
  generalize hv : (ofInt z : T.Val) = u at h
  cases h with
  | bool b' => exact absurd (congrArg Sigma.fst hv) (by simp)
  | bitvec y' x hy => exact absurd (congrArg Sigma.fst hv) (by simp)
  | int x => exact ofInt_inj.1 hv

/-- A case value that is normalised to the `u128` standing for a value reads it. -/
theorem reads_of_normalize (hsort : discr.sort = k.sort) {c x : BitVec 128}
    (hc : normalizeSwitchintCaseForSort discr c = some x)
    (hx : Represents (T := T) (k.encode v) x) : k.reads v c = true := by
  unfold normalizeSwitchintCaseForSort at hc
  cases k with
  | bool =>
    simp only [hsort, Discr.sort] at hc
    split at hc
    · obtain rfl := Option.some.inj hc
      simp only [Discr.reads, Discr.denotes, beq_iff_eq]
      exact represents_ofBool hx
    · cases hc
  | bitvec w hw =>
    have hnat := represents_ofBV hx
    simp only [hsort, Discr.sort, if_neg hw.1.ne'] at hc
    by_cases hlt : w < 128
    · rw [if_pos hlt] at hc
      split at hc
      · cases hc
      · rename_i hover
        obtain rfl := Option.some.inj hc
        refine (extends_iff hw.1 hlt _ c).1 ⟨hover, BitVec.eq_of_toNat_eq ?_⟩
        rw [hnat, and_mask hlt, BitVec.toNat_setWidth_of_le (by omega)]
    · rw [if_neg hlt] at hc
      obtain rfl := Option.some.inj hc
      refine (extends_iff_of_width (by omega) _ c).1 (BitVec.eq_of_toNat_eq ?_)
      rw [hnat, BitVec.toNat_setWidth_of_le (by omega)]
  | int s w hw =>
    simp only [hsort, Discr.sort, Option.some.injEq] at hc
    subst hc
    simpa [Discr.reads] using represents_ofInt hx

/-- Cases that cover the discriminant's value set read its value. -/
theorem exists_reads_of_cover {cs : List (BitVec 128)} (hws : discr.WellSorted)
    (h : discr.eval ρ = k.encode v) (hcover : switchintCasesCoverExpr discr cs = true) :
    ∃ c ∈ cs, k.reads v c = true := by
  unfold switchintCasesCoverExpr at hcover
  split at hcover
  · cases hcover
  · rename_i values hvalues
    rw [Bool.and_eq_true, List.all_eq_true] at hcover
    obtain ⟨x, hx, hrep⟩ : ∃ x ∈ values, Represents (discr.eval ρ) x :=
      exists_mem_finiteSwitchintValues hws hvalues
    have hmem := of_decide_eq_true (hcover.2 x hx)
    obtain ⟨c, hc, hnorm⟩ := List.mem_filterMap.1 hmem
    exact ⟨c, hc, reads_of_normalize (sort_eq_of_encode h) hnorm (h ▸ hrep)⟩

theorem holds_reduceAnd {gs : List Expr} {g : Expr} (h : reduceAnd gs = some g) :
    Holds ρ g ↔ ∀ g' ∈ gs, Holds ρ g' := by
  cases gs with
  | nil => cases h
  | cons g₀ gs =>
    obtain rfl := Option.some.inj h
    have hfold : ∀ acc : Expr, Holds ρ (gs.foldl (fun acc g => .and [acc, g]) acc) ↔
        Holds ρ acc ∧ ∀ g' ∈ gs, Holds ρ g' := by
      induction gs with
      | nil => simp
      | cons g₁ gs ih =>
        intro acc
        rw [List.foldl_cons, ih (by rfl)]
        simp [and_assoc]
    simpa using hfold g₀

/-- **Default guard.** The default's guard is true exactly on the values no case reads. -/
theorem holds_switchintOtherwiseGuard {cs : List (BitVec 128)} (hws : discr.WellSorted)
    (h : discr.eval ρ = k.encode v) :
    (∀ g ∈ switchintOtherwiseGuard discr cs, Holds ρ g) ↔ ∀ c ∈ cs, ¬k.reads v c = true := by
  unfold switchintOtherwiseGuard
  by_cases hcover : switchintCasesCoverExpr discr cs = true
  · obtain ⟨c, hc, hreads⟩ := exists_reads_of_cover hws h hcover
    rw [if_pos hcover]
    constructor
    · intro hfalse
      exact absurd (hfalse _ rfl) (by simp)
    · intro hnone
      exact absurd hreads (hnone c hc)
  · rw [if_neg hcover]
    have hguards : (∀ g ∈ (cs.filterMap (switchintCaseGuard discr)).map Expr.not, Holds ρ g) ↔
        ∀ c ∈ cs, ¬k.reads v c = true := by
      simp only [List.mem_map, List.mem_filterMap, forall_exists_index, and_imp]
      constructor
      · intro hall c hc hreads
        obtain ⟨g, hg, hiff⟩ := exists_switchintCaseGuard h c
        exact holds_not.1 (hall _ g c hc hg rfl) (hiff.2 hreads)
      · rintro hall _ g c hc hg rfl
        obtain ⟨g', hg', hiff⟩ := exists_switchintCaseGuard h c
        obtain rfl := Option.some.inj (hg'.symm.trans hg)
        exact holds_not.2 (mt hiff.1 (hall c hc))
    rw [← hguards]
    cases hgs : (cs.filterMap (switchintCaseGuard discr)).map Expr.not with
    | nil => simp [reduceAnd]
    | cons g₀ gs =>
      have hreduce : ∀ g, reduceAnd (g₀ :: gs) = some g →
          (Holds ρ g ↔ ∀ g' ∈ g₀ :: gs, Holds ρ g') :=
        fun g hg => holds_reduceAnd hg
      simpa [reduceAnd] using hreduce _ rfl

/-- A default beside some case has a guard. -/
theorem exists_switchintOtherwiseGuard (h : discr.eval ρ = k.encode v) {cs : List (BitVec 128)}
    {c : BitVec 128} (hc : c ∈ cs) : ∃ g, switchintOtherwiseGuard discr cs = some g := by
  unfold switchintOtherwiseGuard
  by_cases hcover : switchintCasesCoverExpr discr cs = true
  · exact ⟨_, if_pos hcover⟩
  · obtain ⟨g, hg, -⟩ := exists_switchintCaseGuard h c
    have hmem : g.not ∈ (cs.filterMap (switchintCaseGuard discr)).map Expr.not :=
      List.mem_map_of_mem (List.mem_filterMap.2 ⟨c, hc, hg⟩)
    rw [if_neg hcover]
    cases hgs : (cs.filterMap (switchintCaseGuard discr)).map Expr.not with
    | nil => exact absurd (hgs ▸ hmem) (List.not_mem_nil)
    | cons g₀ gs => exact ⟨_, rfl⟩

end Guards

/-! ### Routing -/

namespace SwitchTargets

/-- The target of the first case that matches, or the default. -/
def routeBy (targets : SwitchTargets) (matches_ : BitVec 128 → Bool) : ℕ :=
  ((targets.branches.find? fun b => matches_ b.1).map Prod.snd).getD targets.otherwise

/-- **Where the program goes**: the first case that is the value's bit pattern. -/
def route (targets : SwitchTargets) {k : Discr} (v : k.Value) : ℕ := targets.routeBy (k.denotes v)

/-- Where comparing as the guards do leads. -/
def readRoute (targets : SwitchTargets) {k : Discr} (v : k.Value) : ℕ :=
  targets.routeBy (k.reads v)

/-- The blocks a switch leads to. -/
def successors (targets : SwitchTargets) : List ℕ :=
  targets.branches.map Prod.snd ++ [targets.otherwise]

/-- No value is the bit pattern of two cases. -/
def Distinct (targets : SwitchTargets) (k : Discr) : Prop :=
  ∀ v : k.Value, targets.branches.Pairwise fun b b' =>
    ¬(k.denotes v b.1 = true ∧ k.denotes v b'.1 = true)

/-- The first arm naming the block is taken. -/
def FirstArmTaken (targets : SwitchTargets) {k : Discr} (v : k.Value) (bb : ℕ) : Prop :=
  match targets.branches.find? (·.2 == bb) with
  | some (c, _) => k.reads v c = true
  | none => ∀ c ∈ targets.caseVals, ¬k.reads v c = true

end SwitchTargets

/-- Some arm to the block applies: it is unguarded or its guard holds. -/
def Selected {T : Theory} (ρ : T.Env) (arms : List Arm) (bb : ℕ) : Prop :=
  ∃ a ∈ arms, a.1 = bb ∧ ∀ g ∈ a.2, Holds ρ g

/-- The block is the target of a case that is read, or of the default when none is. -/
def Reads (targets : SwitchTargets) {k : Discr} (v : k.Value) (bb : ℕ) : Prop :=
  (∃ b ∈ targets.branches, b.2 = bb ∧ k.reads v b.1 = true) ∨
    (targets.otherwise = bb ∧ ∀ c ∈ targets.caseVals, ¬k.reads v c = true)

theorem eq_of_pairwise_not {α : Type} {l : List α} {P : α → Prop}
    (h : l.Pairwise fun a b => ¬(P a ∧ P b)) {a b : α} (ha : a ∈ l) (hb : b ∈ l) (hPa : P a)
    (hPb : P b) : a = b := by
  induction l with
  | nil => cases ha
  | cons c l ih =>
    obtain ⟨hc, hl⟩ := List.pairwise_cons.1 h
    rcases List.mem_cons.1 ha with rfl | hal <;> rcases List.mem_cons.1 hb with rfl | hbl
    · rfl
    · exact absurd ⟨hPa, hPb⟩ (hc b hbl)
    · exact absurd ⟨hPb, hPa⟩ (hc a hal)
    · exact ih hl hal hbl

/-- With distinct cases, the value goes where it is read. -/
theorem readRoute_eq_iff {targets : SwitchTargets} {k : Discr} (hd : targets.Distinct k)
    {v : k.Value} {bb : ℕ} : targets.readRoute v = bb ↔ Reads targets v bb := by
  unfold SwitchTargets.readRoute SwitchTargets.routeBy Reads
  cases hfind : targets.branches.find? fun b => k.reads v b.1 with
  | none =>
    have hnone : ∀ b ∈ targets.branches, ¬k.reads v b.1 = true := List.find?_eq_none.1 hfind
    rw [Option.map_none, Option.getD_none]
    constructor
    · intro h
      refine Or.inr ⟨h, fun c hc => ?_⟩
      obtain ⟨b, hb, rfl⟩ := List.mem_map.1 hc
      exact hnone b hb
    · rintro (⟨b, hb, -, hreads⟩ | ⟨h, -⟩)
      · exact absurd hreads (hnone b hb)
      · exact h
  | some b₀ =>
    have hb₀ : b₀ ∈ targets.branches := List.mem_of_find?_eq_some hfind
    have hreads₀ : k.reads v b₀.1 = true := by simpa using List.find?_some hfind
    rw [Option.map_some, Option.getD_some]
    constructor
    · intro h
      exact Or.inl ⟨b₀, hb₀, h, hreads₀⟩
    · rintro (⟨b, hb, h, hreads⟩ | ⟨-, hnone⟩)
      · rw [eq_of_pairwise_not (hd v) hb₀ hb (denotes_of_reads hreads₀) (denotes_of_reads hreads)]
        exact h
      · exact absurd hreads₀ (hnone b₀.1 (List.mem_map_of_mem hb₀))

section Encodings

variable {T : Theory} {ρ : T.Env} {k : Discr} {v : k.Value} {discr : Expr}
  {targets : SwitchTargets}

/-- **The per-block encoding** leads exactly to the blocks the value is read to. -/
theorem selected_codegenSwitchint_iff (hws : discr.WellSorted) (h : discr.eval ρ = k.encode v) :
    ∃ arms, codegenSwitchint discr targets = some arms ∧
      ∀ bb, Selected ρ arms bb ↔ Reads targets v bb := by
  choose g hg hiff using exists_switchintCaseGuard h
  have harms : codegenSwitchint discr targets = some
      (targets.branches.map (fun b => (b.2, some (g b.1))) ++
        [(targets.otherwise, switchintOtherwiseGuard discr targets.caseVals)]) := by
    have hmap : targets.branches.mapM (fun b : BitVec 128 × ℕ =>
        (switchintCaseGuard discr b.1).map fun g => ((b.2, some g) : Arm)) =
          some (targets.branches.map fun b => (b.2, some (g b.1))) := by
      simp only [hg, Option.map_some]
      exact List.mapM_pure
    rw [codegenSwitchint, hmap]
    rfl
  refine ⟨_, harms, fun bb => ?_⟩
  have hother : (∀ g ∈ switchintOtherwiseGuard discr targets.caseVals, Holds ρ g) ↔
      ∀ c ∈ targets.caseVals, ¬k.reads v c = true := holds_switchintOtherwiseGuard hws h
  constructor
  · rintro ⟨a, ha, rfl, hguard⟩
    rcases List.mem_append.1 ha with ha | ha
    · obtain ⟨b, hb, rfl⟩ := List.mem_map.1 ha
      exact Or.inl ⟨b, hb, rfl, (hiff b.1).1 (hguard _ rfl)⟩
    · obtain rfl := List.mem_singleton.1 ha
      exact Or.inr ⟨rfl, hother.1 hguard⟩
  · rintro (⟨b, hb, rfl, hreads⟩ | ⟨rfl, hnone⟩)
    · refine ⟨_, List.mem_append_left _ (List.mem_map_of_mem hb), rfl, fun g' hg' => ?_⟩
      obtain rfl := Option.some.inj hg'
      exact (hiff b.1).2 hreads
    · exact ⟨_, List.mem_append_right _ (List.mem_singleton_self _), rfl, hother.2 hnone⟩

/-- The exit rules lead to the blocks outside the fragment that the value is read to. -/
theorem selected_intermediateSwitchintExits_iff {bb : ℕ} (hbb : bb ∈ targets.successors)
    (hws : discr.WellSorted) (h : discr.eval ρ = k.encode v) (t : ℕ) :
    Selected ρ (intermediateSwitchintExits discr targets bb) t ↔ t ≠ bb ∧ Reads targets v t := by
  choose g hg hiff using exists_switchintCaseGuard h
  have hother : (∀ g ∈ switchintOtherwiseGuard discr targets.caseVals, Holds ρ g) ↔
      ∀ c ∈ targets.caseVals, ¬k.reads v c = true := holds_switchintOtherwiseGuard hws h
  constructor
  · rintro ⟨a, ha, rfl, hguard⟩
    rcases List.mem_append.1 ha with ha | ha
    · obtain ⟨b, hb, hab⟩ := List.mem_filterMap.1 ha
      obtain ⟨hb, hne⟩ := List.mem_filter.1 hb
      simp only [hg, Option.map_some, Option.some.injEq] at hab
      subst hab
      exact ⟨by simpa using hne, Or.inl ⟨b, hb, rfl, (hiff b.1).1 (hguard _ rfl)⟩⟩
    · by_cases hne : targets.otherwise ≠ bb
      · rw [if_pos hne] at ha
        obtain ⟨g', hg', rfl⟩ := Option.map_eq_some_iff.1 (Option.mem_toList.1 ha)
        refine ⟨hne, Or.inr ⟨rfl, hother.1 fun g'' hg'' => ?_⟩⟩
        exact hguard g'' (hg'.symm.trans hg'')
      · rw [if_neg hne] at ha
        cases ha
  · rintro ⟨hne, ⟨b, hb, rfl, hreads⟩ | ⟨rfl, hnone⟩⟩
    · refine ⟨(b.2, some (g b.1)), List.mem_append_left _ (List.mem_filterMap.2
        ⟨b, List.mem_filter.2 ⟨hb, by simpa using hne⟩, by simp [hg]⟩), rfl, fun g' hg' => ?_⟩
      obtain rfl := Option.some.inj hg'
      exact (hiff b.1).2 hreads
    · -- the default leaves the fragment, so some case enters it and the guard exists
      obtain ⟨b, hb, rfl⟩ : ∃ b ∈ targets.branches, b.2 = bb := by
        rcases List.mem_append.1 hbb with hbb | hbb
        · exact List.mem_map.1 hbb
        · exact absurd (List.mem_singleton.1 hbb).symm hne
      have hcase : b.1 ∈ targets.caseVals := List.mem_map_of_mem hb
      obtain ⟨g', hg'⟩ := exists_switchintOtherwiseGuard h hcase
      refine ⟨(targets.otherwise, some g'), List.mem_append_right _ ?_, rfl, ?_⟩
      · rw [if_pos hne, hg']
        simp
      · intro g'' hg''
        exact hother.2 hnone g'' (hg'.trans hg'')

theorem otherwise_eq_of_find?_eq_none {bb : ℕ} (hbb : bb ∈ targets.successors)
    (hfind : targets.branches.find? (·.2 == bb) = none) : targets.otherwise = bb := by
  rcases List.mem_append.1 hbb with hbb | hbb
  · obtain ⟨b, hb, hbb⟩ := List.mem_map.1 hbb
    exact absurd (beq_iff_eq.2 hbb) (List.find?_eq_none.1 hfind b hb)
  · exact (List.mem_singleton.1 hbb).symm

/-- A value whose first arm to the block is taken is read to the block. -/
theorem reads_of_firstArmTaken {bb : ℕ} (hbb : bb ∈ targets.successors)
    (h : targets.FirstArmTaken v bb) : Reads targets v bb := by
  unfold SwitchTargets.FirstArmTaken at h
  cases hfind : targets.branches.find? (·.2 == bb) with
  | some b =>
    rw [hfind] at h
    exact Or.inl ⟨b, List.mem_of_find?_eq_some hfind, by simpa using List.find?_some hfind, h⟩
  | none =>
    rw [hfind] at h
    exact Or.inr ⟨otherwise_eq_of_find?_eq_none hbb hfind, h⟩

/-- **The composed encoding** leads to the blocks outside the fragment that the value is
read to, and into the fragment if the first arm naming its successor is taken. -/
theorem selected_composedArms_iff {bb : ℕ} (hbb : bb ∈ targets.successors)
    (hws : discr.WellSorted) (h : discr.eval ρ = k.encode v) (t : ℕ) :
    Selected ρ (composedArms discr targets bb) t ↔
      (t ≠ bb ∧ Reads targets v t) ∨ (t = bb ∧ targets.FirstArmTaken v bb) := by
  have hfirst : (∀ g ∈ switchintGuardForTarget discr targets bb, Holds ρ g) ↔
      targets.FirstArmTaken v bb := by
    unfold switchintGuardForTarget SwitchTargets.FirstArmTaken
    cases hfind : targets.branches.find? (·.2 == bb) with
    | some b =>
      obtain ⟨c, t'⟩ := b
      obtain ⟨g, hg, hiff⟩ := exists_switchintCaseGuard h c
      simp [hg, hiff]
    | none =>
      simp only [if_pos (otherwise_eq_of_find?_eq_none hbb hfind)]
      exact holds_switchintOtherwiseGuard hws h
  rw [← selected_intermediateSwitchintExits_iff hbb hws h, ← hfirst]
  constructor
  · rintro ⟨a, ha, hat, hguard⟩
    rcases List.mem_append.1 ha with ha | ha
    · exact Or.inl ⟨a, ha, hat, hguard⟩
    · obtain rfl := List.mem_singleton.1 ha
      exact Or.inr ⟨hat.symm, hguard⟩
  · rintro (⟨a, ha, hat, hguard⟩ | ⟨rfl, hguard⟩)
    · exact ⟨a, List.mem_append_left _ ha, hat, hguard⟩
    · exact ⟨_, List.mem_append_right _ (List.mem_singleton_self _), rfl, hguard⟩

/-- **When composing a switch loses nothing.** The composed encoding sends the value
exactly where the program does, and where the per-block encoding does, if and only if
comparing as the guards do picks the program's target and, where that is the block inside
the fragment, the first arm naming it is the one taken. -/
theorem composed_switch_exact_iff {bb : ℕ} (hbb : bb ∈ targets.successors)
    (hd : targets.Distinct k) (hws : discr.WellSorted) (h : discr.eval ρ = k.encode v) :
    ((∀ t, Selected ρ (composedArms discr targets bb) t ↔ targets.route v = t) ∧
      ∃ arms, codegenSwitchint discr targets = some arms ∧
        ∀ t, Selected ρ (composedArms discr targets bb) t ↔ Selected ρ arms t) ↔
    targets.readRoute v = targets.route v ∧
      (targets.readRoute v = bb → targets.FirstArmTaken v bb) := by
  obtain ⟨arms, harms, hblock⟩ : ∃ arms, codegenSwitchint discr targets = some arms ∧
      ∀ bb, Selected ρ arms bb ↔ Reads targets v bb := selected_codegenSwitchint_iff hws h
  have hcomposed := selected_composedArms_iff hbb hws h
  have hread : ∀ t, Reads targets v t ↔ targets.readRoute v = t := fun t =>
    (readRoute_eq_iff hd).symm
  simp only [hread] at hcomposed hblock
  constructor
  · rintro ⟨hroute, arms', harms', hagree⟩
    obtain rfl := Option.some.inj (harms.symm.trans harms')
    have hself : Selected ρ (composedArms discr targets bb) (targets.readRoute v) :=
      (hagree _).2 ((hblock _).2 rfl)
    refine ⟨((hroute _).1 hself).symm, fun hin => ?_⟩
    rcases (hcomposed _).1 hself with ⟨hne, -⟩ | ⟨-, hfirst⟩
    · exact absurd hin hne
    · exact hfirst
  · rintro ⟨hroute, hfirst⟩
    have hto : ∀ t, Selected ρ (composedArms discr targets bb) t ↔ targets.readRoute v = t := by
      intro t
      rw [hcomposed]
      constructor
      · rintro (⟨-, ht⟩ | ⟨rfl, htaken⟩)
        · exact ht
        · exact (hread t).1 (reads_of_firstArmTaken hbb htaken)
      · rintro rfl
        by_cases hin : targets.readRoute v = bb
        · exact Or.inr ⟨hin, hfirst hin⟩
        · exact Or.inl ⟨hin, rfl⟩
    refine ⟨fun t => by rw [hto, hroute], arms, harms, fun t => by rw [hto, hblock]⟩

end Encodings

/-! ### A lost case and a misread case -/

/-- The discriminant `d`. -/
def discrVar (k : Discr) : Expr := .var "d" k.sort

/-- The assignment that gives the discriminant its value. -/
noncomputable def discrEnv (T : Theory) {k : Discr} (v : k.Value) : T.Env :=
  Theory.Env.ofVals fun _ => k.encode v

theorem eval_discrVar {T : Theory} {k : Discr} (v : k.Value) :
    (discrVar k).eval (discrEnv T v) = k.encode v :=
  eval_var_ofVals (Discr.fst_encode k v)

theorem wellSorted_discrVar (k : Discr) : (discrVar k).WellSorted := wellSorted_var _ _

/-- Bytes as bit-vectors. -/
def byte : Discr := .bitvec 8 (by decide)

/-- Signed bytes as integers. -/
def signedByte : Discr := .int true 8 (by decide)

/-- `0 | 1 => bb1, _ => bb2`. -/
def zeroOrOne : SwitchTargets := ⟨[(0#128, 1), (1#128, 1)], 2⟩

/-- `-1 => bb1, _ => bb2`. -/
def minusOne : SwitchTargets := ⟨[(255#128, 1)], 2⟩

/-- The byte `1`. -/
def one : byte.Value := show BitVec 8 from 1#8

/-- The signed byte `-1`. -/
def negOne : signedByte.Value := show BitVec 8 from 255#8

/-- On `1`, the encoding of `0 => bb1, _ => bb2` composed along `bb1` is exact. -/
theorem composed_switch_exact_zero :
    (∀ t, Selected (discrEnv default one) (composedArms (discrVar byte) ⟨[(0#128, 1)], 2⟩ 1) t ↔
      SwitchTargets.route ⟨[(0#128, 1)], 2⟩ one = t) ∧
    ∃ arms, codegenSwitchint (discrVar byte) ⟨[(0#128, 1)], 2⟩ = some arms ∧
      ∀ t, Selected (discrEnv default one)
        (composedArms (discrVar byte) ⟨[(0#128, 1)], 2⟩ 1) t ↔
          Selected (discrEnv default one) arms t := by
  have hdistinct : SwitchTargets.Distinct ⟨[(0#128, 1)], 2⟩ byte := fun _ =>
    List.pairwise_singleton _ _
  have hroute : SwitchTargets.readRoute ⟨[(0#128, 1)], 2⟩ one = 2 := by decide
  refine (composed_switch_exact_iff (by decide) hdistinct (wellSorted_discrVar _)
    (eval_discrVar one)).2 ⟨by decide, fun hin => ?_⟩
  exact absurd (hroute.symm.trans hin) (by decide)

/-- Composed along `bb1`, the switch `0 | 1 => bb1` has no rule for the value `1`, and the
integer-sorted switch `-1 => bb1` sends `-1` to the default. -/
theorem composed_switch_loses_values :
    (zeroOrOne.route one = 1 ∧
      ∀ t, ¬Selected (discrEnv default one) (composedArms (discrVar byte) zeroOrOne 1) t) ∧
    (minusOne.route negOne = 1 ∧ ∀ t, Selected (discrEnv default negOne)
      (composedArms (discrVar signedByte) minusOne 1) t ↔ t = 2) := by
  have hone : ∀ t, Selected (discrEnv default one) (composedArms (discrVar byte) zeroOrOne 1) t ↔
      (t ≠ 1 ∧ Reads zeroOrOne one t) ∨ (t = 1 ∧ zeroOrOne.FirstArmTaken one 1) :=
    selected_composedArms_iff (by decide) (wellSorted_discrVar _) (eval_discrVar one)
  have hneg : ∀ t, Selected (discrEnv default negOne)
      (composedArms (discrVar signedByte) minusOne 1) t ↔
        (t ≠ 1 ∧ Reads minusOne negOne t) ∨ (t = 1 ∧ minusOne.FirstArmTaken negOne 1) :=
    selected_composedArms_iff (by decide) (wellSorted_discrVar _) (eval_discrVar negOne)
  have hread : byte.reads one 0#128 = false ∧ byte.reads one 1#128 = true := by decide
  have hmiss : signedByte.reads negOne 255#128 = false := by decide
  refine ⟨⟨by decide, fun t => ?_⟩, by decide, fun t => ?_⟩
  · rw [hone]
    rintro (⟨hne, ⟨b, hb, rfl, -⟩ | ⟨rfl, hnone⟩⟩ | ⟨-, htaken⟩)
    · have hb : b = (0#128, 1) ∨ b = (1#128, 1) := by simpa [zeroOrOne] using hb
      rcases hb with rfl | rfl <;> exact hne rfl
    · exact hnone 1#128 (by decide) hread.2
    · exact Bool.false_ne_true (hread.1.symm.trans htaken)
  · rw [hneg]
    constructor
    · rintro (⟨hne, ⟨b, hb, rfl, -⟩ | ⟨rfl, -⟩⟩ | ⟨-, htaken⟩)
      · obtain rfl : b = (255#128, 1) := by simpa [minusOne] using hb
        exact absurd rfl hne
      · rfl
      · exact absurd (hmiss.symm.trans htaken) Bool.false_ne_true
    · rintro rfl
      refine Or.inl ⟨by decide, Or.inr ⟨rfl, fun c hc => ?_⟩⟩
      obtain rfl : c = 255#128 := by simpa [minusOne, SwitchTargets.caseVals] using hc
      exact Bool.not_eq_true _ ▸ hmiss

end Switch

end TrustMc
