import TrustMc.Flatten.EnumValues
import TrustMc.Smt.Numbers

/-!
# Enums as one bit-vector

`buildCanonicalEnumBvBridgeValue` concatenates the slots of a result, tag first, and
`buildEnumBvBitvecDestinationValues` cuts a bit-vector back into slots.

`enum_routes`: the slots of the tree route, of the tester route and of the bit-vector have the
same values.
-/

namespace TrustMc

namespace Flatten

open Carriers Carriers.Val TrustMc.Expr Arithmetic Lists

namespace EnumBvDest

/-! ### Cutting and joining -/

/-- The width of a slot within a bit-vector. -/
def slotWidth (d : EnumBvDest) : SmtSort → Option ℕ
  | .bool => some 1
  | .bitvec w => some w
  | .array _ _ => d.arrayPayloadBvWidth
  | _ => none

/-- The loop of `build_enum_bv_bitvec_destination_values`, with the bits that remain. -/
def splitSlots (d : EnumBvDest) (e : Expr) : ℕ → List (SmtSort × ℕ) → Option (List (Option Expr))
  | _, [] => some []
  | remaining, (outSort, width) :: rest =>
    if remaining < 1 ∨ remaining < width then none
    else do
      let extracted := .app (.bvExtract (remaining - 1) (remaining - width)) [e]
      let coerced ← d.coerceFlattenSlotValue outSort extracted
      let values ← d.splitSlots e (remaining - width) rest
      return some coerced :: values

/-- `slot_widths`, with the sorts of the slots. -/
def slotWidths (d : EnumBvDest) : Option (List (SmtSort × ℕ)) :=
  (List.range (1 + d.layout.maxPayloadSlots)).mapM fun slotIdx => do
    let outSort ← d.outputSorts[slotIdx]?
    let width ← d.slotWidth outSort
    return (outSort, width)

/-- `build_enum_bv_bitvec_destination_values`. -/
def buildEnumBvBitvecDestinationValues (d : EnumBvDest) (e : Expr) :
    Option (List (Option Expr)) := do
  let totalWidth ← e.sort.bitvecWidth
  let slots ← d.slotWidths
  if (slots.map Prod.snd).sum ≠ totalWidth then none else d.splitSlots e totalWidth slots

/-- One slot as bits. -/
def bridgePart (value : Option Expr) : Option Expr := do
  let value ← value
  if value.sort.isBool then
    return .ite value (.bitVecConst (BitVec.ofNat 1 1)) (.bitVecConst (BitVec.ofNat 1 0))
  else if value.sort.isBitvec then return value
  else none

/-- `build_canonical_enum_bv_bridge_value`. -/
def buildCanonicalEnumBvBridgeValue (d : EnumBvDest) (e : Expr) : Option Expr := do
  let values ← (d.buildEnumBvDestinationValues e).or (d.buildEnumBvBitvecDestinationValues e)
  match ← values.mapM bridgePart with
  | [] => none
  | part :: parts => return parts.foldl (fun acc part => .app .bvConcat [acc, part]) part

end EnumBvDest

/-! ### Numbers of concatenations -/

section Joined

variable {T : Theory} {ρ : T.Env}

/-- The width of a list of bit-vectors put together. -/
def joinedWidth (parts : List Expr) : ℕ := (parts.map (·.sort.width)).sum

/-- The number a list of bit-vectors makes, the first one on top. -/
noncomputable def joinedNat (ρ : T.Env) : List Expr → ℕ
  | [] => 0
  | part :: parts =>
    (bits part.sort.width part ρ).toNat * 2 ^ joinedWidth parts + joinedNat ρ parts

theorem joinedWidth_cons (part : Expr) (parts : List Expr) :
    joinedWidth (part :: parts) = part.sort.width + joinedWidth parts := by
  simp [joinedWidth]

theorem joinedNat_lt (parts : List Expr) : joinedNat ρ parts < 2 ^ joinedWidth parts := by
  induction parts with
  | nil => simp [joinedNat, joinedWidth]
  | cons part parts ih =>
    have hbits := (bits part.sort.width part ρ).isLt
    rw [joinedNat, joinedWidth_cons, Nat.pow_add]
    calc _ < (bits part.sort.width part ρ).toNat * 2 ^ joinedWidth parts + 2 ^ joinedWidth parts :=
          Nat.add_lt_add_left ih _
      _ = ((bits part.sort.width part ρ).toNat + 1) * 2 ^ joinedWidth parts := by ring
      _ ≤ 2 ^ part.sort.width * 2 ^ joinedWidth parts := Nat.mul_le_mul_right _ hbits

theorem hasNat_width {e : Expr} (h : e.sort.isBitvec = true) :
    HasNat ρ e e.sort.width (bits e.sort.width e ρ).toNat := by
  obtain ⟨w, hw⟩ := SmtSort.isBitvec_iff.1 h
  rw [hw]
  exact ⟨hw, rfl⟩

/-- Concatenating a list of terms onto another. -/
theorem hasNat_foldl_concat {acc : Expr} {w k : ℕ} (h : HasNat ρ acc w k) {parts : List Expr}
    (hparts : ∀ p ∈ parts, p.sort.isBitvec = true) :
    HasNat ρ (parts.foldl (fun acc part => .app .bvConcat [acc, part]) acc)
      (w + joinedWidth parts) (k * 2 ^ joinedWidth parts + joinedNat ρ parts) := by
  induction parts generalizing acc w k with
  | nil => exact h.cast (by simp [joinedWidth]) (by simp [joinedWidth, joinedNat])
  | cons part parts ih =>
    have hpart := hasNat_width (ρ := ρ) (hparts part (by simp))
    refine (ih (h.concat hpart) fun p hp => hparts p (by simp [hp])).cast ?_ ?_
    · rw [joinedWidth_cons]
      omega
    · rw [joinedWidth_cons, joinedNat, Nat.pow_add]
      ring

end Joined

/-! ### Round trip -/

variable {T : Theory} {ρ : T.Env} {d : EnumBvDest} {ctors : List SmtConstructor}
  {slotSorts : List SmtSort}

/-- Two values of a slot under an assignment. -/
def SameValue (ρ : T.Env) (v v' : Option Expr) : Prop :=
  ∃ y y', v = some y ∧ v' = some y' ∧ y.eval ρ = y'.eval ρ

theorem bridgePart_eq_some {v : Option Expr} {part : Expr}
    (h : EnumBvDest.bridgePart v = some part) :
    ∃ y, v = some y ∧ ((y.sort = .bool ∧ part = .ite y (.bitVecConst (BitVec.ofNat 1 1))
      (.bitVecConst (BitVec.ofNat 1 0))) ∨ (y.sort.isBitvec = true ∧ part = y)) := by
  simp only [EnumBvDest.bridgePart, Option.bind_eq_bind, Option.bind_eq_some_iff,
    Option.pure_def] at h
  obtain ⟨y, hy, h⟩ := h
  refine ⟨y, hy, ?_⟩
  split_ifs at h with hbool hbv
  · exact .inl ⟨SmtSort.isBool_iff.1 hbool, (Option.some.inj h).symm⟩
  · exact .inr ⟨hbv, (Option.some.inj h).symm⟩

/-- Reading a slot back from the bits of its part. -/
theorem coerce_of_bridgePart {v : Option Expr} {s : SmtSort} {part : Expr}
    (h : EnumBvDest.bridgePart v = some part) (hs : ∀ y ∈ v, y.sort = s) :
    ∃ w, d.slotWidth s = some w ∧ part.sort = .bitvec w ∧ (s = .bool ∨ s = .bitvec w) ∧
      ∀ x, x.sort = .bitvec w → ∃ z, d.coerceFlattenSlotValue s x = some z ∧
        ∀ {T : Theory} {ρ : T.Env}, HasNat ρ x w (bits w part ρ).toNat → SameValue ρ (some z) v := by
  obtain ⟨y, rfl, ⟨hbool, rfl⟩ | ⟨hbv, rfl⟩⟩ := bridgePart_eq_some h
  · obtain rfl : s = .bool := (hs y rfl).symm.trans hbool
    refine ⟨1, rfl, rfl, .inl rfl, fun x hx =>
      ⟨.not (.eq x (.bitVecConst (BitVec.ofNat 1 0))), ?_, fun {T ρ} hnat => ⟨_, y, rfl, rfl, ?_⟩⟩⟩
    · simp [EnumBvDest.coerceFlattenSlotValue, hx]
    · refine eval_eq_of_holds_iff rfl hbool ?_
      have hzero : HasNat ρ (.bitVecConst (BitVec.ofNat 1 0)) 1 0 := hasNat_const (by norm_num)
      rw [holds_not, hnat.holds_eq hzero]
      -- the bit of a Boolean slot is its truth value
      by_cases hy : Holds ρ y
      · have hone : HasNat ρ (.bitVecConst (BitVec.ofNat 1 1)) 1 1 := hasNat_const (by norm_num)
        rw [(HasNat.ite_pos hy hone hzero.sort).toNat]
        simpa using hy
      · rw [(HasNat.ite_neg hy rfl hzero).toNat]
        simpa using hy
  · obtain ⟨w, hw⟩ := SmtSort.isBitvec_iff.1 hbv
    obtain rfl : s = .bitvec w := (hs part rfl).symm.trans hw
    refine ⟨w, rfl, hw, .inr rfl, fun x hx => ⟨x, ?_, fun {T ρ} hnat => ⟨x, part, rfl, rfl, ?_⟩⟩⟩
    · simp [EnumBvDest.coerceFlattenSlotValue, hx]
    · rw [hnat.eval_eq, eval_eq_ofBV_bits hw, BitVec.ofNat_toNat, BitVec.setWidth_eq]

/-- Cutting a bit-vector that ends in the parts gives their values back. -/
theorem exists_splitSlots {values : List (Option Expr)} {sorts : List SmtSort}
    (hsorts : List.Forall₂ (fun v s => ∀ y ∈ v, y.sort = s) values sorts) {parts : List Expr}
    (hparts : values.mapM EnumBvDest.bridgePart = some parts)
    (hpos : ∀ w, .bitvec w ∈ sorts → 0 < w) (e : Expr) :
    ∃ slots, sorts.mapM (fun s => (d.slotWidth s).map (s, ·)) = some slots ∧
      (slots.map Prod.snd).sum = joinedWidth parts ∧ ∃ result,
        d.splitSlots e (joinedWidth parts) slots = some result ∧
          ∀ {T : Theory} {ρ : T.Env} {w k : ℕ}, HasNat ρ e w k →
            k % 2 ^ joinedWidth parts = joinedNat ρ parts →
              List.Forall₂ (SameValue ρ) result values := by
  induction hsorts generalizing parts with
  | nil =>
    obtain rfl : [] = parts := by simpa using hparts
    exact ⟨[], rfl, rfl, [], rfl, fun _ _ => .nil⟩
  | @cons v s values sorts hv _ ih =>
    simp only [List.mapM_cons, Option.bind_eq_bind, Option.bind_eq_some_iff, Option.pure_def,
      Option.some.injEq] at hparts
    obtain ⟨part, hpart, parts, hparts, rfl⟩ := hparts
    obtain ⟨slots, hslots, hsum, result, hresult, hvalues⟩ := ih hparts
      fun w hw => hpos w (by simp [hw])
    obtain ⟨w, hw, hsort, hcase, hcoerce⟩ := coerce_of_bridgePart (d := d) hpart hv
    have hwpos : 0 < w := by
      rcases hcase with rfl | rfl
      · rw [← Option.some.inj hw]
        exact Nat.one_pos
      · exact hpos w (by simp)
    have hjoined : joinedWidth (part :: parts) = w + joinedWidth parts := by
      rw [joinedWidth_cons, hsort, SmtSort.width_bitvec]
    have hlow : w + joinedWidth parts - w = joinedWidth parts := by omega
    have hwidth : w + joinedWidth parts - 1 - joinedWidth parts + 1 = w := by omega
    obtain ⟨z, hz, hsame⟩ := hcoerce (.app (.bvExtract (w + joinedWidth parts - 1)
      (joinedWidth parts)) [e]) (by simp [Op.resultSort, hwidth])
    refine ⟨(s, w) :: slots, by simp [List.mapM_cons, hw, hslots], by simp [hsum, hjoined],
      some z :: result, ?_, fun {T ρ W k} he hk => ?_⟩
    · rw [hjoined, EnumBvDest.splitSlots, if_neg (by omega), hlow]
      simp [hz, hresult]
    · rw [hjoined, joinedNat, hsort, SmtSort.width_bitvec, Nat.add_comm w, Nat.pow_add] at hk
      have hlt := joinedNat_lt (ρ := ρ) parts
      refine .cons (hsame ((he.extract _ _).cast hwidth ?_)) (hvalues he ?_)
      · rw [hwidth, ← Nat.mod_mul_right_div_self, hk, Nat.add_comm,
          Nat.add_mul_div_right _ _ (Nat.two_pow_pos _), Nat.div_eq_of_lt hlt, Nat.zero_add]
      · rw [← Nat.mod_mul_right_mod, hk, Nat.add_comm, Nat.add_mul_mod_self_right,
          Nat.mod_eq_of_lt hlt]

/-- The slots of a suitable destination with their widths. -/
theorem slotWidths_eq (hd : d.Suits ctors slotSorts) {slots : List (SmtSort × ℕ)}
    (h : (d.layout.tagSort :: slotSorts).mapM (fun s => (d.slotWidth s).map (s, ·)) =
      some slots) : d.slotWidths = some slots := by
  refine mapM_of_forall₂ (forall₂_of_getElem? ?_ ?_)
  · rw [length_of_mapM h, List.length_range, List.length_cons, hd.layout.slots, Nat.add_comm]
  · intro i j slot hj hslot
    obtain ⟨hlt, rfl⟩ := List.getElem?_eq_some_iff.1 hj
    rw [List.getElem_range]
    rcases getElem?_of_mapM h i with ⟨-, hnone⟩ | ⟨s, slot', hs, hslot', hget⟩
    · rw [hslot] at hnone
      cases hnone
    · obtain rfl : slot = slot' := by rw [hslot] at hget; exact Option.some.inj hget
      obtain ⟨w, hw, rfl⟩ := Option.map_eq_some_iff.1 hslot'
      obtain ⟨others, hothers⟩ := hd.outputs
      have hout : d.outputSorts[i]? = some s := by
        rw [hothers, List.getElem?_append_left (List.getElem?_eq_some_iff.1 hs).1, hs]
      simp [hout, hw]

/-- The bit-vector of a result is cut back into the values of the result. -/
theorem exists_bitvecDestinationValues (hd : d.Suits ctors slotSorts) {e bv : Expr}
    {values : List (Option Expr)} (hvalues : d.buildEnumBvDestinationValues e = some values)
    (hsorts : List.Forall₂ (fun v s => ∀ y ∈ v, y.sort = s) values (d.layout.tagSort :: slotSorts))
    (h : d.buildCanonicalEnumBvBridgeValue e = some bv) :
    ∃ parts, d.buildEnumBvBitvecDestinationValues bv = some parts ∧
      ∀ {T : Theory} (ρ : T.Env), List.Forall₂ (SameValue ρ) parts values := by
  simp only [EnumBvDest.buildCanonicalEnumBvBridgeValue, hvalues, Option.some_or,
    Option.bind_eq_bind, Option.bind_some, Option.bind_eq_some_iff] at h
  obtain ⟨parts, hparts, h⟩ := h
  have htag : ∀ w, d.layout.tagSort = .bitvec w → 0 < w := by
    rintro w hw
    rw [EnumBvLayout.tagSort] at hw
    split_ifs at hw with h2
    obtain rfl : d.layout.tagBits = w := by simpa using hw
    by_contra hzero
    have hbits := hd.layout.tagBits
    have htwo := hd.layout.two_le
    rw [Nat.eq_zero_of_not_pos hzero, Nat.pow_zero] at hbits
    omega
  have hpos : ∀ w, .bitvec w ∈ d.layout.tagSort :: slotSorts → 0 < w := by
    intro w hw
    rcases List.mem_cons.1 hw with hw | hw
    · exact htag w hw.symm
    · exact hd.widths w hw
  obtain ⟨slots, hslots, hsum, result, hresult, hsame⟩ :=
    exists_splitSlots (d := d) hsorts hparts hpos bv
  have hbitvec : ∀ p ∈ parts, p.sort.isBitvec = true := by
    intro p hp
    obtain ⟨i, hi⟩ := List.mem_iff_getElem?.1 hp
    rcases getElem?_of_mapM hparts i with ⟨-, hnone⟩ | ⟨v, p', -, hp', hget⟩
    · rw [hi] at hnone
      cases hnone
    · obtain rfl : p = p' := by rw [hi] at hget; exact Option.some.inj hget
      obtain ⟨y, -, ⟨-, rfl⟩ | ⟨hy, rfl⟩⟩ := bridgePart_eq_some hp'
      · rfl
      · exact hy
  cases parts with
  | nil => cases h
  | cons part parts =>
    obtain rfl := Option.some.inj h
    have hjoin : ∀ {T : Theory} (ρ : T.Env),
        HasNat ρ (parts.foldl (fun acc part => .app .bvConcat [acc, part]) part)
          (joinedWidth (part :: parts)) (joinedNat ρ (part :: parts)) := fun ρ => by
      have hhead := hasNat_width (ρ := ρ) (hbitvec part (by simp))
      refine (hasNat_foldl_concat hhead fun p hp => hbitvec p (by simp [hp])).cast ?_ rfl
      rw [joinedWidth_cons]
    refine ⟨result, ?_, fun {T} ρ => hsame (hjoin ρ) (Nat.mod_eq_of_lt (joinedNat_lt _))⟩
    have hsort := (hjoin (default : (default : Theory).Env)).sort
    simp [EnumBvDest.buildEnumBvBitvecDestinationValues, hsort, SmtSort.bitvecWidth,
      slotWidths_eq hd hslots, hsum, hresult]

/-! ### All routes -/

/-- The constructor number `c` has a leaf in the slot. -/
def UsesSlot (d : EnumBvDest) (ctors : List SmtConstructor) (c slot : ℕ) : Prop :=
  ∃ (ctor : SmtConstructor) (i : ℕ) (field : SmtField) (slotBase : ℕ), ctors[c]? = some ctor ∧
    ctor.fields[i]? = some field ∧ d.layout.payloadSlot c i = some slotBase ∧ slotBase ≤ slot ∧
      slot < slotBase + (collectLeafSorts field.sort 0).length

theorem mem_leafWrites {leaves : List Expr} {slot : ℕ} {ws : List (ℕ × Expr)}
    (h : d.leafWrites slot leaves = some ws) {w : ℕ × Expr} (hw : w ∈ ws) :
    slot ≤ w.1 ∧ w.1 < slot + leaves.length := by
  induction leaves generalizing slot ws with
  | nil =>
    obtain rfl : [] = ws := by simpa [EnumBvDest.leafWrites] using h
    simp at hw
  | cons leaf leaves ih =>
    rw [EnumBvDest.leafWrites] at h
    split_ifs at h
    · cases h
      simp at hw
    · simp only [Option.bind_eq_bind, Option.bind_eq_some_iff, Option.pure_def,
        Option.some.injEq] at h
      obtain ⟨s, -, x, -, ws, hws, rfl⟩ := h
      rcases List.mem_cons.1 hw with rfl | hw
      · simp
      · have hmem := ih hws hw
        rw [List.length_cons]
        omega

theorem mem_fieldWrites {c : ℕ} {args : List Expr} {k : ℕ} {ws : List (ℕ × Expr)}
    (h : d.fieldWrites c k args = some ws) {w : ℕ × Expr} (hw : w ∈ ws) :
    ∃ (i : ℕ) (arg : Expr) (slotBase : ℕ), args[i]? = some arg ∧
      d.layout.payloadSlot c (k + i) = some slotBase ∧ slotBase ≤ w.1 ∧
        w.1 < slotBase + (collectLeafExprs arg).length := by
  induction args generalizing k ws with
  | nil =>
    obtain rfl : [] = ws := by simpa [EnumBvDest.fieldWrites] using h
    simp at hw
  | cons arg args ih =>
    have hrest : ∀ {ws}, d.fieldWrites c (k + 1) args = some ws → w ∈ ws →
        ∃ (i : ℕ) (arg' : Expr) (slotBase : ℕ), (arg :: args)[i]? = some arg' ∧
          d.layout.payloadSlot c (k + i) = some slotBase ∧ slotBase ≤ w.1 ∧
            w.1 < slotBase + (collectLeafExprs arg').length := by
      intro ws hws hw
      obtain ⟨i, arg', slotBase, hi, hslot, hle⟩ := ih hws hw
      exact ⟨i + 1, arg', slotBase, hi, by rw [← hslot]; congr 1; omega, hle⟩
    rw [EnumBvDest.fieldWrites] at h
    cases hslot : d.layout.payloadSlot c k with
    | none => exact hrest (by simpa [hslot] using h) hw
    | some slotBase =>
      simp only [hslot, Option.bind_eq_bind, Option.bind_eq_some_iff, Option.pure_def,
        Option.some.injEq] at h
      obtain ⟨ws₁, hws₁, ws₂, hws₂, rfl⟩ := h
      rcases List.mem_append.1 hw with hw | hw
      · exact ⟨0, arg, slotBase, rfl, hslot, mem_leafWrites hws₁ hw⟩
      · exact hrest hws₂ hw

theorem mem_of_written {ws : List (ℕ × Expr)} {slot : ℕ} {v : Expr}
    (h : written ws slot = some v) : (slot, v) ∈ ws := by
  induction ws using List.reverseRecOn with
  | nil => cases h
  | append_singleton ws w ih =>
    rw [written, List.foldl_append, List.foldl_cons, List.foldl_nil] at h
    split_ifs at h with hw
    · obtain rfl : w.2 = v := Option.some.inj h
      rw [← hw]
      simp
    · exact List.mem_append_left _ (ih h)

/-- Slots that a constructor does not use keep their default. -/
theorem slotTerm_of_not_usesSlot (hd : d.Suits ctors slotSorts) {n : String} {e : Expr} {c : ℕ}
    {ctor : SmtConstructor} (hc : ctors[c]? = some ctor) {ws : List (ℕ × Expr)}
    (hws : d.fieldWrites c 0 (EnumBvDest.selectors n e ctor) = some ws) {slot : ℕ}
    (hslot : ¬ UsesSlot d ctors c slot) (s : SmtSort) :
    slotTerm ws slot s = sortDefaultExpr s := by
  have hnone : written ws slot = none := by
    refine Option.eq_none_iff_forall_ne_some.2 fun v hv => hslot ?_
    obtain ⟨i, arg, slotBase, hi, hbase, hle, hlt⟩ := mem_fieldWrites hws (mem_of_written hv)
    obtain ⟨field, hfield, rfl⟩ := Option.map_eq_some_iff.1 (List.getElem?_map ▸ hi)
    rw [Nat.zero_add] at hbase
    obtain ⟨hflat, -⟩ := hd.layout.fits c ctor i field slotBase hc hfield hbase
    refine ⟨ctor, i, field, slotBase, hc, hfield, hbase, hle, ?_⟩
    rwa [collectLeafExprs_fieldSelect, ← List.length_map (f := Expr.sort),
      map_sort_selectLeaves hflat rfl] at hlt
  rw [slotTerm, hnone, Option.none_or]

/-- Only where every slot has a default is a result read off its tree. -/
theorem exists_default_of_decompose (hd : d.Suits ctors slotSorts) {e : Expr} {tree : List Expr}
    (h : d.decomposeEnumBvConstructorTree ctors e = some tree) {slot : ℕ} {s : SmtSort}
    (hs : slotSorts[slot]? = some s) : ∃ dflt, sortDefaultExpr s = some dflt := by
  induction e generalizing tree with
  | var _ _ => rcases decompose_eq_some h with ⟨_, _, _, _, h, -⟩ | ⟨_, _, _, _, _, h, -⟩ <;> cases h
  | quant _ _ _ =>
    rcases decompose_eq_some h with ⟨_, _, _, _, h, -⟩ | ⟨_, _, _, _, _, h, -⟩ <;> cases h
  | app op args ih =>
    rcases decompose_eq_some h with ⟨dt, name, args', s', heq, h⟩ |
      ⟨g, a, b, as, bs, heq, has, -, -, -⟩
    · simp only [EnumBvDest.constructorLeafValues, Option.bind_eq_bind, Option.bind_eq_some_iff]
        at h
      obtain ⟨c, -, defaults, hdefaults, -⟩ := h
      have hlt : slot < d.layout.maxPayloadSlots :=
        hd.layout.slots ▸ (List.getElem?_eq_some_iff.1 hs).1
      obtain ⟨s', hs', hout⟩ := hd.outputSort hlt
      obtain rfl : s = s' := by rw [hs] at hs'; exact Option.some.inj hs'
      obtain ⟨dflt, hdflt, -⟩ := exists_of_mapM hdefaults (List.getElem?_range hlt)
      exact ⟨dflt, by simpa [hout] using hdflt⟩
    · cases heq
      exact ih a (by simp) has

theorem forall₂_sameValue_trans {as bs cs : List (Option Expr)}
    (h : List.Forall₂ (SameValue ρ) as bs) (h' : List.Forall₂ (SameValue ρ) bs cs) :
    List.Forall₂ (SameValue ρ) as cs := by
  induction h generalizing cs with
  | nil => exact h'
  | cons hab _ ih =>
    obtain ⟨c, cs, hbc, hcs, rfl⟩ := List.forall₂_cons_left_iff.1 h'
    refine .cons ?_ (ih hcs)
    obtain ⟨x, y, rfl, hy, hxy⟩ := hab
    obtain ⟨y', z, hy', rfl, hyz⟩ := hbc
    obtain rfl : y = y' := by rw [hy] at hy'; exact Option.some.inj hy'
    exact ⟨x, z, rfl, rfl, hxy.trans hyz⟩

/-- Two lists of values that say what the result says, where every slot has a default. -/
theorem Denotes.sameValue (hd : d.Suits ctors slotSorts) {n : String} {e : Expr}
    (hs : e.sort = .datatype n ctors) {values values' : List (Option Expr)}
    (h : Denotes d ctors slotSorts n ρ e values) (h' : Denotes d ctors slotSorts n ρ e values')
    (hdefault : ∀ (slot : ℕ) (s : SmtSort), slotSorts[slot]? = some s →
      ∃ dflt, sortDefaultExpr s = some dflt) : List.Forall₂ (SameValue ρ) values values' := by
  have hne : ctors ≠ [] := by
    rintro rfl
    simpa using hd.layout.two_le
  obtain ⟨c, ctor, hc, hctor⟩ := exists_constructorOf (ρ := ρ) hs hne
  obtain ⟨ws, -, hws, -⟩ := sameWrites_selectors (n := n) (ρ := ρ) hd hc (a := e) rfl
  refine forall₂_of_getElem? (h.sorts.length_eq.trans h'.sorts.length_eq.symm) ?_
  intro i v v' hv hv'
  cases i with
  | zero =>
    obtain ⟨y, hy, heval⟩ := h.tag c ctor hc hctor
    obtain ⟨y', hy', heval'⟩ := h'.tag c ctor hc hctor
    rw [hv] at hy
    rw [hv'] at hy'
    exact ⟨y, y', Option.some.inj hy, Option.some.inj hy', heval.trans heval'.symm⟩
  | succ slot =>
    have hlt : slot < slotSorts.length := by
      have hlen := h.sorts.length_eq
      have hi := (List.getElem?_eq_some_iff.1 hv).1
      simp only [List.length_cons] at hlen
      omega
    have hslot := List.getElem?_eq_getElem hlt
    obtain ⟨dflt, hdflt⟩ := hdefault slot _ hslot
    have hterm := slotTerm_eq hdflt ws slot
    obtain ⟨y, hy, heval⟩ := h.slots c ctor ws hc hctor hws slot _ _ hslot hterm
    obtain ⟨y', hy', heval'⟩ := h'.slots c ctor ws hc hctor hws slot _ _ hslot hterm
    rw [Nat.add_comm, hv] at hy
    rw [Nat.add_comm, hv'] at hy'
    exact ⟨y, y', Option.some.inj hy, Option.some.inj hy', heval.trans heval'.symm⟩

/-- Tags of different constructors differ. -/
theorem enumBvConstructorTag_inj (hd : d.Suits ctors slotSorts) {c c' : ℕ}
    (hc : c < ctors.length) (hc' : c' < ctors.length) :
    (enumBvConstructorTag d.layout c).eval ρ = (enumBvConstructorTag d.layout c').eval ρ ↔
      c = c' := by
  refine ⟨fun h => ?_, fun h => h ▸ rfl⟩
  have hcount := hd.layout.count
  have hbits := hd.layout.tagBits
  rw [enumBvConstructorTag, enumBvConstructorTag] at h
  split_ifs at h with h2
  · rw [eval_boolConst, eval_boolConst, ofBool_inj, Bool.eq_iff_iff, beq_iff_eq, beq_iff_eq] at h
    omega
  · rw [eval_bitVecConst, eval_bitVecConst, ofBV_inj, ← BitVec.toNat_inj, BitVec.toNat_ofNat,
      BitVec.toNat_ofNat, Nat.mod_eq_of_lt (hc.trans_le hbits),
      Nat.mod_eq_of_lt (hc'.trans_le hbits)] at h
    exact h

theorem exists_bridgePart {y : Expr} (h : y.sort = .bool ∨ y.sort.isBitvec = true) :
    ∃ part, EnumBvDest.bridgePart (some y) = some part := by
  simp only [EnumBvDest.bridgePart, Option.bind_eq_bind, Option.bind_some, Option.pure_def]
  rcases h with h | h
  · exact ⟨_, if_pos (by simp [h])⟩
  · by_cases hbool : y.sort.isBool = true
    · exact ⟨_, if_pos hbool⟩
    · exact ⟨y, by rw [if_neg hbool, if_pos h]⟩

/-- Slots that have bits make a bit-vector. -/
theorem exists_bridgeValue {n : String} {e : Expr} {values : List (Option Expr)}
    (hvalues : d.buildEnumBvDestinationValues e = some values)
    (h : ∀ {T : Theory} (ρ : T.Env), Denotes d ctors slotSorts n ρ e values)
    (hs : e.sort = .datatype n ctors) (hd : d.Suits ctors slotSorts)
    (hbits : ∀ s ∈ slotSorts, s = .bool ∨ s.isBitvec = true) :
    ∃ bv, d.buildCanonicalEnumBvBridgeValue e = some bv := by
  have hdenotes := h (default : (default : Theory).Env)
  have hsame := hdenotes.sameValue hd hs hdenotes fun slot s hslot => by
    rcases hbits s (List.mem_of_getElem? hslot) with rfl | hbv
    · exact ⟨_, rfl⟩
    · obtain ⟨w, rfl⟩ := SmtSort.isBitvec_iff.1 hbv
      exact ⟨_, rfl⟩
  have hsort : ∀ s ∈ d.layout.tagSort :: slotSorts, s = .bool ∨ s.isBitvec = true := by
    intro s hmem
    rcases List.mem_cons.1 hmem with rfl | hmem
    · rw [EnumBvLayout.tagSort]
      split_ifs
      · exact .inl rfl
      · exact .inr rfl
    · exact hbits s hmem
  obtain ⟨parts, hparts⟩ : ∃ parts, values.mapM EnumBvDest.bridgePart = some parts := by
    refine exists_mapM fun v hv => ?_
    obtain ⟨i, hi⟩ := List.mem_iff_getElem?.1 hv
    obtain ⟨hlt, rfl⟩ := List.getElem?_eq_some_iff.1 hi
    obtain ⟨y, -, hy, -, -⟩ := (List.forall₂_iff_get.1 hsame).2 i hlt hlt
    have hlt' : i < (d.layout.tagSort :: slotSorts).length := hdenotes.sorts.length_eq ▸ hlt
    have hys := (List.forall₂_iff_get.1 hdenotes.sorts).2 i hlt hlt' y hy
    rw [show values[i] = some y from hy]
    exact exists_bridgePart (hys ▸ hsort _ (List.get_mem _ _))
  have hlen : parts.length = slotSorts.length + 1 := by
    rw [length_of_mapM hparts, hdenotes.sorts.length_eq, List.length_cons]
  obtain ⟨part, parts, rfl⟩ := List.exists_cons_of_length_eq_add_one hlen
  exact ⟨_, by simp [EnumBvDest.buildCanonicalEnumBvBridgeValue, hvalues, hparts]; rfl⟩

/-- **Flattened enums.** Testers and selectors give every slot a value; a tree of constructors gives
the same values; the tag names the constructor of the result's value, and slots which that
constructor does not use hold the default of their sort, if it has one; and the bit-vector made of
a result is cut back into the same values. -/
theorem enum_routes (hd : d.Suits ctors slotSorts) (hnames : DistinctNames ctors) {n : String}
    {e : Expr} (hws : e.WellSorted) (hs : e.sort = .datatype n ctors) :
    ∃ values, d.testerValues n ctors e = some values ∧
      (∀ tree, d.decomposeEnumBvConstructorTree ctors e = some tree →
        ∀ {T : Theory} (ρ : T.Env), List.Forall₂ (SameValue ρ) (tree.map some) values) ∧
      (∀ {T : Theory} (ρ : T.Env), ∃ (c : ℕ) (ctor : SmtConstructor), ctors[c]? = some ctor ∧
        constructorOf (e.eval ρ) = some ctor ∧
        (∃ tag, values[0]? = some (some tag) ∧ ∀ c' < ctors.length,
          tag.eval ρ = (enumBvConstructorTag d.layout c').eval ρ ↔ c' = c) ∧
        ∀ (slot : ℕ) (s : SmtSort) (dflt : Expr), slotSorts[slot]? = some s →
          ¬ UsesSlot d ctors c slot → sortDefaultExpr s = some dflt →
            ∃ y, values[1 + slot]? = some (some y) ∧ y.eval ρ = dflt.eval ρ) ∧
      ((∀ s ∈ slotSorts, s = .bool ∨ s.isBitvec = true) →
        ∃ bv, d.buildCanonicalEnumBvBridgeValue e = some bv) ∧
      ∀ bv, d.buildCanonicalEnumBvBridgeValue e = some bv →
        ∃ parts, d.buildEnumBvBitvecDestinationValues bv = some parts ∧
          ∀ {T : Theory} (ρ : T.Env), List.Forall₂ (SameValue ρ) parts values := by
  obtain ⟨values, hvalues, hdenotes⟩ := exists_testerValues (n := n) hd hnames e
  have hne : ctors ≠ [] := by
    rintro rfl
    simpa using hd.layout.two_le
  have htree : ∀ tree, d.decomposeEnumBvConstructorTree ctors e = some tree →
      ∀ {T : Theory} (ρ : T.Env), List.Forall₂ (SameValue ρ) (tree.map some) values :=
    fun tree htree {T} ρ => (denotes_decompose hd hnames hws hs htree).sameValue hd hs (hdenotes ρ)
      fun slot s hslot => exists_default_of_decompose hd htree hslot
  -- the values that are built, from the tree or from the testers
  obtain ⟨built, hbuilt, hbuiltDenotes, hsame⟩ : ∃ built,
      d.buildEnumBvDestinationValues e = some built ∧
        (∀ {T : Theory} (ρ : T.Env), Denotes d ctors slotSorts n ρ e built) ∧
          ∀ {T : Theory} (ρ : T.Env) (parts : List (Option Expr)),
            List.Forall₂ (SameValue ρ) parts built → List.Forall₂ (SameValue ρ) parts values := by
    have hcount : ¬ ctors.length ≠ d.layout.numConstructors := by simp [hd.layout.count]
    cases h : d.decomposeEnumBvConstructorTree ctors e with
    | some tree =>
      refine ⟨tree.map some, ?_, fun ρ => denotes_decompose hd hnames hws hs h,
        fun ρ parts hparts => forall₂_sameValue_trans hparts (htree tree h ρ)⟩
      simp only [EnumBvDest.buildEnumBvDestinationValues, hs, if_neg hcount, h]
    | none =>
      refine ⟨values, ?_, hdenotes, fun ρ parts hparts => hparts⟩
      simp only [EnumBvDest.buildEnumBvDestinationValues, hs, if_neg hcount, h, hvalues]
  refine ⟨values, hvalues, htree, fun {T} ρ => ?_,
    exists_bridgeValue hbuilt hbuiltDenotes hs hd, fun bv hbv => ?_⟩
  · obtain ⟨c, ctor, hc, hctor⟩ := exists_constructorOf (ρ := ρ) hs hne
    have hlt := (List.getElem?_eq_some_iff.1 hc).1
    refine ⟨c, ctor, hc, hctor, ?_, fun slot s dflt hslot hunused hdflt => ?_⟩
    · obtain ⟨tag, htag, heval⟩ := (hdenotes ρ).tag c ctor hc hctor
      refine ⟨tag, htag, fun c' hc' => ?_⟩
      rw [heval, enumBvConstructorTag_inj hd hlt hc', eq_comm]
    · obtain ⟨ws, -, hws, -⟩ := sameWrites_selectors (n := n) (ρ := ρ) hd hc (a := e) rfl
      refine (hdenotes ρ).slots c ctor ws hc hctor hws slot s dflt hslot ?_
      rw [slotTerm_of_not_usesSlot hd hc hws hunused, hdflt]
  · have hsorts := (hbuiltDenotes (default : (default : Theory).Env)).sorts
    obtain ⟨parts, hparts, hpartsSame⟩ := exists_bitvecDestinationValues hd hbuilt hsorts hbv
    exact ⟨parts, hparts, fun ρ => hsame ρ parts (hpartsSame ρ)⟩

/-! ### Examples -/

/-- A destination laid out by `unify_multi_ctor_leaf_sorts` suits its enum. -/
theorem suits_of_isMultiCtorFlattenable {d : EnumBvDest} {ctors : List SmtConstructor}
    (hflat : isMultiCtorFlattenable ctors = true) {slots : List (List (Option ℕ))}
    {sorts : List SmtSort}
    (h : enumLeafLayout unifyDifferent (ctors.map fun c => c.fields.map fun f => some f.sort) =
      some (slots, sorts)) (lift : Bool) {others : List SmtSort}
    (hlayout : d.layout = ⟨ctors.length, enumTagBits ctors.length, slots, sorts.length⟩)
    (houtputs : d.outputSorts = d.layout.tagSort :: sorts.map (liftBvToInt lift) ++ others)
    (hpos : ∀ w, .bitvec w ∈ sorts.map (liftBvToInt lift) → 0 < w) :
    d.Suits ctors (sorts.map (liftBvToInt lift)) where
  layout := hlayout ▸ layoutFor_of_isMultiCtorFlattenable hflat h lift
  outputs := ⟨others, houtputs⟩
  widths := hpos

theorem fieldNamesDistinct_of_isScalar {s : SmtSort} (h : s.isScalar = true) :
    FieldNamesDistinct s := by
  intro p t fields ht hfields
  have hnone := fieldSorts_eq_none_of_isScalar h
  cases p with
  | nil =>
    obtain rfl : s = t := by simpa using ht
    simp [fieldSorts, hfields] at hnone
  | cons j p =>
    obtain ⟨cs, -, hcs, -⟩ := Trees.nodeAt_cons.1 ht
    rw [hnone] at hcs
    cases hcs

/-- An enum with one payload of the given sort. -/
def payloadConstructors (s : SmtSort) : List SmtConstructor :=
  [.mk "None" [], .mk "Some" [.mk "fld_0" s]]

/-- The destination of such an enum. -/
def payloadDest (s : SmtSort) : EnumBvDest where
  layout := ⟨2, 1, [[], [some 0]], 1⟩
  outputSorts := [.bool, s]
  arrayPayloadBvWidth := none
  reinterpretFixedLayout := fun _ _ => none
  pendingName := fun _ => "__flat_enum_payload"

theorem distinctNames_payload {s : SmtSort} (h : s.isScalar = true) :
    DistinctNames (payloadConstructors s) where
  ctorNames := by simp [payloadConstructors, SmtConstructor.name]
  fieldNames := by simp [payloadConstructors, SmtConstructor.fields]
  nestedNames := by
    simpa [payloadConstructors, SmtConstructor.fields, SmtField.sort] using
      fieldNamesDistinct_of_isScalar h

/-- A byte, if `b` holds. -/
def maybeByte : Expr :=
  .ite (.var "b" .bool)
    (.datatypeConstructor "Option" "Some" [.var "x" (.bitvec 8)]
      (.datatype "Option" (payloadConstructors (.bitvec 8))))
    (.datatypeConstructor "Option" "None" []
      (.datatype "Option" (payloadConstructors (.bitvec 8))))

theorem suits_payloadDest_byte :
    (payloadDest (.bitvec 8)).Suits (payloadConstructors (.bitvec 8)) [.bitvec 8] :=
  @suits_of_isMultiCtorFlattenable _ _ (by decide +kernel) _ [.bitvec 8] (by rfl) false [] (by rfl)
    (by rfl) (by simp [liftBvToInt])

theorem maybeByte_routes :
    ∃ tree values bv parts, (payloadDest (.bitvec 8)).decomposeEnumBvConstructorTree
        (payloadConstructors (.bitvec 8)) maybeByte = some tree ∧
      (payloadDest (.bitvec 8)).testerValues "Option" (payloadConstructors (.bitvec 8)) maybeByte =
        some values ∧
      (payloadDest (.bitvec 8)).buildCanonicalEnumBvBridgeValue maybeByte = some bv ∧
      (payloadDest (.bitvec 8)).buildEnumBvBitvecDestinationValues bv = some parts ∧
      ∀ {T : Theory} (ρ : T.Env), List.Forall₂ (SameValue ρ) (tree.map some) values ∧
        List.Forall₂ (SameValue ρ) parts values := by
  have hws : maybeByte.WellSorted := by
    simp [maybeByte, wellSorted_app, Op.accepts, Op.resultSort, payloadConstructors,
      SmtSort.constructors, SmtConstructor.name, SmtConstructor.fields, SmtField.sort, WellSorted]
  obtain ⟨values, hvalues, htree, -, hbridge, hsplit⟩ := enum_routes suits_payloadDest_byte
    (distinctNames_payload rfl) hws rfl
  obtain ⟨tree, hdecompose⟩ : ∃ tree, (payloadDest (.bitvec 8)).decomposeEnumBvConstructorTree
      (payloadConstructors (.bitvec 8)) maybeByte = some tree :=
    Option.isSome_iff_exists.1 (by decide +kernel)
  obtain ⟨bv, hbv⟩ := hbridge (by simp)
  obtain ⟨parts, hparts, hsame⟩ := hsplit bv hbv
  exact ⟨tree, values, bv, parts, hdecompose, hvalues, hbv, hparts,
    fun ρ => ⟨htree tree hdecompose ρ, hsame ρ⟩⟩

/-- An array of bytes as payload. -/
def byteArray : SmtSort := .array (.bitvec 64) (.bitvec 8)

/-- The array of one byte. -/
def arrayOf (T : Theory) (b : BitVec 8) : T.Val :=
  ⟨byteArray, show SmtSort.denote T.carrier byteArray from fun _ => b⟩

theorem arrayOf_inj {T : Theory} {b b' : BitVec 8} (h : arrayOf T b = arrayOf T b') : b = b' := by
  have hfun : (fun _ : BitVec 64 => b) = fun _ => b' := eq_of_heq (Sigma.mk.inj h).2
  exact congrFun hfun 0#64

/-- No array of bytes. -/
def noArray : Expr :=
  .datatypeConstructor "Option" "None" [] (.datatype "Option" (payloadConstructors byteArray))

/-- The slot of the array. -/
def noArraySlot : Expr :=
  .ite (.isConstructor noArray "Option" "Some") (.fieldSelect noArray "Option" "fld_0" byteArray)
    (.var "__flat_enum_payload" byteArray)

/-- The slot of an array has no default: where the constructor does not use it, it holds an
unconstrained variable. -/
theorem arraySlot_unconstrained :
    (payloadDest byteArray).Suits (payloadConstructors byteArray) [byteArray] ∧
      DistinctNames (payloadConstructors byteArray) ∧ noArray.WellSorted ∧
      ¬ UsesSlot (payloadDest byteArray) (payloadConstructors byteArray) 0 0 ∧
      ∃ values y, (payloadDest byteArray).buildEnumBvDestinationValues noArray = some values ∧
        values[1]? = some (some y) ∧ ∀ dflt : Expr, dflt.freeVars = [] →
          ∃ ρ : (default : Theory).Env, constructorOf (noArray.eval ρ) =
            some (.mk "None" []) ∧ y.eval ρ ≠ dflt.eval ρ := by
  have hsuits : (payloadDest byteArray).Suits (payloadConstructors byteArray) [byteArray] :=
    @suits_of_isMultiCtorFlattenable _ _ (by decide +kernel) _ [byteArray] (by rfl) false [] (by rfl)
      (by rfl) (by simp [liftBvToInt, byteArray])
  refine ⟨hsuits, distinctNames_payload rfl, ?_, ?_, ?_⟩
  · simp [noArray, wellSorted_app, Op.accepts, payloadConstructors, SmtSort.constructors,
      SmtConstructor.name, SmtConstructor.fields]
  · rintro ⟨ctor, i, field, slotBase, hc, hi, -⟩
    obtain rfl : SmtConstructor.mk "None" [] = ctor := by
      simpa [payloadConstructors] using hc
    simp [SmtConstructor.fields] at hi
  · refine ⟨[some (.isConstructor noArray "Option" "Some"), some noArraySlot], noArraySlot,
      by decide +kernel, rfl, fun dflt hclosed => ?_⟩
    let ρ (b : BitVec 8) : (default : Theory).Env := Theory.Env.ofVals fun _ => arrayOf _ b
    have hnone : ∀ b, constructorOf (noArray.eval (ρ b)) = some (.mk "None" []) := fun b => by
      rw [constructorOf, noArray, destructVal_constructor (d := .mk "None" []) rfl rfl,
        Option.map_some]
    have hslot : ∀ b, noArraySlot.eval (ρ b) = arrayOf _ b := fun b => by
      have hsort : (Expr.fieldSelect noArray "Option" "fld_0" byteArray).sort =
          (Expr.var "__flat_enum_payload" byteArray).sort := rfl
      have hvar : (Expr.var "__flat_enum_payload" byteArray).eval (ρ b) = arrayOf _ b :=
        eval_var_ofVals (f := fun _ => arrayOf _ b) rfl
      rw [noArraySlot, eval_ite hsort, if_neg, hvar]
      rw [holds_isConstructor, hnone]
      rintro ⟨d, hd, hname⟩
      obtain rfl := Option.some.inj hd
      exact absurd hname (by decide)
    have hdflt : dflt.eval (ρ 0#8) = dflt.eval (ρ 1#8) :=
      eval_congr fun n hn => by simp [hclosed] at hn
    by_cases h : noArraySlot.eval (ρ 0#8) = dflt.eval (ρ 0#8)
    · refine ⟨ρ 1#8, hnone _, fun h' => ?_⟩
      have heq := h.trans (hdflt.trans h'.symm)
      rw [hslot, hslot] at heq
      exact absurd (arrayOf_inj heq) (by decide)
    · exact ⟨ρ 0#8, hnone _, h⟩

end Flatten

end TrustMc
