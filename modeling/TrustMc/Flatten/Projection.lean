import TrustMc.Arithmetic.Encode
import TrustMc.Flatten.LeafSorts
import TrustMc.Smt.Numbers
import Mathlib.Data.Nat.Bitwise
import Mathlib.Data.Nat.Log

/-!
# Fields of a bit-vector encoded struct

The model of `bv_projection.rs`: a struct held in one bit-vector has its first leaf in the highest
bits. `bvProjectionUpdate` replaces the bits of a scalar field, `bvFieldSelect` extracts the bits
of a field.

`flattened_layout_iff`: slots, spans, reads and writes follow one layout exactly on the sorts
whose structs below the depth limit have a single field each and, if the struct has a bit-vector
encoding, no Boolean field: the byte of a Boolean is never turned back.
-/

namespace TrustMc

namespace Flatten

open Arithmetic Carriers.Val TrustMc.Expr Lists

/-! ### Widths -/

/-- `u32::checked_add`. -/
def checkedAdd (a b : ℕ) : Option ℕ := if a + b < 2 ^ 32 then some (a + b) else none

/-- `min_tag_bits`: the smallest `k` with `n ≤ 2 ^ k`. -/
def minTagBits (n : ℕ) : ℕ := Nat.clog 2 n

mutual

/-- `enum_leaf_width`. -/
def enumLeafWidth : SmtSort → Option ℕ
  | .bitvec w => some w
  | .bool => some 1
  | .array _ _ => some 0
  | .datatype _ [c] => enumPayloadWidth c
  | .datatype _ cs => do checkedAdd (minTagBits cs.length) (← enumMaxPayload cs)
  | _ => none

/-- The payload of one constructor. -/
def enumPayloadWidth : SmtConstructor → Option ℕ
  | .mk _ fields => enumFieldsWidth fields

/-- `max_payload`. -/
def enumMaxPayload : List SmtConstructor → Option ℕ
  | [] => some 0
  | c :: cs => do return max (← enumPayloadWidth c) (← enumMaxPayload cs)

/-- The sum over the fields. -/
def enumFieldsWidth : List SmtField → Option ℕ
  | [] => some 0
  | .mk _ s :: fields => do checkedAdd (← enumLeafWidth s) (← enumFieldsWidth fields)

end

mutual

/-- `flattenable_leaf_width`. -/
def flattenableLeafWidth : SmtSort → Option ℕ
  | .bitvec w => some w
  | .bool => some 8
  | .array _ _ => some 0
  | .datatype _ [] => none
  | .datatype _ [c] => flattenableStructWidth c
  | .datatype n (c :: c' :: cs) => enumLeafWidth (.datatype n (c :: c' :: cs))
  | _ => none

/-- The sum over the fields of a struct. -/
def flattenableStructWidth : SmtConstructor → Option ℕ
  | .mk _ fields => flattenableFieldsWidth fields

/-- The sum over a list of fields. -/
def flattenableFieldsWidth : List SmtField → Option ℕ
  | [] => some 0
  | .mk _ s :: fields => do checkedAdd (← flattenableLeafWidth s) (← flattenableFieldsWidth fields)

end

/-- `flattenable_datatype_sort_width`, which treats a datatype as `flattenable_leaf_width` does. -/
def flattenableDatatypeSortWidth (sort : SmtSort) : Option ℕ :=
  match sort with
  | .datatype _ _ => flattenableLeafWidth sort
  | _ => none

/-- `leaf_sort_bv_width`. -/
def leafSortBvWidth (sort : SmtSort) : Option ℕ :=
  match sort with
  | .bitvec w => some w
  | .bool => some 8
  | .datatype _ _ => flattenableDatatypeSortWidth sort
  | _ => none

/-! ### Update and select -/

/-- `FieldProjection`. -/
structure FieldProjection (Ty : Type) where
  fieldIdx : ℕ
  consIdx : Option ℕ
  fieldTy : Option Ty

/-- What the encoder takes from the types of the program, and the decoding of structs. -/
structure TypeTranslation (Ty : Type) where
  /-- `translate_ty`. -/
  translateTy : Ty → Option SmtSort
  /-- `ty_signedness_shallow`. -/
  tySignednessShallow : Ty → Option Bool
  /-- `unflatten_bitvec_to_datatype`. -/
  unflattenBitvecToDatatype : Expr → SmtSort → Option Expr

/-- The widths of the leaves of a sort. -/
def leafWidths (sort : SmtSort) : Option (List ℕ) := (collectLeafSorts sort 0).mapM leafSortBvWidth

/-- The value in place of the bits between those above and those below. -/
def replaceBits (root newVal : Expr) (containerWidth bitsAbove targetWidth bitsBelow : ℕ) : Expr :=
  let upper : Expr := .app (.bvExtract (containerWidth - 1) (bitsBelow + targetWidth)) [root]
  let lower : Expr := .app (.bvExtract (bitsBelow - 1) 0) [root]
  if 0 < bitsAbove then
    if 0 < bitsBelow then .app .bvConcat [.app .bvConcat [upper, newVal], lower]
    else .app .bvConcat [upper, newVal]
  else if 0 < bitsBelow then .app .bvConcat [newVal, lower]
  else newVal

section Fields

variable {Ty : Type} (X : TypeTranslation Ty)

/-- `signed`: the signedness of the last field. -/
def lastFieldSigned (fieldProjections : List (FieldProjection Ty)) : Bool :=
  (fieldProjections.getLast?.bind fun fp => fp.fieldTy.bind X.tySignednessShallow).getD false

/-- `bv_projection_update`. A target without bits fails the assertion of the coercion. -/
def bvProjectionUpdate (root : Expr) (rootTy : Ty) (fieldProjections : List (FieldProjection Ty))
    (newVal : Expr) : Option Expr := do
  let containerWidth ← root.sort.bitvecWidth
  guard (fieldProjections ≠ [] ∧ fieldProjections.all fun fp => fp.consIdx.isNone)
  let typeSort ← X.translateTy rootTy
  let fieldIndices := fieldProjections.map FieldProjection.fieldIdx
  let leafSlot ← computeNestedFlatSlot typeSort fieldIndices
  let widths ← leafWidths typeSort
  guard (widths.sum = containerWidth)
  let targetWidth ← widths[leafSlot]?
  guard (0 < targetWidth)
  let newValBv := coerceBitvecWidthSafe newVal targetWidth
    (.forSignedness (lastFieldSigned X fieldProjections))
  guard newValBv.sort.bitvecWidth.isSome
  let bitsBelow := (widths.drop (leafSlot + 1)).sum
  let bitsAbove := (widths.take leafSlot).sum
  return replaceBits root newValBv containerWidth bitsAbove targetWidth bitsBelow

/-- `bv_field_select`. -/
def bvFieldSelect (root : Expr) (rootTy : Ty) (fieldProjections : List (FieldProjection Ty)) :
    Option Expr := do
  let containerWidth ← root.sort.bitvecWidth
  guard (fieldProjections ≠ [] ∧ fieldProjections.all fun fp => fp.consIdx.isNone)
  let typeSort ← X.translateTy rootTy
  let fieldIndices := fieldProjections.map FieldProjection.fieldIdx
  let (spanOffset, spanCount) ← computeNestedFlatSpan typeSort fieldIndices
  let widths ← leafWidths typeSort
  guard (widths.sum = containerWidth)
  guard (spanOffset + spanCount ≤ widths.length)
  let targetWidth := ((widths.drop spanOffset).take spanCount).sum
  let bitsBelow := (widths.drop (spanOffset + spanCount)).sum
  guard (targetWidth ≠ 0)
  let extracted : Expr := .app (.bvExtract (bitsBelow + targetWidth - 1) bitsBelow) [root]
  -- a field of several leaves is put together again, where its sort is known
  return if 1 < spanCount then
      match fieldProjections.getLast?.bind fun fp => fp.fieldTy.bind X.translateTy with
      | some targetSort =>
        if targetSort.constructors.isSome then
          (X.unflattenBitvecToDatatype extracted targetSort).getD extracted
        else extracted
      | none => extracted
    else extracted

end Fields

/-! ### Widths of leaves -/

theorem eq_of_checkedAdd_zero {a w : ℕ} (h : checkedAdd a 0 = some w) : a = w := by
  rw [checkedAdd] at h
  split_ifs at h
  simpa using h

/-- What a scalar contributes to the width of a struct. -/
def scalarWidth : SmtSort → Option ℕ
  | .bitvec w => some w
  | .bool => some 8
  | .array _ _ => some 0
  | _ => none

theorem flattenableLeafWidth_scalar {t : SmtSort} (h : t.isScalar = true) :
    flattenableLeafWidth t = scalarWidth t := by
  cases t <;> simp_all [SmtSort.isScalar, flattenableLeafWidth, scalarWidth]

theorem flattenableLeafWidth_of_leafSortBvWidth {s : SmtSort} {w : ℕ}
    (h : leafSortBvWidth s = some w) : flattenableLeafWidth s = some w := by
  cases s with
  | datatype n cs => rwa [leafSortBvWidth, flattenableDatatypeSortWidth] at h
  | bool | bitvec => simpa [leafSortBvWidth, flattenableLeafWidth] using h
  | _ => simp [leafSortBvWidth] at h

/-- A chain of structs with one field each is as wide as the scalar at its end. -/
theorem flattenableLeafWidth_of_thin {s t : SmtSort} {r : List ℕ} {w : ℕ}
    (hthin : Trees.Thin fieldSorts 0 s) (ht : sortAt s r = some t) (hscalar : t.isScalar = true)
    (h : flattenableLeafWidth s = some w) : scalarWidth t = some w := by
  induction r generalizing s w with
  | nil =>
    obtain rfl : s = t := by simpa using ht
    rwa [← flattenableLeafWidth_scalar hscalar]
  | cons j r ih =>
    obtain ⟨cs, c, hcs, hc, ht⟩ := Trees.nodeAt_cons.1 ht
    obtain ⟨c', rfl, hthin'⟩ := hthin.exists_child hcs
    obtain ⟨fields, hfields, hmap⟩ := Option.map_eq_some_iff.1 hcs
    obtain ⟨n, cn, rfl⟩ := structFields_eq_some.1 hfields
    obtain ⟨⟨fn, fs⟩, rfl, rfl⟩ := List.map_eq_singleton_iff.1 hmap
    obtain rfl : SmtField.sort ⟨fn, fs⟩ = c := by
      rw [List.getElem?_singleton] at hc
      split_ifs at hc
      exact Option.some.inj hc
    refine ih hthin' ht ?_
    simp only [flattenableLeafWidth, flattenableStructWidth, flattenableFieldsWidth,
      Option.bind_eq_bind, Option.bind_eq_some_iff, Option.some.injEq, exists_eq_left'] at h
    obtain ⟨a, ha, h⟩ := h
    rw [← eq_of_checkedAdd_zero h]
    exact ha

/-! ### Where the bits are -/

theorem drop_eq_cons {l : List ℕ} {k w : ℕ} (h : l[k]? = some w) :
    l.drop k = w :: l.drop (k + 1) := by
  obtain ⟨hlt, rfl⟩ := List.getElem?_eq_some_iff.1 h
  exact List.drop_eq_getElem_cons hlt

section Leaf

variable {s t : SmtSort} {p : List ℕ} {widths : List ℕ}

/-- The width at the slot of a scalar field, the width of the scalar. -/
theorem width_of_slot (hthin : ThinBelowLimit s) (ht : sortAt s p = some t)
    (hscalar : t.isScalar = true) (hwidths : leafWidths s = some widths) :
    ∃ w, widths[Trees.startAt fieldSorts maxFlattenDepth s p]? = some w ∧
      scalarWidth t = some w := by
  have hnone := fieldSorts_eq_none_of_isScalar hscalar
  obtain ⟨l, hl, hor, r, hr⟩ := Trees.exists_leaf_of_thin hthin le_rfl ht hnone
  have hleaf : (collectLeafSorts s 0)[Trees.startAt fieldSorts maxFlattenDepth s p]? =
      some l.2 := by
    rw [collectLeafSorts_eq, List.getElem?_map, hl, Option.map_some]
  obtain ⟨w, hw, hget⟩ := exists_of_mapM hwidths hleaf
  refine ⟨w, hget, ?_⟩
  have hflat := flattenableLeafWidth_of_leafSortBvWidth hw
  rcases hor with rfl | hchain
  · rwa [← flattenableLeafWidth_scalar hscalar]
  · exact flattenableLeafWidth_of_thin hchain hr hscalar hflat

end Leaf

/-! ### Fields of numbers -/

section Numbers

variable {a v b w below : ℕ} (hv : v < 2 ^ w) (hb : b < 2 ^ below)

include hb

private theorem fields_div : ((a * 2 ^ w + v) * 2 ^ below + b) / 2 ^ below = a * 2 ^ w + v := by
  rw [Nat.mul_comm _ (2 ^ below), Nat.mul_add_div (by positivity), Nat.div_eq_of_lt hb,
    Nat.add_zero]

include hv

private theorem fields_mid : ((a * 2 ^ w + v) * 2 ^ below + b) / 2 ^ below % 2 ^ w = v := by
  rw [fields_div hb, Nat.mul_comm, Nat.mul_add_mod, Nat.mod_eq_of_lt hv]

private theorem testBit_fields {x i : ℕ} (hx : x / 2 ^ (below + w) = a) (hx' : x % 2 ^ below = b)
    (hi : ¬ (below ≤ i ∧ i < below + w)) :
    ((a * 2 ^ w + v) * 2 ^ below + b).testBit i = x.testBit i := by
  rcases Nat.lt_or_ge i below with hlt | hge
  · have hlow : ((a * 2 ^ w + v) * 2 ^ below + b) % 2 ^ below = x % 2 ^ below := by
      rw [Nat.mul_comm, Nat.mul_add_mod, Nat.mod_eq_of_lt hb, hx']
    have h := congrArg (Nat.testBit · i) hlow
    simpa only [Nat.testBit_mod_two_pow, hlt, decide_true, Bool.true_and] using h
  · obtain ⟨j, rfl⟩ := Nat.exists_eq_add_of_le (show below + w ≤ i by omega)
    have hhigh : ((a * 2 ^ w + v) * 2 ^ below + b) / 2 ^ (below + w) = x / 2 ^ (below + w) := by
      rw [hx, pow_add, ← Nat.div_div_eq_div_mul, fields_div hb, Nat.mul_comm,
        Nat.mul_add_div (by positivity), Nat.div_eq_of_lt hv, Nat.add_zero]
    have h := congrArg (Nat.testBit · j) hhigh
    simpa only [Nat.testBit_div_two_pow, Nat.add_comm j] using h

end Numbers

/-- Where a tuple of bits is replaced, the others stay. -/
theorem hasNat_replaceBits {T : Theory} {ρ : T.Env} {root newVal : Expr} {above w below x v : ℕ}
    (hroot : HasNat ρ root (above + w + below) x) (hval : HasNat ρ newVal w v) :
    HasNat ρ (replaceBits root newVal (above + w + below) above w below) (above + w + below)
      ((x / 2 ^ (below + w) * 2 ^ w + v) * 2 ^ below + x % 2 ^ below) := by
  have hlower : 0 < below → HasNat ρ (.app (.bvExtract (below - 1) 0) [root]) below
      (x % 2 ^ below) := fun h => by
    have hsub : below - 1 - 0 + 1 = below := by omega
    refine (hroot.extract (below - 1) 0).cast hsub ?_
    rw [hsub, pow_zero, Nat.div_one]
  have hupper : 0 < above → HasNat ρ (.app (.bvExtract (above + w + below - 1) (below + w)) [root])
      above (x / 2 ^ (below + w)) := fun h => by
    have hsub : above + w + below - 1 - (below + w) + 1 = above := by omega
    refine (hroot.extract (above + w + below - 1) (below + w)).cast hsub ?_
    rw [hsub, Nat.mod_eq_of_lt]
    rw [Nat.div_lt_iff_lt_mul (by positivity), ← pow_add]
    exact hroot.lt.trans_eq (by congr 1; omega)
  have habove : above = 0 → x / 2 ^ (below + w) = 0 := fun h =>
    Nat.div_eq_of_lt (hroot.lt.trans_eq (by congr 1; omega))
  unfold replaceBits
  split_ifs with ha hb hb
  · exact ((hupper ha).concat hval).concat (hlower hb)
  · obtain rfl : below = 0 := by omega
    exact ((hupper ha).concat hval).cast (by omega) (by simp [Nat.mod_one])
  · refine (hval.concat (hlower hb)).cast (by omega) ?_
    rw [habove (by omega), Nat.zero_mul, Nat.zero_add]
  · obtain rfl : below = 0 := by omega
    refine hval.cast (by omega) ?_
    rw [habove (by omega)]
    simp [Nat.mod_one]

/-! ### Reads and writes -/

/-- What is written to a field is read back, from the bits that were written. -/
structure ReadsBack {Ty : Type} (X : TypeTranslation Ty) (rootTy : Ty) {T : Theory} (ρ : T.Env)
    (root : Expr) (fps : List (FieldProjection Ty)) (newVal updated : Expr) (low high : ℕ) :
    Prop where
  /-- The bits that are read, whatever the container. -/
  reads : ∀ container : Expr, container.sort = root.sort →
    bvFieldSelect X container rootTy fps = some (.app (.bvExtract (high - 1) low) [container])
  /-- The value comes back, at its sort. -/
  back : ∃ e, bvFieldSelect X updated rootTy fps = some e ∧ e.sort = newVal.sort ∧
    e.eval ρ = newVal.eval ρ
  /-- The container keeps its width. -/
  sort : updated.sort = root.sort
  /-- The other bits are as they were. -/
  others : ∀ i, ¬ (low ≤ i ∧ i < high) →
    (bits root.sort.width updated ρ).getLsbD i = (bits root.sort.width root ρ).getLsbD i

/-- The bits of a span: the leaves before it are above, those after it below. -/
def spanBits (widths : List ℕ) (span : ℕ × ℕ) : ℕ × ℕ :=
  ((widths.drop (span.1 + span.2)).sum, (widths.drop span.1).sum)

/-- One layout for slots, spans, reads and writes. -/
structure FlattenedLayout (s : SmtSort) : Prop extends OneLayout s where
  readsBack : ∀ {Ty : Type} (X : TypeTranslation Ty) (rootTy : Ty), X.translateTy rootTy = some s →
    ∀ {T : Theory} (ρ : T.Env) (root newVal updated : Expr) (fps : List (FieldProjection Ty)),
      sortAt s (fps.map FieldProjection.fieldIdx) = some newVal.sort →
      bvProjectionUpdate X root rootTy fps newVal = some updated →
      ∃ widths o c, leafWidths s = some widths ∧
        computeNestedFlatSpan s (fps.map FieldProjection.fieldIdx) = some (o, c) ∧
        ReadsBack X rootTy ρ root fps newVal updated (spanBits widths (o, c)).1
          (spanBits widths (o, c)).2
  othersDisjoint : ∀ widths, leafWidths s = some widths → ∀ p q o c o' c',
    computeNestedFlatSpan s p = some (o, c) → computeNestedFlatSpan s q = some (o', c') →
    ¬ Trees.Comparable p q → ∀ i, (spanBits widths (o, c)).1 ≤ i ∧ i < (spanBits widths (o, c)).2 →
      ¬ ((spanBits widths (o', c')).1 ≤ i ∧ i < (spanBits widths (o', c')).2)

/-- A struct with a bit-vector encoding has no Boolean field, at any depth. -/
def EncodedWithoutBool (s : SmtSort) : Prop :=
  (leafWidths s).isSome = true → ∀ p ≠ [], sortAt s p ≠ some .bool

section Spec

variable {Ty : Type} {X : TypeTranslation Ty} {rootTy : Ty} {root newVal updated : Expr}
  {fps : List (FieldProjection Ty)}

theorem bvProjectionUpdate_eq_some_iff : bvProjectionUpdate X root rootTy fps newVal = some updated ↔
    ∃ containerWidth s k widths w newValBv, root.sort = .bitvec containerWidth ∧
      (fps ≠ [] ∧ fps.all fun fp => fp.consIdx.isNone) ∧ X.translateTy rootTy = some s ∧
      computeNestedFlatSlot s (fps.map FieldProjection.fieldIdx) = some k ∧
      leafWidths s = some widths ∧ widths.sum = containerWidth ∧ widths[k]? = some w ∧ 0 < w ∧
      coerceBitvecWidthSafe newVal w (.forSignedness (lastFieldSigned X fps)) = newValBv ∧
      newValBv.sort.bitvecWidth.isSome = true ∧
      replaceBits root newValBv containerWidth (widths.take k).sum w (widths.drop (k + 1)).sum =
        updated := by
  simp only [bvProjectionUpdate, Option.bind_eq_bind, Option.bind_eq_some_iff,
    SmtSort.bitvecWidth_eq_some, Option.guard_eq_some', Option.pure_def, Option.some.injEq,
    exists_const, exists_and_left, exists_eq_left']

theorem bvFieldSelect_eq_some {s : SmtSort} {widths : List ℕ} {o w : ℕ}
    (hroot : root.sort = .bitvec widths.sum)
    (hfps : fps ≠ [] ∧ fps.all fun fp => fp.consIdx.isNone) (hX : X.translateTy rootTy = some s)
    (hspan : computeNestedFlatSpan s (fps.map FieldProjection.fieldIdx) = some (o, 1))
    (hwidths : leafWidths s = some widths) (hw : widths[o]? = some w) (hpos : 0 < w) :
    bvFieldSelect X root rootTy fps = some (.app (.bvExtract ((spanBits widths (o, 1)).2 - 1)
      (spanBits widths (o, 1)).1) [root]) := by
  have hdrop := drop_eq_cons hw
  have hsum : (widths.drop o).sum = (widths.drop (o + 1)).sum + w := by
    rw [hdrop, List.sum_cons, Nat.add_comm]
  have htake : ((widths.drop o).take 1).sum = w := by
    rw [hdrop]
    simp
  have hne : w ≠ 0 := by omega
  have hle : o + 1 ≤ widths.length := (List.getElem?_eq_some_iff.1 hw).1
  rw [spanBits, hsum, bvFieldSelect]
  simp only [hroot, SmtSort.bitvecWidth, hX, hspan, hwidths, htake, Option.bind_eq_bind,
    Option.bind_some, guard, if_pos hfps, if_pos hle, if_pos hne, Option.pure_def, Nat.lt_irrefl,
    if_false, if_true]

theorem readsBack {s : SmtSort} {T : Theory} (ρ : T.Env) (hthin : ThinBelowLimit s)
    (hbool : EncodedWithoutBool s) (hX : X.translateTy rootTy = some s)
    (hsort : sortAt s (fps.map FieldProjection.fieldIdx) = some newVal.sort)
    (hupdate : bvProjectionUpdate X root rootTy fps newVal = some updated) :
    ∃ widths o c, leafWidths s = some widths ∧
      computeNestedFlatSpan s (fps.map FieldProjection.fieldIdx) = some (o, c) ∧
      ReadsBack X rootTy ρ root fps newVal updated (spanBits widths (o, c)).1
        (spanBits widths (o, c)).2 := by
  obtain ⟨_, s', k, widths, w, newValBv, hroot, hfps, hX', hslot, hwidths, rfl, hk, hpos, hcoerce,
    -, rfl⟩ := bvProjectionUpdate_eq_some_iff.1 hupdate
  obtain rfl : s = s' := by rw [hX] at hX'; exact Option.some.inj hX'
  obtain ⟨hne, t, ht, hscalar, rfl⟩ := computeNestedFlatSlot_eq_some_iff.1 hslot
  obtain rfl : newVal.sort = t := by rw [hsort] at ht; exact Option.some.inj ht
  -- the field is a bit-vector, as wide as its slot
  obtain ⟨w', hw', hscalarWidth⟩ := width_of_slot hthin hsort hscalar hwidths
  obtain rfl : w = w' := by rw [hk] at hw'; exact Option.some.inj hw'
  have hnewSort : newVal.sort = .bitvec w := by
    have hnotBool := hbool (by rw [hwidths]; rfl) _ hne
    rw [hsort] at hnotBool
    revert hscalarWidth hnotBool
    cases newVal.sort <;> simp [scalarWidth]
    omega
  obtain rfl : newVal = newValBv := by
    rw [← hcoerce, coerceBitvecWidthSafe, hnewSort]
    simp [SmtSort.bitvecWidth]
  set k := Trees.startAt fieldSorts maxFlattenDepth s (fps.map FieldProjection.fieldIdx)
  have hspan : computeNestedFlatSpan s (fps.map FieldProjection.fieldIdx) = some (k, 1) :=
    computeNestedFlatSpan_eq_some_iff.2 ⟨hne, _, hsort, rfl,
      Trees.leafCount_childless (fieldSorts_eq_none_of_isScalar hscalar)⟩
  refine ⟨widths, k, 1, hwidths, hspan, ?_⟩
  -- the bits above, of and below the slot
  set above := (widths.take k).sum with habove
  set below := (widths.drop (k + 1)).sum with hbelow
  have hhigh : (widths.drop k).sum = below + w := by
    rw [drop_eq_cons hk, List.sum_cons, Nat.add_comm]
  have htotal : widths.sum = above + w + below := by
    have hsplit : (widths.take k ++ widths.drop k).sum = above + (widths.drop k).sum :=
      List.sum_append
    rw [List.take_append_drop, hhigh] at hsplit
    omega
  have hbits : spanBits widths (k, 1) = (below, below + w) := by
    rw [spanBits, hhigh]
  have hreads : ∀ container : Expr, container.sort = root.sort →
      bvFieldSelect X container rootTy fps =
        some (.app (.bvExtract (below + w - 1) below) [container]) := fun container hc => by
    rw [bvFieldSelect_eq_some (by rw [hc, hroot]) hfps hX hspan hwidths hk hpos, hbits]
  rw [htotal] at hroot ⊢
  have hrootNat : HasNat ρ root (above + w + below) (bits _ root ρ).toNat := ⟨hroot, rfl⟩
  have hnew : HasNat ρ newVal w (bits _ newVal ρ).toNat := ⟨hnewSort, rfl⟩
  have hupd := hasNat_replaceBits hrootNat hnew
  have hlow : (bits (above + w + below) root ρ).toNat % 2 ^ below < 2 ^ below :=
    Nat.mod_lt _ (by positivity)
  have hsort' := hupd.sort.trans hroot.symm
  rw [hbits]
  refine ⟨hreads, ⟨_, hreads _ hsort', ?_⟩, hsort', fun i hi => ?_⟩
  · have hwidth : below + w - 1 - below + 1 = w := by omega
    have hext := (hupd.extract (below + w - 1) below).cast hwidth rfl
    rw [hwidth, fields_mid hnew.lt hlow] at hext
    exact ⟨hext.sort.trans hnewSort.symm, hext.eval_eq.trans hnew.eval_eq.symm⟩
  · rw [hroot, SmtSort.width_bitvec, ← BitVec.testBit_toNat, ← BitVec.testBit_toNat, hupd.toNat]
    exact testBit_fields hnew.lt hlow rfl rfl hi

/-- The byte of a Boolean field is read back as a byte. -/
theorem not_readsBack_of_bool {s : SmtSort} (hthin : ThinBelowLimit s) {widths : List ℕ}
    (hwidths : leafWidths s = some widths) {p : List ℕ} (hp : p ≠ [])
    (hbool : sortAt s p = some .bool) : ¬ FlattenedLayout s := by
  intro h
  have hscalar : SmtSort.isScalar .bool = true := rfl
  obtain ⟨w, hk, hw⟩ := width_of_slot hthin hbool hscalar hwidths
  obtain rfl : 8 = w := Option.some.inj hw
  -- a container, and the truth value written to the field
  set X : TypeTranslation Unit := ⟨fun _ => some s, fun _ => none, fun _ _ => none⟩
  set fps : List (FieldProjection Unit) := p.map fun j => ⟨j, none, none⟩ with hfps
  set root : Expr := .var "root" (.bitvec widths.sum)
  have hmap : fps.map FieldProjection.fieldIdx = p := by simp [hfps, Function.comp_def]
  have hslot : computeNestedFlatSlot s (fps.map FieldProjection.fieldIdx) =
      some (Trees.startAt fieldSorts maxFlattenDepth s p) := by
    rw [hmap]
    exact computeNestedFlatSlot_eq_some_iff.2 ⟨hp, _, hbool, hscalar, rfl⟩
  have hok : fps ≠ [] ∧ fps.all fun fp => fp.consIdx.isNone := by simpa [hfps] using hp
  obtain ⟨updated, hupdate⟩ : ∃ updated,
      bvProjectionUpdate X root () fps (.boolConst true) = some updated :=
    ⟨_, bvProjectionUpdate_eq_some_iff.2 ⟨_, s, _, widths, 8, _, rfl, hok, rfl, hslot, hwidths, rfl,
      hk, by decide, rfl, rfl, rfl⟩⟩
  obtain ⟨widths', o, c, -, -, hreads⟩ := h.readsBack X () rfl (T := default) default root
    (.boolConst true) updated fps (by rw [hmap]; exact hbool) hupdate
  obtain ⟨e, he, hsort, -⟩ := hreads.back
  rw [hreads.reads updated hreads.sort, Option.some.injEq] at he
  subst he
  simp [Op.resultSort] at hsort

end Spec

/-- Slots, spans, reads and writes follow one layout exactly on the sorts whose structs below the
depth limit have one field each and that, encoded in a bit-vector, have no Boolean field. -/
theorem flattened_layout_iff (s : SmtSort) :
    FlattenedLayout s ↔ ThinBelowLimit s ∧ EncodedWithoutBool s := by
  constructor
  · intro h
    have hthin := oneLayout_iff.1 h.toOneLayout
    refine ⟨hthin, fun hsome p hp hbool => ?_⟩
    obtain ⟨widths, hwidths⟩ := Option.isSome_iff_exists.1 hsome
    exact not_readsBack_of_bool hthin hwidths hp hbool h
  · rintro ⟨hthin, hbool⟩
    have hlayout := oneLayout_iff.2 hthin
    refine ⟨hlayout, fun X rootTy hX T ρ root newVal updated fps hsort hupdate =>
      readsBack ρ hthin hbool hX hsort hupdate, ?_⟩
    intro widths _ p q o c o' c' hp hq hpq i hi hi'
    simp only [spanBits] at hi hi'
    -- the span further left has the higher bits
    have hanti : ∀ {a b : ℕ}, a ≤ b → (widths.drop b).sum ≤ (widths.drop a).sum := fun hab =>
      (List.drop_sublist_drop_left widths hab).sum_le_sum (by simp)
    rcases hlayout.disjoint p q o c o' c' hp hq hpq with hle | hle
    · have := hanti hle
      omega
    · have := hanti hle
      omega

/-- A struct with the given field sorts. -/
def structOf (name : String) (sorts : List SmtSort) : SmtSort :=
  .datatype name [.mk name (sorts.map fun s => .mk "field" s)]

/-- Five structs within each other; the innermost has two fields, and a byte beside it. -/
def deepStruct : SmtSort :=
  structOf "A" [structOf "B" [structOf "C" [structOf "D"
    [structOf "E" [.bitvec 8, .bitvec 8], .bitvec 8]]]]

/-- The byte beside the innermost struct is leaf 1 of two; its slot counts the fields of the
undivided struct before it. -/
theorem deepField_misplaced :
    computeNestedFlatSlot deepStruct [0, 0, 0, 1] = some 2 ∧
    leafPaths deepStruct = [([0, 0, 0, 0], structOf "E" [.bitvec 8, .bitvec 8]),
      ([0, 0, 0, 1], .bitvec 8)] ∧ ¬ FlattenedLayout deepStruct := by
  have hslot : computeNestedFlatSlot deepStruct [0, 0, 0, 1] = some 2 := by decide
  have hleaves : leafPaths deepStruct = [([0, 0, 0, 0], structOf "E" [.bitvec 8, .bitvec 8]),
      ([0, 0, 0, 1], .bitvec 8)] := rfl
  refine ⟨hslot, hleaves, fun h => ?_⟩
  obtain ⟨l, hl, -⟩ := (h.slot _ _ hslot 2).2 rfl
  change (leafPaths deepStruct)[2]? = some l at hl
  rw [hleaves] at hl
  cases hl

end Flatten

end TrustMc
