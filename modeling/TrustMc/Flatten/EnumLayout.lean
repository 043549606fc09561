import TrustMc.Flatten.LeafExprs
import Mathlib.Data.Nat.Log

/-!
# Layouts of flattened enums

A flattened enum is a tag and payload slots that its constructors share: every constructor lays
its leaves out from the first slot on, and a slot takes the least sort that holds the leaves of
all constructors at its position (`enumLeafLayout`).

`enumLeafLayout_fits`: in such a layout every leaf can be coerced to the sort of its slot.
-/

namespace TrustMc

namespace Flatten

open Lists

/-- `EnumBvLayout`, as far as values are concerned; an omitted field has no slot. -/
structure EnumBvLayout where
  numConstructors : ℕ
  tagBits : ℕ
  ctorFieldSlot : List (List (Option ℕ))
  maxPayloadSlots : ℕ

/-- `EnumBvLayout::payload_slot`. -/
def EnumBvLayout.payloadSlot (layout : EnumBvLayout) (ctorIdx fieldIdx : ℕ) : Option ℕ := do
  let fields ← layout.ctorFieldSlot[ctorIdx]?
  let slot ← fields[fieldIdx]?
  slot

/-- `enum_tag_bits`; the logarithm is rounded up. -/
def enumTagBits (n : ℕ) : ℕ := if n ≤ 2 then 1 else Nat.clog 2 n

/-- `is_multi_ctor_flattenable`. -/
def isMultiCtorFlattenable (ctors : List SmtConstructor) : Bool :=
  2 ≤ ctors.length && ctors.all fun ctor => ctor.fields.all fun f =>
    isRecursivelyFlattenable f.sort 0

/-! ### Slots of the constructors -/

/-- `field_slots` of one constructor, whose leaves start at slot `next`. -/
def fieldSlots : ℕ → List (Option SmtSort) → List (Option ℕ)
  | _, [] => []
  | next, none :: fields => none :: fieldSlots next fields
  | next, some s :: fields => some next :: fieldSlots (next + (collectLeafSorts s 0).length) fields

/-- `ctor_leaves` of one constructor. -/
def ctorLeaves (fields : List (Option SmtSort)) : List SmtSort :=
  fields.flatMap fun field =>
    match field with
    | none => []
    | some s => collectLeafSorts s 0

/-! ### Sorts of the slots -/

/-- `unify_bv_sorts` and `unify_enum_leaf_sorts`. -/
def unifyBvSorts (a b : SmtSort) : Option SmtSort :=
  match a, b with
  | .bitvec wa, .bitvec wb =>
    -- two vectors of one bit are vectors here as well
    some (.bitvec (max wa wb))
  | .bool, .bool => some .bool
  | .int, .int => some .int
  | .bool, .bitvec w => if w = 1 then some .bool else none
  | .bitvec w, .bool => if w = 1 then some .bool else none
  | _, _ => none

/-- The step of `unify_multi_ctor_leaf_sorts`, which keeps equal sorts as they are. -/
def unifyDifferent (a b : SmtSort) : Option SmtSort :=
  if a = b then some a else unifyBvSorts a b

/-- The sort of the slot `pos`. -/
def unifyPosition (unify : SmtSort → SmtSort → Option SmtSort) (all : List (List SmtSort))
    (pos : ℕ) : Option SmtSort :=
  match all.filterMap (·[pos]?) with
  | [] => none
  | s :: rest => rest.foldlM unify s

/-- `max_leaves`. -/
def maxLeaves (all : List (List SmtSort)) : ℕ := (all.map List.length).foldl max 0

/-- The slots of the fields and the sorts of the slots: `unify_multi_ctor_leaf_sorts`, and with
omitted fields `unit_aware_multi_ctor_enum_layout`. -/
def enumLeafLayout (unify : SmtSort → SmtSort → Option SmtSort)
    (ctors : List (List (Option SmtSort))) : Option (List (List (Option ℕ)) × List SmtSort) := do
  let all := ctors.map ctorLeaves
  let sorts ← (List.range (maxLeaves all)).mapM (unifyPosition unify all)
  return (ctors.map (fieldSlots 0), sorts)

/-- `lift_bv_to_int_if_enabled`. -/
def liftBvToInt (enabled : Bool) (s : SmtSort) : SmtSort :=
  match s with
  | .bitvec w => if enabled then .int else .bitvec w
  | s => s

/-- `tag_sort`. -/
def EnumBvLayout.tagSort (layout : EnumBvLayout) : SmtSort :=
  if layout.numConstructors = 2 then .bool else .bitvec layout.tagBits

/-! ### What a slot can hold -/

/-- A leaf of the one sort can be held by a slot of the other. -/
def HoldsSort (leaf slot : SmtSort) : Prop :=
  leaf = slot ∨ ∃ w, leaf = .bitvec w ∧ ((∃ w', slot = .bitvec w' ∧ w ≤ w') ∨ slot = .bool ∨
    slot = .int)

theorem HoldsSort.liftBvToInt {leaf slot : SmtSort} (h : HoldsSort leaf slot) (enabled : Bool) :
    HoldsSort leaf (liftBvToInt enabled slot) := by
  rcases h with rfl | ⟨w, rfl, ⟨w', rfl, hle⟩ | rfl | rfl⟩
  · cases leaf <;> simp [Flatten.liftBvToInt, HoldsSort]
    split_ifs <;> simp
  · rw [Flatten.liftBvToInt]
    split_ifs
    · exact .inr ⟨w, rfl, .inr (.inr rfl)⟩
    · exact .inr ⟨w, rfl, .inl ⟨w', rfl, hle⟩⟩
  · exact .inr ⟨w, rfl, .inr (.inl rfl)⟩
  · exact .inr ⟨w, rfl, .inr (.inr rfl)⟩

/-- A unification whose result holds both sorts, and all that the first one held. -/
def Unifies (unify : SmtSort → SmtSort → Option SmtSort) : Prop :=
  ∀ a b u, unify a b = some u → HoldsSort b u ∧ ∀ leaf, HoldsSort leaf a → HoldsSort leaf u

theorem unifies_unifyBvSorts : Unifies unifyBvSorts := by
  intro a b u h
  unfold unifyBvSorts at h
  split at h
  · cases h
    refine ⟨.inr ⟨_, rfl, .inl ⟨_, rfl, le_max_right _ _⟩⟩, ?_⟩
    rintro leaf (rfl | ⟨w, rfl, ⟨w', h', hle⟩ | h' | h'⟩)
    · exact .inr ⟨_, rfl, .inl ⟨_, rfl, le_max_left _ _⟩⟩
    · cases h'
      exact .inr ⟨_, rfl, .inl ⟨_, rfl, hle.trans (le_max_left _ _)⟩⟩
    · cases h'
    · cases h'
  · cases h
    exact ⟨.inl rfl, fun _ => id⟩
  · cases h
    exact ⟨.inl rfl, fun _ => id⟩
  · split_ifs at h
    cases h
    exact ⟨.inr ⟨_, rfl, .inr (.inl rfl)⟩, fun _ => id⟩
  · split_ifs at h
    cases h
    refine ⟨.inl rfl, ?_⟩
    rintro leaf (rfl | ⟨w, rfl, -⟩)
    · exact .inr ⟨_, rfl, .inr (.inl rfl)⟩
    · exact .inr ⟨_, rfl, .inr (.inl rfl)⟩
  · cases h

theorem unifies_unifyDifferent : Unifies unifyDifferent := by
  intro a b u h
  rw [unifyDifferent] at h
  split_ifs at h with hab
  · cases h
    exact ⟨.inl hab.symm, fun _ => id⟩
  · exact unifies_unifyBvSorts a b u h

section Fits

variable {unify : SmtSort → SmtSort → Option SmtSort} (hu : Unifies unify)

include hu

theorem holdsSort_foldlM {l : List SmtSort} {s u : SmtSort} (h : l.foldlM unify s = some u) :
    (∀ leaf, HoldsSort leaf s → HoldsSort leaf u) ∧ ∀ leaf ∈ l, HoldsSort leaf u := by
  induction l generalizing s with
  | nil =>
    obtain rfl : s = u := by simpa using h
    exact ⟨fun _ => id, by simp⟩
  | cons a l ih =>
    simp only [List.foldlM_cons, Option.bind_eq_bind, Option.bind_eq_some_iff] at h
    obtain ⟨s', hs', h⟩ := h
    obtain ⟨ha, hkeep⟩ := hu s a s' hs'
    obtain ⟨hall, hl⟩ := ih h
    refine ⟨fun leaf hleaf => hall leaf (hkeep leaf hleaf), fun leaf hmem => ?_⟩
    rcases List.mem_cons.1 hmem with rfl | hmem
    · exact hall leaf ha
    · exact hl leaf hmem

/-- A slot holds the leaves of every constructor at its position. -/
theorem holdsSort_unifyPosition {all : List (List SmtSort)} {pos : ℕ} {u : SmtSort}
    (h : unifyPosition unify all pos = some u) {leaves : List SmtSort} (hmem : leaves ∈ all)
    {leaf : SmtSort} (hleaf : leaves[pos]? = some leaf) : HoldsSort leaf u := by
  have hin : leaf ∈ all.filterMap (·[pos]?) := List.mem_filterMap.2 ⟨leaves, hmem, hleaf⟩
  rw [unifyPosition] at h
  split at h
  · cases h
  · rename_i s rest heq
    rw [heq] at hin
    obtain ⟨hs, hrest⟩ := holdsSort_foldlM hu h
    rcases List.mem_cons.1 hin with rfl | hin
    · exact hs _ (.inl rfl)
    · exact hrest leaf hin

end Fits

/-! ### Layouts -/

/-- The layout and the sorts of its slots suit the constructors of an enum. -/
structure LayoutFor (ctors : List SmtConstructor) (layout : EnumBvLayout)
    (slotSorts : List SmtSort) : Prop where
  count : layout.numConstructors = ctors.length
  two_le : 2 ≤ ctors.length
  tagBits : ctors.length ≤ 2 ^ layout.tagBits
  slots : slotSorts.length = layout.maxPayloadSlots
  /-- Fields with a slot have leaves, all of which fit the slots from there on. -/
  fits : ∀ (c : ℕ) (ctor : SmtConstructor) (f : ℕ) (field : SmtField) (base : ℕ),
    ctors[c]? = some ctor → ctor.fields[f]? = some field →
    layout.payloadSlot c f = some base → isRecursivelyFlattenable field.sort 0 = true ∧
      ∀ i leaf slot, (collectLeafSorts field.sort 0)[i]? = some leaf →
        slotSorts[base + i]? = some slot → HoldsSort leaf slot

theorem le_two_pow_enumTagBits (n : ℕ) : n ≤ 2 ^ enumTagBits n := by
  rw [enumTagBits]
  split_ifs with h
  · simpa using h
  · exact Nat.le_pow_clog (by norm_num) n

/-- The slots of a field are those of its leaves among the leaves of the constructor. -/
theorem getElem?_fieldSlots {fields : List (Option SmtSort)} {next f base : ℕ}
    (h : (fieldSlots next fields)[f]? = some (some base)) :
    ∃ s, fields[f]? = some (some s) ∧ next ≤ base ∧ ∀ i leaf,
      (collectLeafSorts s 0)[i]? = some leaf →
        (ctorLeaves fields)[base - next + i]? = some leaf := by
  induction fields generalizing next f with
  | nil => simp [fieldSlots] at h
  | cons field fields ih =>
    cases field with
    | none =>
      cases f with
      | zero => simp [fieldSlots] at h
      | succ f =>
        obtain ⟨s, hs, hle, hleaf⟩ := ih (by simpa [fieldSlots] using h)
        exact ⟨s, by simpa using hs, hle, by simpa [ctorLeaves] using hleaf⟩
    | some s =>
      cases f with
      | zero =>
        obtain rfl : next = base := by simpa [fieldSlots] using h
        refine ⟨s, rfl, le_rfl, fun i leaf hleaf => ?_⟩
        have hi := (List.getElem?_eq_some_iff.1 hleaf).1
        rw [Nat.sub_self, Nat.zero_add, ctorLeaves, List.flatMap_cons,
          List.getElem?_append_left hi, hleaf]
      | succ f =>
        obtain ⟨s', hs', hle, hleaf⟩ := ih (f := f) (by simpa [fieldSlots] using h)
        refine ⟨s', by simpa using hs', by omega, fun i leaf hl => ?_⟩
        rw [ctorLeaves, List.flatMap_cons, List.getElem?_append_right (by simp; omega),
          ← hleaf i leaf hl, ctorLeaves]
        congr 1
        simp
        omega

/-- The layouts of both builders suit the constructors whose fields they lay out. -/
theorem layoutFor_enumLeafLayout {unify : SmtSort → SmtSort → Option SmtSort}
    (hu : Unifies unify) {ctors : List SmtConstructor} (htwo : 2 ≤ ctors.length)
    {fields : List (List (Option SmtSort))}
    (hfields : ∀ (c : ℕ) (ctor : SmtConstructor) (f : ℕ) (field : SmtField) (s : SmtSort),
      ctors[c]? = some ctor → ctor.fields[f]? = some field →
      (∃ fs : List (Option SmtSort), fields[c]? = some fs ∧ fs[f]? = some (some s)) →
        field.sort = s ∧ isRecursivelyFlattenable s 0 = true)
    {slots : List (List (Option ℕ))} {sorts : List SmtSort}
    (h : enumLeafLayout unify fields = some (slots, sorts)) (lift : Bool) :
    LayoutFor ctors ⟨ctors.length, enumTagBits ctors.length, slots, sorts.length⟩
      (sorts.map (liftBvToInt lift)) := by
  simp only [enumLeafLayout, Option.bind_eq_bind, Option.bind_eq_some_iff, Option.pure_def,
    Option.some.injEq, Prod.mk.injEq] at h
  obtain ⟨sorts', hsorts, rfl, rfl⟩ := h
  refine ⟨rfl, htwo, le_two_pow_enumTagBits _, List.length_map _, ?_⟩
  intro c ctor f field base hc hf hbase
  obtain ⟨fs, hfs, hslot⟩ : ∃ fs, fields[c]? = some fs ∧
      (fieldSlots 0 fs)[f]? = some (some base) := by
    simp only [EnumBvLayout.payloadSlot, Option.bind_eq_bind, List.getElem?_map,
      Option.bind_eq_some_iff, Option.map_eq_some_iff] at hbase
    obtain ⟨_, ⟨fs, hfs, rfl⟩, slot, hslot, rfl⟩ := hbase
    exact ⟨fs, hfs, hslot⟩
  obtain ⟨s, hs, -, hleaf⟩ := getElem?_fieldSlots hslot
  obtain ⟨rfl, hflat⟩ := hfields c ctor f field s hc hf ⟨fs, hfs, hs⟩
  refine ⟨hflat, fun i leaf slot hl hslotSort => ?_⟩
  obtain ⟨u, hu', rfl⟩ : ∃ u, sorts'[base + i]? = some u ∧ liftBvToInt lift u = slot := by
    simpa [List.getElem?_map, Option.map_eq_some_iff] using hslotSort
  refine HoldsSort.liftBvToInt ?_ lift
  have hpos : unifyPosition unify (fields.map ctorLeaves) (base + i) = some u := by
    rcases getElem?_of_mapM hsorts (base + i) with ⟨-, hnone⟩ | ⟨pos, u', hl', hu'', hget⟩
    · rw [hu'] at hnone
      cases hnone
    · obtain ⟨hlt, rfl⟩ := List.getElem?_eq_some_iff.1 hl'
      obtain rfl : u = u' := by rw [hu'] at hget; exact Option.some.inj hget
      rwa [List.getElem_range] at hu''
  exact holdsSort_unifyPosition hu hpos (List.mem_map.2 ⟨fs, List.mem_of_getElem? hfs, rfl⟩)
    (by simpa using hleaf i leaf hl)

/-- `unify_multi_ctor_leaf_sorts` lays out every flattenable enum it accepts. -/
theorem layoutFor_of_isMultiCtorFlattenable {ctors : List SmtConstructor}
    (hflat : isMultiCtorFlattenable ctors = true) {slots : List (List (Option ℕ))}
    {sorts : List SmtSort}
    (h : enumLeafLayout unifyDifferent (ctors.map fun c => c.fields.map fun f => some f.sort) =
      some (slots, sorts)) (lift : Bool) :
    LayoutFor ctors ⟨ctors.length, enumTagBits ctors.length, slots, sorts.length⟩
      (sorts.map (liftBvToInt lift)) := by
  simp only [isMultiCtorFlattenable, Bool.and_eq_true, decide_eq_true_eq, List.all_eq_true]
    at hflat
  refine layoutFor_enumLeafLayout unifies_unifyDifferent hflat.1 ?_ h lift
  rintro c ctor f field s hc hf ⟨fs, hfs, hs⟩
  obtain rfl : ctor.fields.map (fun f => some f.sort) = fs := by
    simpa [List.getElem?_map, hc] using hfs
  obtain rfl : field.sort = s := by simpa [List.getElem?_map, hf] using hs
  exact ⟨rfl, hflat.2 ctor (List.mem_of_getElem? hc) field (List.mem_of_getElem? hf)⟩

end Flatten

end TrustMc
