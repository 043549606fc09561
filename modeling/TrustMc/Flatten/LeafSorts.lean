import TrustMc.Lists.PartialMap
import TrustMc.Smt.Sorts
import TrustMc.Trees.Leaves

/-!
# The flattened layout of structs

The model of `codegen_decl_flatten.rs`. A datatype with one constructor is laid out as the list of
its leaf sorts. `collectLeafSorts` lists them from the root, down to a depth limit;
`computeNestedFlatSlot` and `computeNestedFlatSpan` find a field in the list, collecting the
fields before it anew at every level of the path.

`oneLayout_iff`: the three agree exactly on the sorts whose structs below the limit have a single
field each.
-/

namespace TrustMc

/-- A scalar: a bit-vector, Boolean, integer, real or array. -/
def SmtSort.isScalar : SmtSort → Bool
  | .bitvec _ | .bool | .int | .real | .array _ _ => true
  | _ => false

/-- The fields of a datatype with one constructor. -/
def SmtSort.structFields (s : SmtSort) : Option (List SmtField) :=
  match s.constructors with
  | some [c] => some c.fields
  | _ => none

namespace Flatten

/-- `MAX_FLATTEN_DEPTH`. -/
def maxFlattenDepth : ℕ := 4

/-- The recursion of `collect_leaf_sorts`, with the depth that is left. -/
def collectLeaves : ℕ → SmtSort → List SmtSort
  | 0, sort => [sort]
  | left + 1, sort =>
    match sort.structFields with
    | some fields => fields.flatMap fun f => collectLeaves left f.sort
    | none => [sort]

/-- `collect_leaf_sorts`. -/
def collectLeafSorts (sort : SmtSort) (depth : ℕ) : List SmtSort :=
  collectLeaves (maxFlattenDepth - depth) sort

/-- The loop of `compute_nested_flat_slot` and `compute_nested_flat_span`, which differ in what
they do at the last field. -/
def walkFields {β : Type} (finish : SmtSort → ℕ → Option β) : ℕ → SmtSort → List ℕ → Option β
  | _, _, [] => none
  | offset, sort, fieldIdx :: rest => do
    let fields ← sort.structFields
    let target ← fields[fieldIdx]?
    let leafOffset := ((fields.take fieldIdx).map fun f => (collectLeafSorts f.sort 0).length).sum
    if rest.isEmpty then finish target.sort (offset + leafOffset)
    else walkFields finish (offset + leafOffset) target.sort rest

/-- `compute_nested_flat_slot`. -/
def computeNestedFlatSlot (sort : SmtSort) (fieldIndices : List ℕ) : Option ℕ :=
  walkFields (fun target offset => if target.isScalar then some offset else none) 0 sort
    fieldIndices

/-- `compute_nested_flat_span`. -/
def computeNestedFlatSpan (sort : SmtSort) (fieldIndices : List ℕ) : Option (ℕ × ℕ) :=
  walkFields (fun target offset => some (offset, (collectLeafSorts target 0).length)) 0 sort
    fieldIndices

/-! ### The layout as a tree -/

/-- A struct is the tree of the sorts of its fields. -/
def fieldSorts (s : SmtSort) : Option (List SmtSort) := s.structFields.map (·.map SmtField.sort)

/-- The sort at the end of a field path. -/
abbrev sortAt (s : SmtSort) (p : List ℕ) : Option SmtSort := Trees.nodeAt fieldSorts s p

/-- The leaves of the whole sort, each with the field path to it. -/
abbrev leafPaths (s : SmtSort) : List (List ℕ × SmtSort) :=
  Trees.leaves fieldSorts maxFlattenDepth s

theorem structFields_eq_some {s : SmtSort} {fields : List SmtField} :
    s.structFields = some fields ↔ ∃ n c, s = .datatype n [.mk c fields] := by
  constructor
  · intro h
    cases s <;> simp only [SmtSort.structFields, SmtSort.constructors, reduceCtorEq] at h
    split at h
    · rename_i n cs c hcs
      obtain ⟨cn, fs⟩ := c
      simp_all [SmtConstructor.fields]
    · cases h
  · rintro ⟨n, c, rfl⟩
    rfl

theorem collectLeaves_eq (left : ℕ) (s : SmtSort) :
    collectLeaves left s = (Trees.leaves fieldSorts left s).map Prod.snd := by
  induction left generalizing s with
  | zero => rfl
  | succ left ih =>
    rw [collectLeaves, Trees.leaves, fieldSorts]
    cases h : s.structFields with
    | none => rfl
    | some fields =>
      simp only [Option.map_some, List.map_flatMap, List.map_map]
      rw [List.zipIdx_map, List.flatMap_map]
      conv_lhs => rw [← List.zipIdx_map_fst 0 fields, List.flatMap_map]
      refine List.flatMap_congr fun x _ => ?_
      rw [ih]
      rfl

theorem collectLeafSorts_eq (s : SmtSort) : collectLeafSorts s 0 = (leafPaths s).map Prod.snd :=
  collectLeaves_eq _ s

theorem length_collectLeafSorts (s : SmtSort) :
    (collectLeafSorts s 0).length = Trees.leafCount fieldSorts maxFlattenDepth s := by
  rw [collectLeafSorts_eq, List.length_map, Trees.leafCount]

theorem fieldSorts_eq_none_of_isScalar {s : SmtSort} (h : s.isScalar = true) :
    fieldSorts s = none := by
  cases s <;> simp_all [SmtSort.isScalar, fieldSorts, SmtSort.structFields, SmtSort.constructors]

/-- A walk ends at the sort of the path, with the leaves to the left of it counted from every
level. -/
theorem walkFields_eq_some_iff {β : Type} {finish : SmtSort → ℕ → Option β} {s : SmtSort}
    {p : List ℕ} {offset : ℕ} {x : β} :
    walkFields finish offset s p = some x ↔ p ≠ [] ∧ ∃ t, sortAt s p = some t ∧
      finish t (offset + Trees.startAt fieldSorts maxFlattenDepth s p) = some x := by
  induction p generalizing offset s with
  | nil => simp [walkFields]
  | cons j p ih =>
    have hcount : ∀ fields : List SmtField,
        (((fields.map SmtField.sort).take j).map
          (Trees.leafCount fieldSorts maxFlattenDepth)).sum =
        ((fields.take j).map fun f => (collectLeafSorts f.sort 0).length).sum := by
      intro fields
      rw [← List.map_take, List.map_map]
      congr 1
      exact List.map_congr_left fun f _ => (length_collectLeafSorts f.sort).symm
    simp only [walkFields, sortAt, Trees.nodeAt, Trees.startAt, fieldSorts]
    cases hs : s.structFields with
    | none => simp
    | some fields =>
      cases hj : fields[j]? with
      | none => simp [hj]
      | some f =>
        simp only [Option.map_some, Option.bind_eq_bind, Option.bind_some, hj, List.getElem?_map,
          hcount]
        cases p with
        | nil => simp [Trees.startAt]
        | cons k p =>
          rw [List.isEmpty_cons, if_neg Bool.false_ne_true, ih]
          simp only [sortAt, Nat.add_assoc, ne_eq, reduceCtorEq, not_false_eq_true, true_and]

theorem computeNestedFlatSlot_eq_some_iff {s : SmtSort} {p : List ℕ} {k : ℕ} :
    computeNestedFlatSlot s p = some k ↔ p ≠ [] ∧ ∃ t, sortAt s p = some t ∧
      t.isScalar = true ∧ Trees.startAt fieldSorts maxFlattenDepth s p = k := by
  simp [computeNestedFlatSlot, walkFields_eq_some_iff]

theorem computeNestedFlatSpan_eq_some_iff {s : SmtSort} {p : List ℕ} {o c : ℕ} :
    computeNestedFlatSpan s p = some (o, c) ↔ p ≠ [] ∧ ∃ t, sortAt s p = some t ∧
      Trees.startAt fieldSorts maxFlattenDepth s p = o ∧
      Trees.leafCount fieldSorts maxFlattenDepth t = c := by
  simp [computeNestedFlatSpan, walkFields_eq_some_iff, length_collectLeafSorts]

/-! ### One layout -/

/-- The leaf number `i` is under the path, or is the undivided struct the path leads into. -/
abbrev Occupies (s : SmtSort) (p : List ℕ) (i : ℕ) : Prop :=
  Trees.Occupies fieldSorts maxFlattenDepth s p i

/-- Every struct four or more levels deep has exactly one field. -/
def ThinBelowLimit (s : SmtSort) : Prop := Trees.Thin fieldSorts maxFlattenDepth s

/-- Slots and spans name the positions of the leaves of their fields. -/
structure OneLayout (s : SmtSort) : Prop where
  slot : ∀ p k, computeNestedFlatSlot s p = some k → ∀ i, Occupies s p i ↔ i = k
  span : ∀ p o c, computeNestedFlatSpan s p = some (o, c) →
    ∀ i, Occupies s p i ↔ o ≤ i ∧ i < o + c
  disjoint : ∀ p q o c o' c', computeNestedFlatSpan s p = some (o, c) →
    computeNestedFlatSpan s q = some (o', c') → ¬ Trees.Comparable p q →
    o + c ≤ o' ∨ o' + c' ≤ o

theorem oneLayout_iff {s : SmtSort} : OneLayout s ↔ ThinBelowLimit s := by
  constructor
  · intro h
    refine Trees.thin_of_occupies_iff (m := maxFlattenDepth) (by decide) fun p t hp ht i => ?_
    have hne : p ≠ [] := by
      rintro rfl
      simp [maxFlattenDepth] at hp
    exact h.span p _ _ (computeNestedFlatSpan_eq_some_iff.2 ⟨hne, t, ht, rfl, rfl⟩) i
  · intro h
    refine ⟨fun p k hk i => ?_, fun p o c hspan i => ?_, fun p q o c o' c' hp hq hpq => ?_⟩
    · obtain ⟨-, t, ht, hscalar, rfl⟩ := computeNestedFlatSlot_eq_some_iff.1 hk
      refine (Trees.occupies_iff_of_thin h le_rfl ht).trans ?_
      rw [Trees.leafCount_childless (fieldSorts_eq_none_of_isScalar hscalar)]
      omega
    · obtain ⟨-, t, ht, rfl, rfl⟩ := computeNestedFlatSpan_eq_some_iff.1 hspan
      exact Trees.occupies_iff_of_thin h le_rfl ht
    · obtain ⟨-, t, ht, rfl, rfl⟩ := computeNestedFlatSpan_eq_some_iff.1 hp
      obtain ⟨-, u, hu, rfl, rfl⟩ := computeNestedFlatSpan_eq_some_iff.1 hq
      exact Trees.startAt_disjoint h ht hu hpq

end Flatten

end TrustMc
