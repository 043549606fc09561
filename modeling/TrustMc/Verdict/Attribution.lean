import Mathlib

/-!
# Attribution of unsoundness counts

The driver keeps, for each category of unsoundness, the total of a crate and a map from names
to counts. A key of such a map names a proof harness or a function, with or without its module
path; these are the look-ups that resolve a harness's count from it.

* `lookupPerHarness`: the value of the most specific key that names the harness, if it is
  unique.
* `attributableToHarness`: the keys that count against a harness.
* `resolvePerHarnessCount`, `resolvePerHarnessCountFailClosed`: the count by the one and by the
  other.
-/

namespace TrustMc

namespace Verdict

/-- `BTreeMap<String, _>`: entries in the order of their keys. -/
structure BTreeMap (α : Type) where
  /-- The entries. -/
  entries : List (String × α)
  /-- The keys are in order. -/
  sorted : (entries.map Prod.fst).Pairwise (· < ·)

namespace BTreeMap

variable {α : Type}

/-- `BTreeMap::new`. -/
def empty : BTreeMap α := ⟨[], .nil⟩

instance : Inhabited (BTreeMap α) := ⟨empty⟩

/-- `get`. -/
def get (m : BTreeMap α) (key : String) : Option α :=
  (m.entries.find? fun e => e.1 == key).map Prod.snd

/-- `is_empty`. -/
def isEmpty (m : BTreeMap α) : Bool := m.entries.isEmpty

/-- A map with one entry. -/
def singleton (key : String) (value : α) : BTreeMap α :=
  ⟨[(key, value)], List.pairwise_singleton _ _⟩

/-- Entries with `count` added to that of `key`. -/
def insertCount (key : String) (count : ℕ) : List (String × ℕ) → List (String × ℕ)
  | [] => [(key, count)]
  | (k, n) :: entries =>
    if key < k then (key, count) :: (k, n) :: entries
    else if key = k then (k, n + count) :: entries
    else (k, n) :: insertCount key count entries

@[simp] theorem mem_keys_insertCount {key k : String} {count : ℕ} {entries : List (String × ℕ)} :
    k ∈ (insertCount key count entries).map Prod.fst ↔
      k = key ∨ k ∈ entries.map Prod.fst := by
  induction entries with
  | nil => simp [insertCount]
  | cons e entries ih =>
    rw [insertCount]
    split_ifs with hlt heq
    · simp
    · simp [heq]
    · rw [List.map_cons, List.mem_cons, ih, List.map_cons, List.mem_cons]
      tauto

theorem pairwise_insertCount {key : String} {count : ℕ} {entries : List (String × ℕ)}
    (h : (entries.map Prod.fst).Pairwise (· < ·)) :
    ((insertCount key count entries).map Prod.fst).Pairwise (· < ·) := by
  induction entries with
  | nil => exact List.pairwise_singleton _ _
  | cons e entries ih =>
    rw [List.map_cons, List.pairwise_cons] at h
    rw [insertCount]
    split_ifs with hlt heq
    · refine List.pairwise_cons.2 ⟨fun k hk => ?_, List.pairwise_cons.2 h⟩
      rcases List.mem_cons.1 hk with rfl | hk
      · exact hlt
      · exact hlt.trans (h.1 k hk)
    · exact List.pairwise_cons.2 h
    · refine List.pairwise_cons.2 ⟨fun k hk => ?_, ih h.2⟩
      rcases mem_keys_insertCount.1 hk with rfl | hk
      · exact lt_of_le_of_ne (not_lt.1 hlt) (Ne.symm heq)
      · exact h.1 k hk

/-- `*entry(key).or_default() += count`. -/
def addCount (m : BTreeMap ℕ) (key : String) (count : ℕ) : BTreeMap ℕ :=
  ⟨insertCount key count m.entries, pairwise_insertCount m.sorted⟩

/-- The sum of the counts whose keys satisfy a predicate. -/
def sumOf (p : String → Bool) (m : BTreeMap ℕ) : ℕ :=
  ((m.entries.filter fun e => p e.1).map Prod.snd).sum

@[simp] theorem sumOf_empty (p : String → Bool) : sumOf p empty = 0 := rfl

@[simp] theorem sumOf_addCount (p : String → Bool) (m : BTreeMap ℕ) (key : String) (count : ℕ) :
    sumOf p (m.addCount key count) = sumOf p m + if p key then count else 0 := by
  unfold sumOf addCount
  dsimp only
  generalize m.entries = entries
  induction entries with
  | nil => by_cases hp : p key <;> simp [insertCount, hp]
  | cons e entries ih =>
    rw [insertCount]
    split_ifs with hlt heq hp hp
    all_goals
      by_cases he : p e.1 <;> simp_all <;> omega

@[simp] theorem not_isEmpty_addCount (m : BTreeMap ℕ) (key : String) (count : ℕ) :
    (m.addCount key count).isEmpty = false := by
  have hmem : key ∈ (m.addCount key count).entries.map Prod.fst :=
    mem_keys_insertCount.2 (.inl rfl)
  rw [isEmpty, List.isEmpty_eq_false_iff]
  intro hnil
  rw [hnil] at hmem
  exact List.not_mem_nil hmem

end BTreeMap

/-! ### Names -/

/-- `str::strip_suffix`. -/
def stripSuffix (s suffix : List Char) : Option (List Char) :=
  if suffix.isSuffixOf s then some (s.take (s.length - suffix.length)) else none

/-- `unique_harness_suffix_match`: `suffix` is what `qualified` ends in after a `::`. -/
def uniqueHarnessSuffixMatch (qualified suffix : String) : Bool :=
  decide (suffix.utf8ByteSize < qualified.utf8ByteSize) &&
    (stripSuffix qualified.toList suffix.toList).any fun pre => "::".toList.isSuffixOf pre

/-- `harness_names_match`. -/
def harnessNamesMatch (a b : String) : Bool :=
  a == b || uniqueHarnessSuffixMatch a b || uniqueHarnessSuffixMatch b a

/-- `attributable_to_harness`: the key could name the harness, or names no other one. -/
def attributableToHarness (key harnessName : String) (harnessNames : List String) : Bool :=
  harnessNamesMatch key harnessName ||
    !harnessNames.any fun name => name != harnessName && harnessNamesMatch key name

/-! ### Look-ups -/

section Lookup

variable {α : Type}

/-- The best match so far with the length it agrees on, and whether another one is as long. -/
structure BestMatch (α : Type) where
  /-- `best_match`. -/
  best : Option (α × ℕ)
  /-- `best_is_ambiguous`. -/
  ambiguous : Bool

/-- One candidate. -/
def BestMatch.note (m : BestMatch α) (value : α) (suffixLen : ℕ) : BestMatch α :=
  match m.best with
  | none => ⟨some (value, suffixLen), false⟩
  | some (_, bestLen) =>
    if bestLen < suffixLen then ⟨some (value, suffixLen), false⟩
    else if suffixLen = bestLen then { m with ambiguous := true }
    else m

/-- `lookup_per_harness`. -/
def lookupPerHarness (perHarness : BTreeMap α) (harnessName : String) : Option α :=
  match perHarness.get harnessName with
  | some value => some value
  | none =>
    let found := (perHarness.entries.filter fun e =>
        uniqueHarnessSuffixMatch e.1 harnessName || uniqueHarnessSuffixMatch harnessName e.1).foldl
      (fun (m : BestMatch α) e => m.note e.2 (min e.1.utf8ByteSize harnessName.utf8ByteSize))
      ⟨none, false⟩
    if found.ambiguous then none else found.best.map Prod.fst

/-- What is noted as the best match is the value of an entry. -/
theorem exists_of_best {entries : List (String × α)} (len : String → ℕ) {m : BestMatch α}
    {value : α} {n : ℕ}
    (h : (entries.foldl (fun (m : BestMatch α) e => m.note e.2 (len e.1)) m).best =
      some (value, n)) :
    m.best = some (value, n) ∨ ∃ e ∈ entries, e.2 = value := by
  induction entries generalizing m with
  | nil => exact .inl h
  | cons e entries ih =>
    rw [List.foldl_cons] at h
    rcases ih h with hbest | ⟨e', he', hvalue⟩
    · unfold BestMatch.note at hbest
      split at hbest
      · simp only [Option.some.injEq, Prod.mk.injEq] at hbest
        exact .inr ⟨e, List.mem_cons_self, hbest.1⟩
      · split_ifs at hbest
        · simp only [Option.some.injEq, Prod.mk.injEq] at hbest
          exact .inr ⟨e, List.mem_cons_self, hbest.1⟩
        · exact .inl hbest
        · exact .inl hbest
    · exact .inr ⟨e', List.mem_cons_of_mem _ he', hvalue⟩

/-- A value that is looked up is that of a key naming the harness. -/
theorem lookupPerHarness_spec {perHarness : BTreeMap α} {harnessName : String} {value : α}
    (h : lookupPerHarness perHarness harnessName = some value) :
    ∃ e ∈ perHarness.entries, harnessNamesMatch e.1 harnessName = true ∧ e.2 = value := by
  unfold lookupPerHarness at h
  split at h
  · rename_i v hv
    obtain ⟨e, he, rfl⟩ := Option.map_eq_some_iff.1 hv
    obtain rfl := Option.some.inj h
    have hkey := List.find?_some he
    exact ⟨e, List.mem_of_find?_eq_some he, by simp [harnessNamesMatch, hkey], rfl⟩
  · dsimp only at h
    split_ifs at h
    obtain ⟨⟨v, n⟩, hbest, rfl⟩ := Option.map_eq_some_iff.1 h
    rcases exists_of_best (fun key => min key.utf8ByteSize harnessName.utf8ByteSize) hbest
      with hnone | ⟨e, he, hvalue⟩
    · cases hnone
    · obtain ⟨hmem, hmatch⟩ := List.mem_filter.1 he
      refine ⟨e, hmem, ?_, hvalue⟩
      rw [harnessNamesMatch, Bool.or_assoc, hmatch, Bool.or_true]

end Lookup

/-! ### Counts -/

/-- `resolve_per_harness_count`: the count of the key that is looked up. -/
def resolvePerHarnessCount (crateTotal : ℕ) (perHarness : BTreeMap ℕ) (harnessName : String) : ℕ :=
  if perHarness.isEmpty then crateTotal else (lookupPerHarness perHarness harnessName).getD 0

/-- `resolve_per_harness_count_fail_closed`: the sum over the keys that count against the
harness. -/
def resolvePerHarnessCountFailClosed (crateTotal : ℕ) (perHarness : BTreeMap ℕ)
    (harnessName : String) (harnessNames : List String) : ℕ :=
  if perHarness.isEmpty then crateTotal
  else
    ((perHarness.entries.filter fun e =>
      attributableToHarness e.1 harnessName harnessNames).map Prod.snd).sum

/-- A category counts against a harness: by an entry that is attributed to it, or by the crate's
total where there are no entries. -/
def Taints (crateTotal : ℕ) (perHarness : BTreeMap ℕ) (harnessName : String)
    (harnessNames : List String) : Prop :=
  if perHarness.isEmpty then crateTotal ≠ 0
  else ∃ e ∈ perHarness.entries,
    attributableToHarness e.1 harnessName harnessNames = true ∧ e.2 ≠ 0

variable {crateTotal : ℕ} {perHarness : BTreeMap ℕ} {harnessName : String}
  {harnessNames : List String}

/-- The fail-closed count is zero exactly where the category does not count. -/
theorem resolvePerHarnessCountFailClosed_pos_iff :
    0 < resolvePerHarnessCountFailClosed crateTotal perHarness harnessName harnessNames ↔
      Taints crateTotal perHarness harnessName harnessNames := by
  unfold resolvePerHarnessCountFailClosed Taints
  split_ifs
  · exact Nat.pos_iff_ne_zero
  · rw [List.sum_pos_iff_exists_pos_nat]
    simp only [List.mem_map, List.mem_filter]
    constructor
    · rintro ⟨n, ⟨e, ⟨he, hattr⟩, rfl⟩, hn⟩
      exact ⟨e, he, hattr, Nat.pos_iff_ne_zero.1 hn⟩
    · rintro ⟨e, he, hattr, hn⟩
      exact ⟨e.2, ⟨e, ⟨he, hattr⟩, rfl⟩, Nat.pos_of_ne_zero hn⟩

/-- A key that names the harness counts against it. -/
theorem attributableToHarness_of_match {key : String}
    (h : harnessNamesMatch key harnessName = true) :
    attributableToHarness key harnessName harnessNames = true := by
  rw [attributableToHarness, h, Bool.true_or]

end Verdict

end TrustMc
