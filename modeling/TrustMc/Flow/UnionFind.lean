import Mathlib.Data.Finset.Card
import Mathlib.Data.Finset.Range
import Mathlib.Logic.Function.Basic
import Mathlib.Logic.Relation

/-!
# Union-find forests

A table of parents in which every vertex leads to its root, along increasing ranks (`Forest`).
Halving a path keeps the roots (`Forest.halve`), and linking two roots joins their classes
(`Forest.link`, `linkRoots_eq_iff`). The search for a root with halved paths ends within as many
rounds as there are vertices (`findRoot_spec`).
-/

namespace Flow

open Function Relation

variable {n : ℕ} {parent root : ℕ → ℕ}

/-- Following the parents leads to the root. -/
structure Forest (n : ℕ) (parent root : ℕ → ℕ) : Prop where
  parent_lt : ∀ x < n, parent x < n
  root_lt : ∀ x < n, root x < n
  root_parent : ∀ x, root (parent x) = root x
  root_of_fixed : ∀ x, parent x = x → root x = x
  parent_root : ∀ x, parent (root x) = root x
  ranked : ∃ rank : ℕ → ℕ, ∀ x, parent x ≠ x → rank x < rank (parent x)

theorem forest_id (n : ℕ) : Forest n id id :=
  ⟨fun _ hx => hx, fun _ hx => hx, fun _ => rfl, fun _ _ => rfl, fun _ => rfl, id,
    fun _ hx => absurd rfl hx⟩

/-! ### Halving -/

/-- A vertex is lower than its parent. -/
def Ranked (rank parent : ℕ → ℕ) : Prop := ∀ x, parent x ≠ x → rank x < rank (parent x)

theorem Ranked.lt_halved {rank : ℕ → ℕ} (h : Ranked rank parent) {x : ℕ} (hx : parent x ≠ x) :
    rank x < rank (parent (parent x)) := by
  by_cases hp : parent (parent x) = parent x
  · rw [hp]
    exact h x hx
  · exact (h x hx).trans (h _ hp)

theorem Ranked.halve {rank : ℕ → ℕ} (h : Ranked rank parent) {x : ℕ} (hx : parent x ≠ x) :
    Ranked rank (update parent x (parent (parent x))) := by
  intro y hy
  by_cases hyx : y = x
  · subst hyx
    rw [update_self]
    exact h.lt_halved hx
  · rw [update_of_ne hyx] at hy ⊢
    exact h y hy

/-- A vertex may be led past its parent. -/
theorem Forest.halve (h : Forest n parent root) {x : ℕ} (hx : parent x ≠ x) :
    Forest n (update parent x (parent (parent x))) root := by
  obtain ⟨rank, hrank⟩ := h.ranked
  refine ⟨fun y hy => ?_, h.root_lt, fun y => ?_, fun y hy => ?_, fun y => ?_, rank,
    Ranked.halve hrank hx⟩
  · rw [update_apply]
    split_ifs with hyx
    · exact h.parent_lt _ (h.parent_lt _ (hyx ▸ hy))
    · exact h.parent_lt y hy
  · rw [update_apply]
    split_ifs with hyx
    · rw [h.root_parent, h.root_parent, hyx]
    · exact h.root_parent y
  · by_cases hyx : y = x
    · -- the parent's parent is higher than the vertex
      subst hyx
      rw [update_self] at hy
      have hlt := Ranked.lt_halved hrank hx
      rw [hy] at hlt
      exact absurd hlt (lt_irrefl _)
    · rw [update_of_ne hyx] at hy
      exact h.root_of_fixed y hy
  · have hne : root y ≠ x := fun heq => hx (heq ▸ h.parent_root y)
    rw [update_of_ne hne]
    exact h.parent_root y

/-! ### Finding -/

/-- The root of a vertex, with the path halved on the way. -/
def findRoot : ℕ → (ℕ → ℕ) → ℕ → (ℕ → ℕ) × ℕ
  | 0, parent, x => (parent, x)
  | fuel + 1, parent, x =>
    if parent x = x then (parent, x)
    else
      let parent := update parent x (parent (parent x))
      findRoot fuel parent (parent x)

/-- The number of vertices higher than `x`. -/
def higher (n : ℕ) (rank : ℕ → ℕ) (x : ℕ) : ℕ := ((Finset.range n).filter (rank x < rank ·)).card

theorem higher_le (n : ℕ) (rank : ℕ → ℕ) (x : ℕ) : higher n rank x ≤ n :=
  (Finset.card_filter_le _ _).trans (Finset.card_range n).le

theorem higher_lt {rank : ℕ → ℕ} {x y : ℕ} (hy : y < n) (h : rank x < rank y) :
    higher n rank y < higher n rank x := by
  refine Finset.card_lt_card (Finset.ssubset_iff_of_subset (fun z hz => ?_) |>.2 ⟨y, ?_, ?_⟩)
  · rw [Finset.mem_filter] at hz ⊢
    exact ⟨hz.1, h.trans hz.2⟩
  · rw [Finset.mem_filter, Finset.mem_range]
    exact ⟨hy, h⟩
  · simp

/-- The search with enough rounds: by induction on the rounds, each of which ends higher. -/
theorem findRoot_of_rank {rank : ℕ → ℕ} {fuel x : ℕ} (h : Forest n parent root)
    (hrank : Ranked rank parent) (hx : x < n) (hfuel : higher n rank x ≤ fuel) :
    Forest n (findRoot fuel parent x).1 root ∧ (findRoot fuel parent x).2 = root x := by
  induction fuel generalizing parent x with
  | zero =>
    -- nothing is higher than a root
    have hfixed : parent x = x := by
      by_contra hne
      have hlt := higher_lt (h.parent_lt x hx) (hrank x hne)
      omega
    exact ⟨h, (h.root_of_fixed x hfixed).symm⟩
  | succ fuel ih =>
    rw [findRoot]
    split_ifs with hfixed
    · exact ⟨h, (h.root_of_fixed x hfixed).symm⟩
    · have hlt := higher_lt (h.parent_lt _ (h.parent_lt x hx)) (hrank.lt_halved hfixed)
      have hnext := ih (x := parent (parent x)) (h.halve hfixed) (hrank.halve hfixed)
        (h.parent_lt _ (h.parent_lt x hx)) (by omega)
      rw [h.root_parent, h.root_parent] at hnext
      simpa only [update_self] using hnext

/-- **The root is found** in as many rounds as there are vertices. -/
theorem findRoot_spec (h : Forest n parent root) {x : ℕ} (hx : x < n) :
    Forest n (findRoot n parent x).1 root ∧ (findRoot n parent x).2 = root x := by
  obtain ⟨rank, hrank⟩ := h.ranked
  exact findRoot_of_rank h hrank hx (higher_le n rank x)

/-! ### Linking -/

/-- The roots after `a` was led to `b`. -/
def linkRoots (root : ℕ → ℕ) (a b x : ℕ) : ℕ := if root x = a then b else root x

theorem Forest.link (h : Forest n parent root) {a b : ℕ} (ha : parent a = a) (hb : parent b = b)
    (hab : a ≠ b) (hbn : b < n) : Forest n (update parent a b) (linkRoots root a b) := by
  have hra := h.root_of_fixed a ha
  have hrb := h.root_of_fixed b hb
  obtain ⟨rank, hrank⟩ := h.ranked
  refine ⟨fun x hx => ?_, fun x hx => ?_, fun x => ?_, fun x hx => ?_, fun x => ?_,
    fun x => if root x = b then rank x + rank a + 1 else rank x, fun x hx => ?_⟩
  · rw [update_apply]
    split_ifs
    · exact hbn
    · exact h.parent_lt x hx
  · rw [linkRoots]
    split_ifs
    · exact hbn
    · exact h.root_lt x hx
  · by_cases hxa : x = a
    · subst hxa
      rw [update_self, linkRoots, linkRoots, hra, hrb, if_pos rfl, if_neg hab.symm]
    · rw [update_of_ne hxa, linkRoots, linkRoots, h.root_parent]
  · by_cases hxa : x = a
    · subst hxa
      rw [update_self] at hx
      exact absurd hx.symm hab
    · rw [update_of_ne hxa] at hx
      rw [linkRoots, h.root_of_fixed x hx, if_neg hxa]
  · rw [linkRoots]
    split_ifs with hxa
    · rw [update_of_ne hab.symm, hb]
    · rw [update_of_ne hxa, h.parent_root]
  · -- the class of `b` is lifted above `a`
    by_cases hxa : x = a
    · subst hxa
      rw [update_self]
      dsimp only
      rw [hra, hrb, if_neg hab, if_pos rfl]
      omega
    · rw [update_of_ne hxa] at hx ⊢
      have hlt := hrank x hx
      dsimp only
      rw [h.root_parent]
      split_ifs
      · omega
      · exact hlt

theorem linkRoots_self (root : ℕ → ℕ) (a : ℕ) : linkRoots root a a = root := by
  funext x
  rw [linkRoots]
  split_ifs with h
  · exact h.symm
  · rfl

/-- Linking two roots joins their classes. -/
theorem linkRoots_eq_iff {R : ℕ → ℕ → Prop} (hR : ∀ x y, root x = root y ↔ EqvGen R x y)
    (i j x y : ℕ) :
    linkRoots root (root i) (root j) x = linkRoots root (root i) (root j) y ↔
      EqvGen (fun x y => R x y ∨ x = i ∧ y = j) x y := by
  have hmono : ∀ {x y}, root x = root y → EqvGen (fun x y => R x y ∨ x = i ∧ y = j) x y :=
    fun h => ((hR _ _).1 h).mono fun _ _ => .inl
  have hnew : EqvGen (fun x y => R x y ∨ x = i ∧ y = j) i j := .rel _ _ (.inr ⟨rfl, rfl⟩)
  constructor
  · intro h
    rw [linkRoots, linkRoots] at h
    split_ifs at h with hx hy hy
    · exact hmono (hx.trans hy.symm)
    · exact (hmono hx).trans _ _ _ (hnew.trans _ _ _ (hmono h))
    · exact (hmono h).trans _ _ _ (hnew.symm.trans _ _ _ (hmono hy.symm))
    · exact hmono h
  · intro h
    induction h with
    | rel x y hxy =>
      rcases hxy with hxy | ⟨rfl, rfl⟩
      · rw [linkRoots, linkRoots, (hR x y).2 (.rel x y hxy)]
      · rw [linkRoots, linkRoots, if_pos rfl]
        split_ifs <;> rfl
    | refl x => rfl
    | symm x y _ ih => exact ih.symm
    | trans x y z _ _ ihxy ihyz => exact ihxy.trans ihyz

end Flow
