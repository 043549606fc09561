import TrustMc.Budget.Fixpoint
import Mathlib.Data.List.Basic

/-!
# The steps of a loop

A round of a loop folds a step over a list; `untilStable` repeats rounds until one changes
nothing.

* `foldSteps`, `roundSteps`: the steps of one round and of all rounds, each with the state it
  is made in. What every one of these steps preserves holds at the end
  (`foldl_of_foldSteps`, `untilStable_of_roundSteps`).
* `untilStable_stable_of_spends`: when a step that changes the state spends the item it looks
  at, and spent items stay spent, as many rounds as there are items reach a fixed point.
-/

namespace Budget

variable {α β : Type} {g : α → β → α} {bs : List β} {a : α}

/-! ### What steps preserve -/

/-- The steps of a fold, each with the state it is made in. -/
def foldSteps (g : α → β → α) : List β → α → List (α × β)
  | [], _ => []
  | b :: bs, a => (a, b) :: foldSteps g bs (g a b)

theorem foldl_of_foldSteps {P : α → Prop} (hstep : ∀ p ∈ foldSteps g bs a, P p.1 → P (g p.1 p.2))
    (h : P a) : P (bs.foldl g a) := by
  induction bs generalizing a with
  | nil => exact h
  | cons b bs ih =>
    rw [foldSteps, List.forall_mem_cons] at hstep
    exact ih hstep.2 (hstep.1 h)

/-- A step looks at an item of the list. -/
theorem mem_of_mem_foldSteps {p : α × β} (h : p ∈ foldSteps g bs a) : p.2 ∈ bs := by
  induction bs generalizing a with
  | nil => cases h
  | cons b bs ih =>
    rw [foldSteps, List.mem_cons] at h
    rcases h with rfl | h
    · exact List.mem_cons_self
    · exact List.mem_cons_of_mem b (ih h)

section Rounds

variable [DecidableEq α]

/-- The steps of at most `n` rounds, the last of which changes nothing. -/
def roundSteps (g : α → β → α) (bs : List β) : ℕ → α → List (α × β)
  | 0, _ => []
  | n + 1, a =>
    foldSteps g bs a ++ if bs.foldl g a = a then [] else roundSteps g bs n (bs.foldl g a)

theorem untilStable_of_roundSteps {P : α → Prop} {n : ℕ}
    (hstep : ∀ p ∈ roundSteps g bs n a, P p.1 → P (g p.1 p.2)) (h : P a) :
    P (untilStable (fun a => bs.foldl g a) n a) := by
  induction n generalizing a with
  | zero => exact h
  | succ n ih =>
    rw [roundSteps, List.forall_mem_append] at hstep
    rw [untilStable]
    split_ifs with hfix
    · exact h
    · rw [if_neg hfix] at hstep
      exact ih hstep.2 (foldl_of_foldSteps hstep.1 h)

theorem mem_of_mem_roundSteps {n : ℕ} {p : α × β} (h : p ∈ roundSteps g bs n a) : p.2 ∈ bs := by
  induction n generalizing a with
  | zero => cases h
  | succ n ih =>
    rw [roundSteps, List.mem_append] at h
    rcases h with h | h
    · exact mem_of_mem_foldSteps h
    · split_ifs at h
      · cases h
      · exact ih h

end Rounds

/-! ### Termination -/

section Spends

variable {spent : α → β → Bool}

/-- The number of items that are not spent. -/
def unspent (spent : α → β → Bool) (bs : List β) (a : α) : ℕ := (bs.filter (!spent a ·)).length

theorem unspent_le {a a' : α} (h : ∀ b, spent a b = true → spent a' b = true) (bs : List β) :
    unspent spent bs a' ≤ unspent spent bs a := by
  refine (List.monotone_filter_right bs fun b hb => ?_).length_le
  simp only [Bool.not_eq_true'] at hb ⊢
  exact Bool.eq_false_iff.2 fun hs => by simp [h b hs] at hb

theorem unspent_lt {a a' : α} (h : ∀ b, spent a b = true → spent a' b = true) {b : β}
    (hb : b ∈ bs) (ha : spent a b = false) (ha' : spent a' b = true) :
    unspent spent bs a' < unspent spent bs a := by
  induction bs with
  | nil => cases hb
  | cons c bs ih =>
    have hle := unspent_le h bs
    simp only [unspent] at ih hle ⊢
    rcases List.mem_cons.1 hb with rfl | hb
    · simp only [List.filter_cons, ha, ha', Bool.not_true, Bool.not_false, if_true,
        Bool.false_eq_true, if_false, List.length_cons]
      omega
    · have hlt := ih hb
      cases hc : spent a c with
      | true => simpa [List.filter_cons, hc, h c hc] using hlt
      | false =>
        cases hc' : spent a' c <;> simp [hc, hc'] <;> omega

variable (hkeep : ∀ a b c, spent a c = true → spent (g a b) c = true)
  (hspend : ∀ a, ∀ b ∈ bs, g a b ≠ a → spent a b = false ∧ spent (g a b) b = true)
include hkeep

/-- A fold spends no fewer items than it found spent. -/
theorem spent_foldl (bs : List β) (a : α) {c : β} (hc : spent a c = true) :
    spent (bs.foldl g a) c = true := by
  induction bs generalizing a with
  | nil => exact hc
  | cons b bs ih => exact ih _ (hkeep a b c hc)

include hspend

/-- A round that changes the state leaves fewer items unspent. -/
theorem unspent_foldl_lt {cs : List β} (hcs : cs ⊆ bs) {a : α} (hne : cs.foldl g a ≠ a) :
    unspent spent bs (cs.foldl g a) < unspent spent bs a := by
  induction cs generalizing a with
  | nil => exact absurd rfl hne
  | cons c cs ih =>
    have hsub := List.cons_subset.1 hcs
    rw [List.foldl_cons] at hne ⊢
    by_cases hstep : g a c = a
    · rw [hstep] at hne ⊢
      exact ih hsub.2 hne
    · -- the step spends its item, and the rest of the round spends no fewer
      obtain ⟨hfree, hspent⟩ := hspend a c hsub.1 hstep
      have hle := unspent_le (fun b hb => spent_foldl hkeep cs (g a c) hb) bs
      have hlt := unspent_lt (hkeep a c) hsub.1 hfree hspent
      omega

variable (spent) in
/-- **As many rounds as there are items reach a fixed point.** -/
theorem untilStable_stable_of_spends [DecidableEq α] {n : ℕ} (hn : bs.length ≤ n) (a : α) :
    bs.foldl g (untilStable (fun a => bs.foldl g a) n a) =
      untilStable (fun a => bs.foldl g a) n a :=
  untilStable_stable (P := fun _ => True) (fun _ _ => trivial) (unspent spent bs)
    (fun _ _ hne => unspent_foldl_lt hkeep hspend (List.Subset.refl bs) hne) trivial
    (Nat.le_trans (List.length_filter_le _ _) hn)

end Spends

end Budget
