import Mathlib.Order.Basic

/-!
# Iteration until nothing changes

`untilStable f n a` applies `f` to `a` until a round leaves it unchanged, in at most `n`
rounds.

* `untilStable_induction`: what `f` preserves holds of the result.
* `untilStable_stable`: when every change decreases a measure, as many rounds as the measure
  of the start reach a fixed point.
* `untilStable_stable_of_grows`: rounds that append missing candidates to a list reach a fixed
  point after as many rounds as there are candidates.
-/

namespace Budget

variable {α : Type} {f : α → α}

/-! ### Rounds -/

section Rounds

variable [DecidableEq α]

/-- Applies `f` until nothing changes, at most `n` times. -/
def untilStable (f : α → α) : ℕ → α → α
  | 0, a => a
  | n + 1, a => if f a = a then a else untilStable f n (f a)

/-- What every application preserves holds of the result. -/
theorem untilStable_induction {P : α → Prop} (hstep : ∀ a, P a → P (f a)) {n : ℕ} {a : α}
    (h : P a) : P (untilStable f n a) := by
  induction n generalizing a with
  | zero => exact h
  | succ n ih =>
    unfold untilStable
    split
    · exact h
    · exact ih (hstep a h)

/-- When every change decreases a measure, the measure of the start bounds the rounds. -/
theorem untilStable_stable {P : α → Prop} (hstep : ∀ a, P a → P (f a)) (measure : α → ℕ)
    (hdec : ∀ a, P a → f a ≠ a → measure (f a) < measure a) {n : ℕ} {a : α} (h : P a)
    (hn : measure a ≤ n) : f (untilStable f n a) = untilStable f n a := by
  induction n generalizing a with
  | zero =>
    by_contra hne
    have hlt := hdec a h hne
    omega
  | succ n ih =>
    unfold untilStable
    split
    · assumption
    · have hlt := hdec a h ‹_›
      exact ih (hstep a h) (by omega)

end Rounds

/-! ### Growing lists -/

section Grows

variable {candidates a a' a'' : List α}

/-- `a'` is `a` with some missing candidates appended. -/
def Grows (candidates a a' : List α) : Prop :=
  ∃ new, a' = a ++ new ∧ ∀ x ∈ new, x ∈ candidates ∧ x ∉ a

theorem Grows.refl (candidates a : List α) : Grows candidates a a := ⟨[], by simp, by simp⟩

theorem Grows.trans (h : Grows candidates a a') (h' : Grows candidates a' a'') :
    Grows candidates a a'' := by
  obtain ⟨new, rfl, hnew⟩ := h
  obtain ⟨new', rfl, hnew'⟩ := h'
  refine ⟨new ++ new', by simp, fun x hx => ?_⟩
  rcases List.mem_append.1 hx with hx | hx
  · exact hnew x hx
  · exact ⟨(hnew' x hx).1, fun hm => (hnew' x hx).2 (List.mem_append_left _ hm)⟩

/-- Appending one missing candidate. -/
theorem Grows.insert {x : α} (hx : x ∈ candidates) (ha : x ∉ a) :
    Grows candidates a (a ++ [x]) :=
  ⟨[x], rfl, by simpa using ⟨hx, ha⟩⟩

theorem Grows.subset (h : Grows candidates a a') : a ⊆ a' := by
  obtain ⟨new, rfl, -⟩ := h
  exact List.subset_append_left a new

/-- A loop of steps that append missing candidates. -/
theorem Grows.foldl {β : Type} {g : List α → β → List α} {steps : List β}
    (h : ∀ b ∈ steps, ∀ a, Grows candidates a (g a b)) (a : List α) :
    Grows candidates a (steps.foldl g a) := by
  induction steps generalizing a with
  | nil => exact .refl _ _
  | cons b steps ih =>
    rw [List.foldl_cons]
    exact (h b List.mem_cons_self a).trans
      (ih (fun b hb => h b (List.mem_cons_of_mem _ hb)) (g a b))

/-- A loop that appends nothing appends nothing at any step. -/
theorem Grows.foldl_eq_self {β : Type} {g : List α → β → List α} {steps : List β}
    (h : ∀ b ∈ steps, ∀ a, Grows candidates a (g a b)) (hfix : steps.foldl g a = a) {b : β}
    (hb : b ∈ steps) : g a b = a := by
  induction steps with
  | nil => simp at hb
  | cons b' steps ih =>
    rw [List.foldl_cons] at hfix
    have hsteps := fun b hb => h b (List.mem_cons_of_mem b' hb)
    have hstep : g a b' = a := by
      obtain ⟨new, hnew, -⟩ := h b' List.mem_cons_self a
      obtain ⟨new', hnew', -⟩ := Grows.foldl hsteps (g a b')
      rw [hfix, hnew, List.append_assoc] at hnew'
      have hnil := List.append_eq_nil_iff.1 (List.self_eq_append_right.1 hnew')
      rw [hnew, hnil.1, List.append_nil]
    rcases List.mem_cons.1 hb with rfl | hb
    · exact hstep
    · rw [hstep] at hfix
      exact ih hsteps hfix hb

variable [DecidableEq α]

/-- The number of candidates that are missing. -/
def missing (candidates a : List α) : ℕ := (candidates.filter (· ∉ a)).length

/-- A list that changes has fewer candidates missing. -/
theorem Grows.missing_lt (h : Grows candidates a a') (hne : a' ≠ a) :
    missing candidates a' < missing candidates a := by
  obtain ⟨new, rfl, hnew⟩ := h
  cases new with
  | nil => simp at hne
  | cons x new =>
    have hsub : candidates.filter (· ∉ a ++ x :: new) =
        (candidates.filter (· ∉ a)).filter (· ∉ x :: new) := by
      rw [List.filter_filter]
      refine List.filter_congr fun y _ => ?_
      simp [List.mem_append, Bool.and_comm]
    have hx := hnew x List.mem_cons_self
    unfold missing
    rw [hsub]
    refine List.length_filter_lt_length_iff_exists.2 ⟨x, ?_, by simp⟩
    simpa using hx

/-- Rounds that append missing candidates reach a fixed point. -/
theorem untilStable_stable_of_grows {g : List α → List α} (h : ∀ a, Grows candidates a (g a))
    {n : ℕ} (hn : candidates.length ≤ n) (a : List α) :
    g (untilStable g n a) = untilStable g n a :=
  untilStable_stable (P := fun _ => True) (fun _ _ => trivial) (missing candidates)
    (fun a _ hne => (h a).missing_lt hne) trivial
    (Nat.le_trans (List.length_filter_le _ _) hn)

/-- The rounds keep what was there. -/
theorem subset_untilStable {g : List α → List α} (h : ∀ a, Grows candidates a (g a)) (n : ℕ)
    (a : List α) : a ⊆ untilStable g n a :=
  untilStable_induction (P := fun a' => a ⊆ a') (fun _ ha' => List.Subset.trans ha' (h _).subset)
    (List.Subset.refl a)

end Grows

end Budget
