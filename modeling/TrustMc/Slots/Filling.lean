import Mathlib.Data.List.Forall2
import Mathlib.Data.Nat.Notation

/-!
# Filling slots

A row of slots is filled with arguments and pads when the arguments stand in it in their order,
each in a slot that it fits, and every other slot holds the pad of its position (`Fills`).

* `greedy` gives every argument the first slot that it fits after the slots of the arguments
  before it, and stops with what is left when the slots run out.
* Arguments that fit a subsequence of the slots are all placed (`greedy_complete`), and what is
  placed fills the slots (`greedy_fills`).
* When something is left over, more arguments change nothing (`greedy_append`).
-/

namespace Slots

variable {α β : Type}

section Filling

variable (fits : α → β → Prop) (pad : ℕ → β → α)

/-- The slots from the `k`-th on hold the arguments in order, each where it fits, and pads. -/
inductive Fills : ℕ → List β → List α → List α → Prop
  | nil {k : ℕ} : Fills k [] [] []
  | keep {k : ℕ} {s : β} {a : α} {slots : List β} {args out : List α} (h : fits a s)
      (t : Fills (k + 1) slots args out) : Fills k (s :: slots) (a :: args) (a :: out)
  | pad {k : ℕ} {s : β} {slots : List β} {args out : List α}
      (t : Fills (k + 1) slots args out) : Fills k (s :: slots) args (pad k s :: out)

/-- The arguments fit some of the slots, in order. -/
def Fit (args : List α) (slots : List β) : Prop :=
  ∃ sub, sub.Sublist slots ∧ List.Forall₂ fits args sub

end Filling

variable {fits : α → β → Prop} {pad : ℕ → β → α}

theorem fit_of_cons {a : α} {s : β} {args : List α} {slots : List β}
    (h : Fit fits (a :: args) (s :: slots)) : Fit fits args slots := by
  obtain ⟨sub, hsub, hfit⟩ := h
  cases hfit with
  | cons ha hfit =>
    refine ⟨_, ?_, hfit⟩
    exact List.Sublist.of_cons_cons hsub

theorem fit_of_not {a : α} {s : β} {args : List α} {slots : List β}
    (h : Fit fits (a :: args) (s :: slots)) (ha : ¬ fits a s) : Fit fits (a :: args) slots := by
  obtain ⟨sub, hsub, hfit⟩ := h
  cases hfit with
  | cons ha' hfit =>
    cases hsub with
    | cons _ hsub => exact ⟨_, hsub, .cons ha' hfit⟩
    | cons_cons _ hsub => exact absurd ha' ha

theorem fit_length_le {args : List α} {slots : List β} (h : Fit fits args slots) :
    args.length ≤ slots.length := by
  obtain ⟨sub, hsub, hfit⟩ := h
  exact hfit.length_eq ▸ hsub.length_le

/-- As many arguments as slots that fit fill them all. -/
theorem forall₂_of_fit {args : List α} {slots : List β} (h : Fit fits args slots)
    (hlen : slots.length ≤ args.length) : List.Forall₂ fits args slots := by
  obtain ⟨sub, hsub, hfit⟩ := h
  obtain rfl := hsub.eq_of_length_le (hfit.length_eq ▸ hlen)
  exact hfit

theorem fit_nil (slots : List β) : Fit fits [] slots := ⟨[], List.nil_sublist _, .nil⟩

namespace Fills

variable {k : ℕ} {slots : List β} {args out : List α}

theorem length_eq (h : Fills fits pad k slots args out) : out.length = slots.length := by
  induction h with
  | nil => rfl
  | keep _ _ ih => simp [ih]
  | pad _ ih => simp [ih]

/-- Everything in the row fits its slot, when pads do. -/
theorem forall₂ (hpad : ∀ k s, fits (pad k s) s) (h : Fills fits pad k slots args out) :
    List.Forall₂ fits out slots := by
  induction h with
  | nil => exact .nil
  | keep ha _ ih => exact .cons ha ih
  | pad _ ih => exact .cons (hpad _ _) ih

/-- A slot holds an argument or its pad. -/
theorem mem_or_pad (h : Fills fits pad k slots args out) {i : ℕ} {x : α} (hx : out[i]? = some x) :
    x ∈ args ∨ ∃ s, slots[i]? = some s ∧ x = pad (k + i) s := by
  induction h generalizing i with
  | nil => simp at hx
  | keep _ _ ih =>
    cases i with
    | zero =>
      obtain rfl := Option.some.inj hx
      exact Or.inl List.mem_cons_self
    | succ i =>
      refine (ih hx).imp (List.mem_cons_of_mem _) ?_
      rintro ⟨s, hs, rfl⟩
      exact ⟨s, hs, by rw [Nat.add_assoc, Nat.add_comm 1]⟩
  | pad _ ih =>
    cases i with
    | zero =>
      obtain rfl := Option.some.inj hx
      exact Or.inr ⟨_, rfl, rfl⟩
    | succ i =>
      refine (ih hx).imp_right ?_
      rintro ⟨s, hs, rfl⟩
      exact ⟨s, hs, by rw [Nat.add_assoc, Nat.add_comm 1]⟩

/-- Arguments that fit all the slots fill them without a pad. -/
theorem self (h : List.Forall₂ fits args slots) : Fills fits pad k slots args args := by
  induction h generalizing k with
  | nil => exact .nil
  | cons ha _ ih => exact .keep ha ih

/-- Slots that carry more than the pads look at. -/
theorem map {γ : Type} {f : γ → β} {slots : List γ} {fits' : α → γ → Prop}
    (h : Fills fits' (fun k s => pad k (f s)) k slots args out)
    (hfits : ∀ a ∈ args, ∀ s ∈ slots, fits' a s → fits a (f s)) :
    Fills fits pad k (slots.map f) args out := by
  induction h with
  | nil => exact .nil
  | keep ha _ ih =>
    refine .keep (hfits _ List.mem_cons_self _ List.mem_cons_self ha) (ih fun a h s hs => ?_)
    exact hfits a (List.mem_cons_of_mem _ h) s (List.mem_cons_of_mem _ hs)
  | pad _ ih => exact .pad (ih fun a h s hs => hfits a h s (List.mem_cons_of_mem _ hs))

end Fills

/-! ### The greedy filling -/

section Greedy

variable (fits pad) [DecidableRel fits]

/-- The first slot that fits for every argument in turn: the row, the arguments left over, and
whether a pad was put in. -/
def greedy : ℕ → List β → List α → List α × List α × Bool
  | _, [], args => ([], args, false)
  | k, s :: slots, [] =>
    let (out, left, _) := greedy (k + 1) slots []
    (pad k s :: out, left, true)
  | k, s :: slots, a :: args =>
    if fits a s then
      let (out, left, inserted) := greedy (k + 1) slots args
      (a :: out, left, inserted)
    else
      let (out, left, _) := greedy (k + 1) slots (a :: args)
      (pad k s :: out, left, true)

variable {fits pad} {k : ℕ} {slots : List β} {args : List α}

/-- What is placed fills the slots. -/
theorem greedy_fills (k : ℕ) (slots : List β) (args : List α) :
    ∃ used, args = used ++ (greedy fits pad k slots args).2.1 ∧
      Fills fits pad k slots used (greedy fits pad k slots args).1 := by
  induction slots generalizing k args with
  | nil => exact ⟨[], rfl, .nil⟩
  | cons s slots ih =>
    cases args with
    | nil =>
      obtain ⟨used, hused, hfills⟩ := ih (k + 1) []
      rw [greedy]
      exact ⟨used, hused, .pad hfills⟩
    | cons a args =>
      rw [greedy]
      split_ifs with ha
      · obtain ⟨used, hused, hfills⟩ := ih (k + 1) args
        exact ⟨a :: used, congrArg (a :: ·) hused, .keep ha hfills⟩
      · obtain ⟨used, hused, hfills⟩ := ih (k + 1) (a :: args)
        exact ⟨used, hused, .pad hfills⟩

/-- **Completeness**: arguments that fit some of the slots in order are all placed. -/
theorem greedy_complete (h : Fit fits args slots) : (greedy fits pad k slots args).2.1 = [] := by
  induction slots generalizing k args with
  | nil =>
    obtain ⟨sub, hsub, hfit⟩ := h
    obtain rfl := List.sublist_nil.1 hsub
    cases hfit
    rfl
  | cons s slots ih =>
    cases args with
    | nil =>
      rw [greedy]
      exact ih (fit_nil slots)
    | cons a args =>
      rw [greedy]
      split_ifs with ha
      · exact ih (fit_of_cons h)
      · exact ih (fit_of_not h ha)

/-- A pad is put in when the arguments are too few. -/
theorem inserted_of_length_lt (h : args.length < slots.length) :
    (greedy fits pad k slots args).2.2 = true := by
  induction slots generalizing k args with
  | nil => simp at h
  | cons s slots ih =>
    cases args with
    | nil => rfl
    | cons a args =>
      rw [greedy]
      split_ifs with ha
      · exact ih (by simpa using h)
      · rfl

/-- When something is left over, more arguments are left over too. -/
theorem greedy_append {more : List α} (h : (greedy fits pad k slots args).2.1 ≠ []) :
    (greedy fits pad k slots (args ++ more)).1 = (greedy fits pad k slots args).1 ∧
      (greedy fits pad k slots (args ++ more)).2.1 =
        (greedy fits pad k slots args).2.1 ++ more := by
  induction slots generalizing k args with
  | nil => exact ⟨rfl, rfl⟩
  | cons s slots ih =>
    cases args with
    | nil =>
      rw [greedy] at h
      exact absurd (greedy_complete (fit_nil slots)) h
    | cons a args =>
      rw [greedy] at h ⊢
      rw [List.cons_append, greedy]
      split_ifs at h ⊢ with ha
      · obtain ⟨hout, hleft⟩ := ih h
        exact ⟨congrArg (a :: ·) hout, hleft⟩
      · obtain ⟨hout, hleft⟩ := ih h
        rw [List.cons_append] at hout hleft
        exact ⟨congrArg (pad k s :: ·) hout, hleft⟩

end Greedy

end Slots
