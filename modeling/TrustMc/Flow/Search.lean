import Mathlib.Data.List.Basic
import Mathlib.Data.Nat.Basic
import Mathlib.Logic.Function.Basic

/-!
# Marking searches

A search of a graph on `0, …, n - 1` keeps a table of marks and a worklist: the unmarked
successors of the vertex taken from the worklist are marked and added to it by `enq`, which may
add at either end or leave some vertices out (`keep`).

* `unmarked_update`: marking a new vertex uses up one of the unmarked ones, so that a search
  ends within `n` rounds.
* `search_sound`, `search_closed`: what is marked at the end was reached, and is closed under
  successors.
-/

namespace Flow

/-- The number of vertices below `n` without a mark. -/
def unmarked (n : ℕ) (mark : ℕ → Bool) : ℕ := (List.range n).countP fun v => !mark v

theorem unmarked_le (n : ℕ) (mark : ℕ → Bool) : unmarked n mark ≤ n := by
  have := List.countP_le_length (p := fun v => !mark v) (l := List.range n)
  simpa [unmarked] using this

/-- Marking a new vertex. -/
theorem unmarked_update {n w : ℕ} {mark : ℕ → Bool} (hw : w < n) (h : mark w = false) :
    unmarked n (Function.update mark w true) + 1 = unmarked n mark := by
  induction n with
  | zero => omega
  | succ n ih =>
    have hsplit : ∀ m : ℕ → Bool, unmarked (n + 1) m = unmarked n m + (!m n).toNat := fun m => by
      cases hm : m n <;> simp [unmarked, List.range_succ, hm]
    rw [hsplit, hsplit]
    by_cases hwn : w = n
    · subst hwn
      have hsame : unmarked w (Function.update mark w true) = unmarked w mark := by
        refine List.countP_congr fun v hv => ?_
        have hne : v ≠ w := Nat.ne_of_lt (List.mem_range.1 hv)
        simp [Function.update_of_ne hne]
      simp [hsame, h]
    · have := ih (by omega)
      rw [Function.update_of_ne (Ne.symm hwn)]
      omega

section Search

variable (enq : List ℕ → ℕ → List ℕ) (next : ℕ → List ℕ)

/-- Mark the unmarked vertices of a list and add them to the worklist. -/
def push (mark : ℕ → Bool) (work : List ℕ) : List ℕ → (ℕ → Bool) × List ℕ
  | [] => (mark, work)
  | w :: ws =>
    if mark w then push mark work ws
    else push (Function.update mark w true) (enq work w) ws

/-- The search: `fuel` bounds the number of rounds. -/
def search : ℕ → (ℕ → Bool) → List ℕ → ℕ → Bool
  | 0, mark, _ => mark
  | _ + 1, mark, [] => mark
  | fuel + 1, mark, v :: work =>
    let (mark, work) := push enq mark work (next v)
    search fuel mark work

variable {enq next} {n : ℕ} {keep : ℕ → Prop}

theorem push_mark {mark : ℕ → Bool} {work ws : List ℕ} {v : ℕ} :
    (push enq mark work ws).1 v = true ↔ mark v = true ∨ v ∈ ws := by
  induction ws generalizing mark work with
  | nil => simp [push]
  | cons w ws ih =>
    by_cases hw : mark w = true
    · rw [push, if_pos hw, ih, List.mem_cons]
      constructor
      · exact Or.imp_right Or.inr
      · rintro (h | rfl | h)
        · exact .inl h
        · exact .inl hw
        · exact .inr h
    · rw [push, if_neg hw, ih, List.mem_cons]
      by_cases hvw : v = w
      · subst hvw
        simp
      · simp [hvw]

theorem push_work (henq : ∀ work w x, x ∈ enq work w ↔ x ∈ work ∨ (x = w ∧ keep w))
    {mark : ℕ → Bool} {work ws : List ℕ} {v : ℕ} :
    v ∈ (push enq mark work ws).2 ↔ v ∈ work ∨ (v ∈ ws ∧ mark v = false ∧ keep v) := by
  induction ws generalizing mark work with
  | nil => simp [push]
  | cons w ws ih =>
    by_cases hw : mark w = true
    · rw [push, if_pos hw, ih, List.mem_cons]
      refine or_congr_right ⟨fun h => ⟨.inr h.1, h.2⟩, fun h => ⟨h.1.resolve_left ?_, h.2⟩⟩
      rintro rfl
      simp [hw] at h
    · rw [push, if_neg hw, ih, henq, List.mem_cons]
      by_cases hvw : v = w
      · subst hvw
        simp [hw]
      · simp [hvw]

/-- A round marks as many new vertices as it adds to the worklist at most. -/
theorem push_potential (hlen : ∀ work w, (enq work w).length ≤ work.length + 1)
    {mark : ℕ → Bool} {work ws : List ℕ} (hws : ∀ w ∈ ws, w < n) :
    unmarked n (push enq mark work ws).1 + (push enq mark work ws).2.length ≤
      unmarked n mark + work.length := by
  induction ws generalizing mark work with
  | nil => simp [push]
  | cons w ws ih =>
    have hws' : ∀ x ∈ ws, x < n := fun x hx => hws x (List.mem_cons_of_mem _ hx)
    by_cases hw : mark w = true
    · rw [push, if_pos hw]
      exact ih hws'
    · rw [push, if_neg hw]
      have h₁ := @ih (Function.update mark w true) (enq work w) hws'
      have h₂ := unmarked_update (hws w List.mem_cons_self) (by simpa using hw)
      have h₃ := hlen work w
      omega

/-- What is marked at the end satisfies what the start satisfies and edges keep. -/
theorem search_sound (henq : ∀ work w x, x ∈ enq work w ↔ x ∈ work ∨ (x = w ∧ keep w))
    {P : ℕ → Prop} (hstep : ∀ v, P v → ∀ w ∈ next v, P w) {fuel : ℕ} {mark : ℕ → Bool}
    {work : List ℕ} (hmark : ∀ v, mark v = true → P v) (hwork : ∀ v ∈ work, P v) {v : ℕ}
    (hv : search enq next fuel mark work v = true) : P v := by
  induction fuel generalizing mark work with
  | zero => exact hmark v hv
  | succ fuel ih =>
    cases work with
    | nil => exact hmark v hv
    | cons u work =>
      rw [search] at hv
      refine ih ?_ ?_ hv
      · intro x hx
        rcases push_mark.1 hx with h | h
        · exact hmark x h
        · exact hstep u (hwork u List.mem_cons_self) x h
      · intro x hx
        rcases (push_work henq).1 hx with h | h
        · exact hwork x (List.mem_cons_of_mem _ h)
        · exact hstep u (hwork u List.mem_cons_self) x h.1

theorem search_mono {fuel : ℕ} {mark : ℕ → Bool} {work : List ℕ} {v : ℕ} (hv : mark v = true) :
    search enq next fuel mark work v = true := by
  induction fuel generalizing mark work with
  | zero => exact hv
  | succ fuel ih =>
    cases work with
    | nil => exact hv
    | cons u work =>
      rw [search]
      exact ih (push_mark.2 (.inl hv))

/-- What is marked at the end is closed under the successors of the vertices that `keep` does
not leave out. -/
theorem search_closed (henq : ∀ work w x, x ∈ enq work w ↔ x ∈ work ∨ (x = w ∧ keep w))
    (hlen : ∀ work w, (enq work w).length ≤ work.length + 1)
    (hnext : ∀ v, ∀ w ∈ next v, w < n) {fuel : ℕ} {mark : ℕ → Bool} {work : List ℕ}
    (hfuel : unmarked n mark + work.length ≤ fuel)
    (hinv : ∀ v, mark v = true → keep v → v ∈ work ∨ ∀ w ∈ next v, mark w = true) {v : ℕ}
    (hv : search enq next fuel mark work v = true) (hk : keep v) :
    ∀ w ∈ next v, search enq next fuel mark work w = true := by
  induction fuel generalizing mark work with
  | zero =>
    have hnil : work = [] := List.length_eq_zero_iff.1 (by omega)
    rcases hinv v hv hk with h | h
    · simp [hnil] at h
    · exact h
  | succ fuel ih =>
    cases work with
    | nil =>
      rcases hinv v hv hk with h | h
      · simp at h
      · exact h
    | cons u work =>
      rw [search] at hv ⊢
      have hpot : unmarked n (push enq mark work (next u)).1 +
          (push enq mark work (next u)).2.length ≤ unmarked n mark + work.length :=
        push_potential hlen (hnext u)
      rw [List.length_cons] at hfuel
      refine ih (by omega) (fun x hx hkx => ?_) hv
      -- a marked vertex is new, is the one just expanded, or was dealt with before
      by_cases hmx : mark x = true
      · rcases hinv x hmx hkx with h | h
        · rcases List.mem_cons.1 h with rfl | h
          · exact .inr fun w hw => push_mark.2 (.inr hw)
          · exact .inl ((push_work henq).2 (.inl h))
        · exact .inr fun w hw => push_mark.2 (.inl (h w hw))
      · have hxu : x ∈ next u := (push_mark.1 hx).resolve_left hmx
        exact .inl ((push_work henq).2 (.inr ⟨hxu, by simpa using hmx, hkx⟩))

end Search

end Flow
