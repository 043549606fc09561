import Mathlib.Algebra.BigOperators.Group.List.Basic
import Mathlib.Data.List.Infix
import Mathlib.Tactic.Linarith

/-!
# Balanced text

Text in which every parenthesis that is opened is closed again (`Nested`), and text in one pair of
parentheses (`enclose`). A reader that counts open parentheses passes over nested text
(`takeClosed_nested`), and no beginning of enclosed text is balanced
(`balance_pos_of_prefix_enclose`).
-/

namespace Words

/-! ### Counting -/

/-- What a character adds to the number of open parentheses. -/
def parenStep (c : Char) : ℤ := if c = '(' then 1 else if c = ')' then -1 else 0

def balance (t : List Char) : ℤ := (t.map parenStep).sum

@[simp] theorem balance_nil : balance [] = 0 := rfl

@[simp] theorem balance_cons (c : Char) (t : List Char) :
    balance (c :: t) = parenStep c + balance t := by simp [balance]

@[simp] theorem balance_append (t u : List Char) : balance (t ++ u) = balance t + balance u := by
  simp [balance]

/-- Text without parentheses. -/
def Plain (t : List Char) : Prop := ∀ c ∈ t, c ≠ '(' ∧ c ≠ ')'

theorem plain_of_all {t : List Char} (h : t.all (fun c => c != '(' && c != ')') = true) :
    Plain t := fun c hc => by
  simpa using List.all_eq_true.1 h c hc

theorem parenStep_of_plain {c : Char} (h : c ≠ '(' ∧ c ≠ ')') : parenStep c = 0 := by
  rw [parenStep, if_neg h.1, if_neg h.2]

/-! ### Nesting -/

/-- Every parenthesis that is opened is closed. -/
inductive Nested : List Char → Prop
  | nil : Nested []
  | char {c : Char} {t : List Char} (hc : c ≠ '(' ∧ c ≠ ')') (h : Nested t) : Nested (c :: t)
  | paren {t u : List Char} (ht : Nested t) (hu : Nested u) : Nested ('(' :: (t ++ ')' :: u))

/-- Text in parentheses. -/
def enclose (t : List Char) : List Char := '(' :: (t ++ [')'])

theorem enclose_append (t rest : List Char) : enclose t ++ rest = '(' :: (t ++ ')' :: rest) := by
  simp [enclose]

theorem Plain.nested {t : List Char} (h : Plain t) : Nested t := by
  induction t with
  | nil => exact .nil
  | cons c t ih =>
    exact .char (h c List.mem_cons_self) (ih fun d hd => h d (List.mem_cons_of_mem c hd))

theorem Nested.append {t u : List Char} (ht : Nested t) (hu : Nested u) : Nested (t ++ u) := by
  induction ht with
  | nil => exact hu
  | char hc _ ih => exact .char hc ih
  | paren ht _ _ ih =>
    have h := Nested.paren ht ih
    rwa [List.cons_append, List.append_assoc, List.cons_append]

theorem Nested.enclose {t : List Char} (h : Nested t) : Nested (enclose t) := .paren h .nil

theorem Nested.balance_eq {t : List Char} (h : Nested t) : balance t = 0 := by
  induction h with
  | nil => rfl
  | char hc _ ih => rw [balance_cons, parenStep_of_plain hc, ih, zero_add]
  | paren _ _ iht ihu => simp [iht, ihu, parenStep]

/-- A beginning of two words is one of the first word, or goes on into the second. -/
theorem prefix_append_cases {α : Type*} {p a b : List α} (h : p <+: a ++ b) :
    p <+: a ∨ ∃ r, p = a ++ r ∧ r <+: b := by
  obtain ⟨s, hs⟩ := h
  rcases List.append_eq_append_iff.1 hs with ⟨r, rfl, -⟩ | ⟨r, rfl, hr⟩
  · exact .inl ⟨r, rfl⟩
  · exact .inr ⟨r, rfl, s, hr.symm⟩

theorem Nested.balance_nonneg_of_prefix {t p : List Char} (h : Nested t) (hp : p <+: t) :
    0 ≤ balance p := by
  induction h generalizing p with
  | nil => rw [List.prefix_nil.1 hp]; exact balance_nil.ge
  | @char c t hc _ ih =>
    rcases List.prefix_cons_iff.1 hp with rfl | ⟨q, rfl, hq⟩
    · exact balance_nil.ge
    · rw [balance_cons, parenStep_of_plain hc, zero_add]
      exact ih hq
  | @paren t u ht _ iht ihu =>
    rcases List.prefix_cons_iff.1 hp with rfl | ⟨q, rfl, hq⟩
    · exact balance_nil.ge
    · rw [balance_cons, parenStep, if_pos rfl]
      -- the prefix ends within the parentheses, or after them
      rcases prefix_append_cases hq with hq | ⟨r, rfl, hr⟩
      · linarith [iht hq]
      · rw [balance_append, ht.balance_eq]
        rcases List.prefix_cons_iff.1 hr with rfl | ⟨s, rfl, hs⟩
        · simp
        · have hstep : parenStep ')' = -1 := rfl
          rw [balance_cons, hstep]
          linarith [ihu hs]

/-- A proper beginning of enclosed text has an open parenthesis. -/
theorem Nested.balance_pos_of_prefix {t p : List Char} (h : Nested t)
    (hp : p <+: Words.enclose t) (hne : p ≠ []) (hlt : p ≠ Words.enclose t) : 0 < balance p := by
  rcases List.prefix_cons_iff.1 hp with rfl | ⟨q, rfl, hq⟩
  · exact absurd rfl hne
  · have hqt : q <+: t := by
      rcases prefix_append_cases hq with hq | ⟨r, rfl, hr⟩
      · exact hq
      · rcases List.prefix_cons_iff.1 hr with rfl | ⟨s, rfl, hs⟩
        · rw [List.append_nil]
        · rw [List.prefix_nil.1 hs] at hlt
          exact absurd rfl hlt
    rw [balance_cons, parenStep, if_pos rfl]
    linarith [h.balance_nonneg_of_prefix hqt]

/-! ### Reading -/

/-- Reads until the open parentheses are closed, and what is left. -/
def takeClosed : ℕ → List Char → List Char × List Char
  | 0, t => ([], t)
  | _ + 1, [] => ([], [])
  | d + 1, c :: t =>
    let d := if c = '(' then d + 2 else if c = ')' then d else d + 1
    let (read, rest) := takeClosed d t
    (c :: read, rest)

@[simp] theorem takeClosed_zero (t : List Char) : takeClosed 0 t = ([], t) := by
  cases t <;> rfl

theorem takeClosed_cons (d : ℕ) (c : Char) (t : List Char) :
    takeClosed (d + 1) (c :: t) =
      (c :: (takeClosed (if c = '(' then d + 2 else if c = ')' then d else d + 1) t).1,
        (takeClosed (if c = '(' then d + 2 else if c = ')' then d else d + 1) t).2) := rfl

theorem takeClosed_nested {t : List Char} (h : Nested t) (d : ℕ) (rest : List Char) :
    takeClosed (d + 1) (t ++ rest) =
      (t ++ (takeClosed (d + 1) rest).1, (takeClosed (d + 1) rest).2) := by
  induction h generalizing d rest with
  | nil => rfl
  | char hc _ ih =>
    rw [List.cons_append, takeClosed_cons, if_neg hc.1, if_neg hc.2, ih]
    rfl
  | paren _ _ iht ihu =>
    have hopen : ∀ d t, takeClosed (d + 1) ('(' :: t) =
        ('(' :: (takeClosed (d + 2) t).1, (takeClosed (d + 2) t).2) := fun _ _ => rfl
    have hclose : ∀ d t, takeClosed (d + 1) (')' :: t) =
        (')' :: (takeClosed d t).1, (takeClosed d t).2) := fun _ _ => rfl
    rw [List.cons_append, hopen, List.append_assoc, iht, List.cons_append, hclose, ihu]
    simp

/-- The rest of enclosed text. -/
theorem takeClosed_enclosed {t : List Char} (h : Nested t) (rest : List Char) :
    takeClosed 1 (t ++ ')' :: rest) = (t ++ [')'], rest) := by
  rw [takeClosed_nested h, takeClosed_cons]
  simp

end Words
