import Mathlib.Data.List.Infix

/-!
# Separators

A word `m` is **unbordered** when no proper nonempty end of it is also a beginning of it. An
unbordered word that occurs in neither of two words separates them from what follows:
`a ++ m ++ x` determines `a` and `x`. Numerals are words of digits, which determine the number.
-/

namespace Words

variable {α : Type}

/-- No proper nonempty suffix is a prefix. -/
def Unbordered (m : List α) : Prop :=
  ∀ s < m.length, 0 < s → m.drop s ≠ m.take (m.length - s)

instance [DecidableEq α] (m : List α) : Decidable (Unbordered m) :=
  inferInstanceAs (Decidable (∀ s < m.length, 0 < s → m.drop s ≠ m.take (m.length - s)))

/-- One word cannot reach into the separator that follows the other. -/
private theorem eq_nil_of_append_eq {m b c x y : List α} (hm : Unbordered m)
    (hb : ¬ m <:+: b) (hc : ∃ a, b = a ++ c) (h : m ++ x = c ++ (m ++ y)) : c = [] := by
  obtain ⟨a, rfl⟩ := hc
  rcases List.append_eq_append_iff.1 h with ⟨d, rfl, -⟩ | ⟨d, rfl, hd⟩
  · exact absurd ⟨a, d, by simp⟩ hb
  · by_contra hne
    have hpos : 0 < c.length := List.length_pos_iff.2 hne
    cases d with
    | nil => exact hb ⟨a, [], by simp⟩
    | cons e d =>
      -- the separator's end `e :: d` is where its next occurrence begins
      refine hm c.length (by simp) hpos ?_
      have hlen : (c ++ e :: d).length - c.length = (e :: d).length := by simp
      have htake := congrArg (List.take (e :: d).length) hd
      rw [List.take_left, List.take_append_of_le_length (by simp)] at htake
      rw [hlen, List.drop_left, htake]

/-- **Separation**: the words around an unbordered separator that occurs in neither of the
words before it are determined. -/
theorem append_inj_of_unbordered {m a b x y : List α} (hm : Unbordered m) (ha : ¬ m <:+: a)
    (hb : ¬ m <:+: b) (h : a ++ (m ++ x) = b ++ (m ++ y)) : a = b ∧ x = y := by
  rcases List.append_eq_append_iff.1 h with ⟨c, rfl, hc⟩ | ⟨c, rfl, hc⟩
  · obtain rfl := eq_nil_of_append_eq hm hb ⟨a, rfl⟩ hc
    simpa using hc
  · obtain rfl := eq_nil_of_append_eq hm ha ⟨b, rfl⟩ hc
    simpa [eq_comm] using hc

/-- A numeral determines its number. -/
theorem toDigits_inj {m n : ℕ} (h : Nat.toDigits 10 m = Nat.toDigits 10 n) : m = n := by
  have hval := congrArg (Nat.ofDigitChars 10 · 0) h
  simpa [Nat.ofDigitChars_toDigits] using hval

/-- A word with something else than digits occurs in no numeral. -/
theorem not_infix_toDigits {m : List Char} {n : ℕ} (h : ∃ c ∈ m, c.isDigit = false) :
    ¬ m <:+: Nat.toDigits 10 n := by
  intro hm
  obtain ⟨c, hc, hdigit⟩ := h
  rw [Nat.isDigit_of_mem_toDigits (by decide) (by decide) (hm.subset hc)] at hdigit
  cases hdigit

end Words
