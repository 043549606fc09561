import Mathlib.Data.List.DropRight
import TrustMc.Words.Parens

/-!
# Text of a solver script

The functions of `str` that the readers of SMT-LIB scripts use, on lists of characters. The code
compares bytes with ASCII characters only, so that characters stand for bytes.
-/

namespace TrustMc.SmtIo

/-- `char::is_whitespace`: the Unicode property `White_Space`. -/
def isWhitespace (c : Char) : Bool :=
  (9 ≤ c.toNat && c.toNat ≤ 13) || (0x2000 ≤ c.toNat && c.toNat ≤ 0x200A) ||
    [0x20, 0x85, 0xA0, 0x1680, 0x2028, 0x2029, 0x202F, 0x205F, 0x3000].contains c.toNat

/-- `str::trim_start`. -/
def trimStart (s : List Char) : List Char := s.dropWhile isWhitespace

/-- `str::trim`. -/
def trim (s : List Char) : List Char := (trimStart s).rdropWhile isWhitespace

/-- `str::split_inclusive('\n')`. -/
def splitInclusive : List Char → List (List Char)
  | [] => []
  | c :: cs =>
    if c = '\n' then [c] :: splitInclusive cs
    else
      match splitInclusive cs with
      | [] => [[c]]
      | line :: lines => (c :: line) :: lines

/-- A line without its line break, which is `\n` or `\r\n`. -/
def withoutBreak (line : List Char) : List Char :=
  match line.dropSuffix? ['\n'] with
  | none => line
  | some line => (line.dropSuffix? ['\r']).getD line

/-- `str::lines`. -/
def lines (s : List Char) : List (List Char) := (splitInclusive s).map withoutBreak

/-! ### Reading up to a character -/

section Stop

variable {p : Char → Bool} {a rest : List Char}

theorem takeWhile_stop (ha : ∀ c ∈ a, p c = true) (hrest : ∀ c ∈ rest.head?, p c = false) :
    (a ++ rest).takeWhile p = a := by
  have hnil : rest.takeWhile p = [] := by
    cases rest with
    | nil => rfl
    | cons c rest => exact List.takeWhile_cons_of_neg (by simp [hrest c rfl])
  rw [List.takeWhile_append_of_pos ha, hnil, List.append_nil]

theorem dropWhile_stop (ha : ∀ c ∈ a, p c = true) (hrest : ∀ c ∈ rest.head?, p c = false) :
    (a ++ rest).dropWhile p = rest := by
  rw [List.dropWhile_append_of_pos ha]
  cases rest with
  | nil => rfl
  | cons c rest => exact List.dropWhile_cons_of_neg (by simp [hrest c rfl])

/-- Where two texts read alike, what is read is the same. -/
theorem append_inj_stop {b rest' : List Char} (ha : ∀ c ∈ a, p c = true)
    (hrest : ∀ c ∈ rest.head?, p c = false) (hb : ∀ c ∈ b, p c = true)
    (hrest' : ∀ c ∈ rest'.head?, p c = false) (h : a ++ rest = b ++ rest') :
    a = b ∧ rest = rest' := by
  constructor
  · rw [← takeWhile_stop ha hrest, h, takeWhile_stop hb hrest']
  · rw [← dropWhile_stop ha hrest, h, dropWhile_stop hb hrest']

/-- What is read up to there does not go on beyond it. -/
theorem prefix_stop {b : List Char} (ha : ∀ c ∈ a, p c = true)
    (hrest : ∀ c ∈ rest.head?, p c = false) (h : a <+: b ++ rest) : a <+: b := by
  rcases Words.prefix_append_cases h with h | ⟨q, rfl, hq⟩
  · exact h
  · cases q with
    | nil => exact (List.append_nil b).symm ▸ List.prefix_rfl
    | cons c q =>
      obtain ⟨r, rfl⟩ := hq
      have hc := ha c (by simp)
      rw [hrest c rfl] at hc
      cases hc

end Stop

/-! ### Trimming -/

/-- The text is nonempty and begins and ends with something else than whitespace. -/
structure Trimmed (s : List Char) : Prop where
  ne_nil : s ≠ []
  head_eq : isWhitespace (s.head ne_nil) = false
  getLast_eq : isWhitespace (s.getLast ne_nil) = false

theorem trimStart_eq_self {s : List Char} (h : Trimmed s) : trimStart s = s := by
  obtain ⟨hne, hhead, -⟩ := h
  obtain ⟨c, cs, rfl⟩ := List.exists_cons_of_ne_nil hne
  rw [trimStart, List.dropWhile_cons_of_neg (by simpa using hhead)]

theorem trim_eq_self {s : List Char} (h : Trimmed s) : trim s = s := by
  rw [trim, trimStart_eq_self h, List.rdropWhile_eq_self_iff]
  exact fun _ => by simp [h.getLast_eq]

theorem trimStart_append {g s : List Char} (hg : ∀ c ∈ g, isWhitespace c = true) :
    trimStart (g ++ s) = trimStart s := List.dropWhile_append_of_pos hg

/-- What trimming leaves of a text is empty or trimmed. -/
theorem trimmed_trim {s : List Char} (h : trim s ≠ []) : Trimmed (trim s) := by
  refine ⟨h, ?_, ?_⟩
  · have hpre : trim s <+: trimStart s := List.rdropWhile_prefix _ _
    have hne : trimStart s ≠ [] := fun hnil => h (List.prefix_nil.1 (hnil ▸ hpre))
    rw [hpre.head h]
    exact List.head_dropWhile_not isWhitespace hne
  · exact Bool.eq_false_iff.2 (List.rdropWhile_last_not isWhitespace (trimStart s) h)

end TrustMc.SmtIo
