import Mathlib.Data.List.DropRight

/-!
# Runs of letters

The **runs** of a text are its maximal nonempty stretches of letters. To `collapse` a text is
to write one separator for every stretch of other characters; up to separators at its ends, a
collapsed text is the runs, joined (`trim_collapse`). The joined runs determine the runs
(`intercalate_inj`), so two texts collapse to one word exactly if they have the same runs.
-/

namespace Words

variable {α : Type} {letter : α → Bool} {sep : α}

/-- The maximal nonempty stretches of letters. -/
def runs (letter : α → Bool) (text : List α) : List (List α) :=
  (text.splitOnP (!letter ·)).filter (!·.isEmpty)

@[simp] theorem runs_nil : runs letter [] = [] := by simp [runs, List.splitOnP_nil]

/-- A text splits at every character that is no letter. -/
theorem runs_append_cons {c : α} (hc : letter c = false) (x y : List α) :
    runs letter (x ++ c :: y) = runs letter x ++ runs letter y := by
  rw [runs, List.splitOnP_append_cons x y (by simp [hc]), List.filter_append]
  rfl

theorem runs_cons_of_not {c : α} (hc : letter c = false) (text : List α) :
    runs letter (c :: text) = runs letter text := by
  simpa using runs_append_cons hc [] text

/-- A nonempty text of letters is one run. -/
theorem runs_of_forall {w : List α} (hne : w ≠ []) (h : ∀ c ∈ w, letter c = true) :
    runs letter w = [w] := by
  rw [runs, List.splitOnP_eq_singleton fun c hc => by simp [h c hc]]
  simp [hne]

private theorem letters_of_splitOnP (text : List α) :
    ∀ w ∈ text.splitOnP (!letter ·), ∀ c ∈ w, letter c = true := by
  induction text with
  | nil => simp [List.splitOnP_nil]
  | cons x text ih =>
    rw [List.splitOnP_cons_eq_if_modifyHead]
    rcases hx : letter x
    · simpa using ih
    · rcases hsplit : text.splitOnP (!letter ·) with _ | ⟨v, vs⟩
      · simp
      · rw [hsplit] at ih
        simpa [hx] using ih

/-- A run is a nonempty word of letters. -/
theorem of_mem_runs {text w : List α} (h : w ∈ runs letter text) :
    w ≠ [] ∧ ∀ c ∈ w, letter c = true := by
  obtain ⟨hw, hne⟩ := List.mem_filter.1 h
  exact ⟨by simpa using hne, letters_of_splitOnP text w hw⟩

/-! ### Joined runs -/

theorem intercalate_eq_nil {ws : List (List α)} (h : ∀ w ∈ ws, w ≠ []) :
    [sep].intercalate ws = [] ↔ ws = [] := by
  rcases ws with _ | ⟨a, _ | ⟨b, ws⟩⟩
  · simp [List.intercalate]
  · simpa [List.intercalate] using h a
  · simp [List.intercalate_cons_cons]

/-- Nonempty words without the separator are determined by what joining them gives. -/
theorem intercalate_inj [DecidableEq α] {ws vs : List (List α)}
    (hws : ∀ w ∈ ws, w ≠ [] ∧ sep ∉ w) (hvs : ∀ v ∈ vs, v ≠ [] ∧ sep ∉ v)
    (h : [sep].intercalate ws = [sep].intercalate vs) : ws = vs := by
  by_cases hnil : ws = []
  · rw [hnil] at h ⊢
    exact ((intercalate_eq_nil fun v hv => (hvs v hv).1).1 h.symm).symm
  · have hnil' : vs ≠ [] := by
      rintro rfl
      exact hnil ((intercalate_eq_nil fun w hw => (hws w hw).1).1 h)
    rw [← List.splitOn_intercalate sep (fun w hw => (hws w hw).2) hnil, h,
      List.splitOn_intercalate sep (fun v hv => (hvs v hv).2) hnil']

theorem runs_eq_of_intercalate [DecidableEq α] (hsep : letter sep = false) {x y : List α}
    (h : [sep].intercalate (runs letter x) = [sep].intercalate (runs letter y)) :
    runs letter x = runs letter y := by
  have hruns : ∀ text : List α, ∀ w ∈ runs letter text, w ≠ [] ∧ sep ∉ w := by
    intro text w hw
    obtain ⟨hne, hletter⟩ := of_mem_runs hw
    refine ⟨hne, fun hmem => ?_⟩
    rw [hletter sep hmem] at hsep
    cases hsep
  exact intercalate_inj (hruns x) (hruns y) h

/-! ### Collapsing a text -/

/-- One character of a collapsed text: a character that is no letter becomes a separator, unless
one stands there already. -/
def collapseStep [DecidableEq α] (letter : α → Bool) (sep : α) (out : List α) (c : α) : List α :=
  if letter c then out ++ [c] else if out.getLast? = some sep then out else out ++ [sep]

/-- What a text adds to a collapsed one, after a separator or not. -/
private def collapsed (letter : α → Bool) (sep : α) : Bool → List α → List α
  | _, [] => []
  | after, c :: text =>
    if letter c then c :: collapsed letter sep false text
    else if after then collapsed letter sep true text else sep :: collapsed letter sep true text

private theorem foldl_collapseStep [DecidableEq α] (hsep : letter sep = false) (text : List α) :
    ∀ out, text.foldl (collapseStep letter sep) out =
      out ++ collapsed letter sep (decide (out.getLast? = some sep)) text := by
  induction text with
  | nil => simp [collapsed]
  | cons c text ih =>
    intro out
    rw [List.foldl_cons, ih, collapseStep, collapsed]
    by_cases hc : letter c = true
    · have hne : c ≠ sep := by
        rintro rfl
        rw [hc] at hsep
        cases hsep
      simp [hc, hne]
    · by_cases hlast : out.getLast? = some sep
      · simp [hc, hlast]
      · simp [hc, hlast]

section Trim

variable [DecidableEq α]

omit [DecidableEq α] in
private theorem rdropWhile_append (p : α → Bool) (x y : List α) :
    (x ++ y).rdropWhile p =
      if y.rdropWhile p = [] then x.rdropWhile p else x ++ y.rdropWhile p := by
  simp only [List.rdropWhile, List.reverse_append, List.dropWhile_append, List.isEmpty_iff,
    List.reverse_eq_nil_iff]
  split <;> simp

private theorem rdropWhile_letters (hsep : letter sep = false) {w : List α}
    (h : ∀ c ∈ w, letter c = true) : w.rdropWhile (· == sep) = w := by
  rw [List.rdropWhile_eq_self_iff]
  intro hne hlast
  have hletter := h _ (List.getLast_mem hne)
  rw [beq_iff_eq.1 hlast, hsep] at hletter
  cases hletter

/-- What is collapsed after a separator, and what is collapsed after a word. -/
private theorem rdropWhile_collapsed (hsep : letter sep = false) (text : List α) :
    (collapsed letter sep true text).rdropWhile (· == sep) =
        [sep].intercalate (runs letter text) ∧
      ∀ w : List α, w ≠ [] → (∀ c ∈ w, letter c = true) →
        (w ++ collapsed letter sep false text).rdropWhile (· == sep) =
          [sep].intercalate (runs letter (w ++ text)) := by
  induction text with
  | nil =>
    refine ⟨by simp [collapsed], fun w hne hw => ?_⟩
    simp only [collapsed, List.append_nil]
    rw [runs_of_forall hne hw, rdropWhile_letters hsep hw, List.intercalate_singleton]
  | cons c text ih =>
    obtain ⟨hafter, hword⟩ := ih
    by_cases hc : letter c = true
    · simp only [collapsed, if_pos hc]
      refine ⟨hword [c] (List.cons_ne_nil c []) (by simpa using hc), fun w hne hw => ?_⟩
      have hstep := hword (w ++ [c]) (by simp) fun d hd => ?_
      · simpa using hstep
      · rcases List.mem_append.1 hd with hd | hd
        · exact hw d hd
        · rw [List.mem_singleton.1 hd]
          exact hc
    · have hc' : letter c = false := Bool.not_eq_true _ ▸ hc
      simp only [collapsed, if_neg hc]
      refine ⟨by simpa [runs_cons_of_not hc'] using hafter, fun w hne hw => ?_⟩
      -- the separator stays if a run follows
      have hsplit : w ++ sep :: collapsed letter sep true text =
          w ++ [sep] ++ collapsed letter sep true text := by simp
      have hruns : ∀ v ∈ runs letter text, v ≠ [] := fun v hv => (of_mem_runs hv).1
      rw [if_neg Bool.false_ne_true, hsplit, rdropWhile_append, hafter, runs_append_cons hc',
        runs_of_forall hne hw]
      rcases hrest : runs letter text with _ | ⟨v, vs⟩
      · rw [List.append_nil, List.intercalate_singleton, List.intercalate_nil, if_pos rfl,
          List.rdropWhile_concat_pos _ _ _ (by simp), rdropWhile_letters hsep hw]
      · rw [hrest] at hruns
        rw [if_neg fun h => List.cons_ne_nil v vs ((intercalate_eq_nil hruns).1 h),
          List.singleton_append, List.intercalate_cons_cons]

private theorem dropWhile_collapsed (hsep : letter sep = false) (text : List α) :
    (collapsed letter sep true text).dropWhile (· == sep) = collapsed letter sep true text := by
  induction text with
  | nil => rfl
  | cons c text ih =>
    by_cases hc : letter c = true
    · have hne : (c == sep) = false := beq_false_of_ne fun h => by simp [h, hsep] at hc
      simp only [collapsed, if_pos hc]
      rw [List.dropWhile_cons_of_neg (by simp [hne])]
    · simpa only [collapsed, if_neg hc, if_true] using ih

/-- **A collapsed text** without the separators at its ends is its runs, joined. -/
theorem trim_collapse (hsep : letter sep = false) (text : List α) :
    ((text.foldl (collapseStep letter sep) []).dropWhile (· == sep)).rdropWhile (· == sep) =
      [sep].intercalate (runs letter text) := by
  rw [foldl_collapseStep hsep]
  rcases text with _ | ⟨c, text⟩
  · simp [collapsed]
  obtain ⟨hafter, hword⟩ := rdropWhile_collapsed hsep text
  by_cases hc : letter c = true
  · have hne : (c == sep) = false := beq_false_of_ne fun h => by simp [h, hsep] at hc
    have hcons := hword [c] (List.cons_ne_nil c []) (by simpa using hc)
    simpa [collapsed, hc, hne] using hcons
  · have hc' : letter c = false := Bool.not_eq_true _ ▸ hc
    have htrim : ((sep :: collapsed letter sep true text).dropWhile (· == sep)) =
        collapsed letter sep true text := by
      rw [List.dropWhile_cons_of_pos (by simp), dropWhile_collapsed hsep]
    rw [runs_cons_of_not hc', ← hafter, ← htrim]
    simp [collapsed, hc]

end Trim

end Words
