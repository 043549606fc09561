import TrustMc.SmtIo.DatatypeText

/-!
# Reading datatype declarations

What the readers of the code find in the text of a declaration: the name (`extractDtName_text`), the
sorts of the fields (`extractFieldSorts_text`), the two sorts of an array (`arraySorts_array`), and
with them which sorts are decidable where some names are (`isDecidableFieldSort_text`).
-/

namespace TrustMc.SmtIo

open Words

/-! ### Sorts of arrays -/

theorem splitAtBlank_cons (depth : ℕ) (c : Char) (text : List Char) :
    splitAtBlank depth (c :: text) =
      if c = ' ' ∧ depth = 0 then some ([], c :: text)
      else
        (splitAtBlank (if c = '(' then depth + 1 else if c = ')' then depth - 1 else depth)
          text).map fun p => (c :: p.1, p.2) := rfl

/-- The text is no end of the first sort. -/
def SplitsAfter (t : List Char) (depth : ℕ) : Prop :=
  ∀ rest, splitAtBlank depth (t ++ rest) =
    (splitAtBlank depth rest).map fun p => (t ++ p.1, p.2)

theorem SplitsAfter.nil (depth : ℕ) : SplitsAfter [] depth := fun rest => by simp

theorem splitsAfter_of_nested {t : List Char} (h : Nested t) (depth : ℕ) :
    SplitsAfter t (depth + 1) := by
  induction h generalizing depth with
  | nil => exact .nil _
  | char hc _ ih =>
    intro rest
    rw [List.cons_append, splitAtBlank_cons, if_neg (by simp), if_neg hc.1, if_neg hc.2, ih depth]
    simp [Function.comp_def]
  | paren _ _ iht ihu =>
    intro rest
    rw [List.cons_append, splitAtBlank_cons, if_neg (by simp), if_pos rfl, List.append_assoc,
      iht (depth + 1), List.cons_append, splitAtBlank_cons, if_neg (by simp), if_neg (by decide),
      if_pos rfl, Nat.add_sub_cancel, ihu depth]
    simp [Function.comp_def]

theorem splitsAfter_of_plain {t : List Char} (h : ∀ c ∈ t, c ≠ ' ' ∧ c ≠ '(' ∧ c ≠ ')') :
    SplitsAfter t 0 := by
  induction t with
  | nil => exact .nil _
  | cons c t ih =>
    intro rest
    have hc := h c List.mem_cons_self
    rw [List.cons_append, splitAtBlank_cons, if_neg (by simp [hc.1]), if_neg hc.2.1, if_neg hc.2.2,
      ih (fun d hd => h d (List.mem_cons_of_mem c hd))]
    simp [Function.comp_def]

theorem SortText.splitsAfter {t : List Char} (h : SortText t) : SplitsAfter t 0 := by
  cases h with
  | word w => exact splitsAfter_of_plain fun c hc => ⟨w.ne_blank hc, w.plain c hc⟩
  | @enclosed t h =>
    intro rest
    rw [enclose, List.cons_append, splitAtBlank_cons, if_neg (by simp), if_pos rfl,
      List.append_assoc, splitsAfter_of_nested h 0, List.singleton_append, splitAtBlank_cons,
      if_neg (by simp), if_neg (by decide), if_pos rfl]
    simp [Function.comp_def]

/-- The two sorts of an array. -/
theorem splitTwoSorts_text {t u : List Char} (ht : SortText t) (hu : SortText u) :
    splitTwoSorts (t ++ ' ' :: u) = some (t, u) := by
  have htrim : Trimmed (t ++ ' ' :: u) := by
    refine ⟨by simp, ?_, ?_⟩
    · rw [List.head_append_of_ne_nil ht.trimmed.ne_nil]
      exact ht.trimmed.head_eq
    · rw [List.getLast_append_of_ne_nil _ (by simp), List.getLast_cons hu.trimmed.ne_nil]
      exact hu.trimmed.getLast_eq
  have hblank : trimStart (' ' :: u) = u :=
    (trimStart_append (List.all_eq_true.1 (by decide : [' '].all isWhitespace = true))).trans
      (trimStart_eq_self hu.trimmed)
  rw [splitTwoSorts, trim_eq_self htrim, ht.splitsAfter, splitAtBlank_cons]
  simp [hblank, hu.trimmed.ne_nil]

theorem arraySorts_array (index elem : SortExpr) :
    arraySorts (SortExpr.array index elem).text = some (index.text, elem.text) := by
  have hprefix : (SortExpr.array index elem).text.dropPrefix? "(Array ".toList =
      some (index.text ++ ' ' :: elem.text ++ [')']) :=
    List.dropPrefix?_eq_some_iff.2 ⟨_, by simp [SortExpr.text, enclose], beq_self_eq_true _⟩
  have hsuffix : (index.text ++ ' ' :: elem.text ++ [')']).dropSuffix? [')'] =
      some (index.text ++ ' ' :: elem.text) :=
    List.dropSuffix?_eq_some_iff.2 ⟨_, rfl, beq_self_eq_true _⟩
  rw [arraySorts, hprefix, Option.bind_some, hsuffix, Option.bind_some,
    splitTwoSorts_text index.sortText elem.sortText]

theorem dropPrefix?_eq_none {p s : List Char} (h : ¬ p <+: s) : s.dropPrefix? p = none := by
  refine Option.eq_none_iff_forall_ne_some.2 fun t ht => h ?_
  obtain ⟨q, rfl, hq⟩ := List.dropPrefix?_eq_some_iff.1 ht
  exact ⟨t, by rw [eq_of_beq hq]⟩

theorem arraySorts_eq_none {s : List Char} (h : ¬ "(Array ".toList <+: s) : arraySorts s = none := by
  rw [arraySorts, dropPrefix?_eq_none h]
  rfl

/-- What begins with a parenthesis is no word. -/
theorem Word.not_paren_prefix (w : Word) (p : List Char) : ¬ '(' :: p <+: w.chars := fun h =>
  (w.plain '(' (h.subset List.mem_cons_self)).1 rfl

theorem head?_blank (s : List Char) : ∀ c ∈ (' ' :: s).head?, isWordChar c = false := fun c hc => by
  obtain rfl := Option.some.inj hc
  rfl

/-- What follows the head of a list. -/
theorem Sexp.argsText_head (args : List Sexp) :
    ∀ c ∈ (Sexp.argsText args ++ [')']).head?, isWordChar c = false := by
  cases args with
  | nil =>
    intro c hc
    obtain rfl := Option.some.inj hc
    rfl
  | cons arg args => exact head?_blank _

theorem wordChars_array : ∀ c ∈ "Array".toList, isWordChar c = true :=
  List.all_eq_true.1 (by decide)

theorem OtherSort.not_array {head : Sexp} {args : List Sexp} (h : OtherSort head args) :
    ¬ "(Array ".toList <+: (Sexp.list head args).text := by
  rintro ⟨s, hs⟩
  rw [Sexp.text, enclose, List.append_assoc] at hs
  have hs' : "Array".toList ++ ' ' :: s = head.text ++ (Sexp.argsText args ++ [')']) :=
    List.cons_injective hs
  cases head with
  | word w =>
    have hhead := append_inj_stop wordChars_array (head?_blank s)
      w.isWordChar (Sexp.argsText_head args) hs'
    exact (h w rfl).1 hhead.1.symm
  | list head' args' =>
    rw [Sexp.text, enclose] at hs'
    exact absurd (List.cons.inj hs').1 (by decide)

theorem OtherSort.not_bitVec {head : Sexp} {args : List Sexp} (h : OtherSort head args) :
    ¬ "(_ BitVec".toList <+: (Sexp.list head args).text := by
  rintro ⟨s, hs⟩
  rw [Sexp.text, enclose, List.append_assoc] at hs
  have hs' : ['_'] ++ ' ' :: ("BitVec".toList ++ s) =
      head.text ++ (Sexp.argsText args ++ [')']) := List.cons_injective hs
  cases head with
  | list head' args' =>
    rw [Sexp.text, enclose] at hs'
    exact absurd (List.cons.inj hs').1 (by decide)
  | word w =>
    have hunderscore : ∀ c ∈ ['_'], isWordChar c = true := List.all_eq_true.1 (by decide)
    obtain ⟨hw, hargs⟩ := append_inj_stop hunderscore (head?_blank _)
      w.isWordChar (Sexp.argsText_head args) hs'
    -- the first index begins with `BitVec`
    cases args with
    | nil => exact absurd (List.cons.inj hargs).1 (by decide)
    | cons arg args =>
      rw [Sexp.argsText, List.cons_append, List.append_assoc] at hargs
      have harg := List.cons_injective hargs
      cases arg with
      | list head' args' =>
        rw [Sexp.text, enclose] at harg
        exact absurd (List.cons.inj harg).1 (by decide)
      | word v =>
        refine (h w rfl).2 hw.symm v args rfl ?_
        rw [Sexp.text] at harg
        have hbitVec : ∀ c ∈ "BitVec".toList, isWordChar c = true := List.all_eq_true.1 (by decide)
        exact prefix_stop hbitVec (Sexp.argsText_head args) ⟨s, harg⟩

/-! ### Decidable sorts -/

/-- Built from `Bool`, bit-vectors, arrays and these names. -/
def SortExpr.DecidableIn (names : List (List Char)) : SortExpr → Prop
  | .symbol w => w.chars = "Bool".toList ∨ w.chars ∈ names
  | .bitVec _ => True
  | .array index elem => index.DecidableIn names ∧ elem.DecidableIn names
  | .other .. => False

theorem Word.text_ne_enclose (w : Word) (t : List Char) : w.chars ≠ enclose t := fun h =>
  w.not_paren_prefix _ ⟨[], (List.append_nil _).trans h.symm⟩

theorem isDecidableSort_succ (fuel : ℕ) (sort : List Char) :
    isDecidableSort (fuel + 1) sort =
      (sort == "Bool".toList || "(_ BitVec".toList.isPrefixOf sort ||
        (arraySorts sort).any fun p => isDecidableSort fuel p.1 && isDecidableSort fuel p.2) := rfl

theorem isDecidableFieldSort_succ (names : List (List Char)) (fuel : ℕ) (sort : List Char) :
    isDecidableFieldSort names (fuel + 1) sort =
      (isDecidableSort (fuel + 1) sort || names.contains sort ||
        (arraySorts sort).any fun p =>
          isDecidableFieldSort names fuel p.1 && isDecidableFieldSort names fuel p.2) := rfl

theorem length_lt_array (index elem : SortExpr) :
    index.text.length < (SortExpr.array index elem).text.length ∧
      elem.text.length < (SortExpr.array index elem).text.length := by
  simp only [SortExpr.text, enclose, List.length_cons, List.length_append]
  omega

theorem bool_ne_enclose (t : List Char) : (enclose t == "Bool".toList) = false := by
  simp [enclose]

theorem array_not_bitVec (index elem : SortExpr) :
    "(_ BitVec".toList.isPrefixOf (SortExpr.array index elem).text = false := by
  simp [SortExpr.text, enclose, List.isPrefixOf]

/-- The leaf check. -/
theorem isDecidableSort_text {s : SortExpr} {fuel : ℕ} (h : s.text.length < fuel) :
    isDecidableSort fuel s.text = true ↔ s.DecidableIn [] := by
  induction s generalizing fuel with
  | symbol w =>
    obtain ⟨fuel, rfl⟩ := Nat.exists_eq_add_of_lt h
    have hbv : "(_ BitVec".toList.isPrefixOf w.chars = false :=
      Bool.eq_false_iff.2 fun hp => w.not_paren_prefix _ (List.isPrefixOf_iff_prefix.1 hp)
    rw [SortExpr.text, isDecidableSort_succ, hbv, arraySorts_eq_none (w.not_paren_prefix _)]
    simp [SortExpr.DecidableIn]
  | bitVec width =>
    obtain ⟨fuel, rfl⟩ := Nat.exists_eq_add_of_lt h
    have hbv : "(_ BitVec".toList.isPrefixOf (SortExpr.bitVec width).text = true :=
      List.isPrefixOf_iff_prefix.2 ⟨' ' :: (width.chars ++ [')']), by simp [SortExpr.text, enclose]⟩
    rw [isDecidableSort_succ, hbv]
    simp [SortExpr.DecidableIn]
  | array index elem ihi ihe =>
    obtain ⟨fuel, rfl⟩ := Nat.exists_eq_add_of_lt h
    obtain ⟨hi, he⟩ := length_lt_array index elem
    have hbool : ((SortExpr.array index elem).text == "Bool".toList) = false := bool_ne_enclose _
    rw [isDecidableSort_succ, hbool, array_not_bitVec, arraySorts_array, Bool.false_or,
      Bool.false_or, Option.any_some, Bool.and_eq_true, ihi (by omega), ihe (by omega)]
    rfl
  | other head args hother =>
    obtain ⟨fuel, rfl⟩ := Nat.exists_eq_add_of_lt h
    have hbv : "(_ BitVec".toList.isPrefixOf (Sexp.list head args).text = false :=
      Bool.eq_false_iff.2 fun hp => hother.not_bitVec (List.isPrefixOf_iff_prefix.1 hp)
    have hbool : ((Sexp.list head args).text == "Bool".toList) = false := by
      rw [Sexp.text]
      exact bool_ne_enclose _
    rw [SortExpr.text, isDecidableSort_succ, hbool, hbv, arraySorts_eq_none hother.not_array]
    simp [SortExpr.DecidableIn]

theorem SortExpr.DecidableIn.mono {names names' : List (List Char)} (h : names ⊆ names')
    {s : SortExpr} (hs : s.DecidableIn names) : s.DecidableIn names' := by
  induction s with
  | symbol w => exact hs.imp_right (@h _)
  | bitVec width => trivial
  | array index elem ihi ihe => exact ⟨ihi hs.1, ihe hs.2⟩
  | other head args hother => exact hs

/-- The check of a field, where the names are words. -/
theorem isDecidableFieldSort_text {names : List (List Char)}
    (hnames : ∀ t, enclose t ∉ names) {s : SortExpr} {fuel : ℕ} (h : s.text.length < fuel) :
    isDecidableFieldSort names fuel s.text = true ↔ s.DecidableIn names := by
  have hleaf : ∀ {s : SortExpr}, s.DecidableIn [] → s.DecidableIn names :=
    fun hs => hs.mono (List.nil_subset _)
  induction s generalizing fuel with
  | symbol w =>
    obtain ⟨fuel, rfl⟩ := Nat.exists_eq_add_of_lt h
    have hnone : arraySorts (SortExpr.symbol w).text = none :=
      arraySorts_eq_none (w.not_paren_prefix _)
    rw [isDecidableFieldSort_succ, hnone, Option.any_none, Bool.or_false, Bool.or_eq_true,
      isDecidableSort_text (by omega)]
    simp [SortExpr.DecidableIn, SortExpr.text]
  | bitVec width =>
    obtain ⟨fuel, rfl⟩ := Nat.exists_eq_add_of_lt h
    have hsort : (SortExpr.bitVec width).DecidableIn [] := trivial
    rw [isDecidableFieldSort_succ, (isDecidableSort_text (by omega)).2 hsort]
    simp [SortExpr.DecidableIn]
  | array index elem ihi ihe =>
    obtain ⟨fuel, rfl⟩ := Nat.exists_eq_add_of_lt h
    obtain ⟨hi, he⟩ := length_lt_array index elem
    have hname : names.contains (SortExpr.array index elem).text = false := by
      rw [SortExpr.text]
      simpa using hnames _
    rw [isDecidableFieldSort_succ, hname, arraySorts_array, Bool.or_false, Bool.or_eq_true,
      isDecidableSort_text (by omega), Option.any_some, Bool.and_eq_true]
    exact (or_congr_right (and_congr (ihi (by omega)) (ihe (by omega)))).trans
      (or_iff_right_of_imp hleaf)
  | other head args hother =>
    obtain ⟨fuel, rfl⟩ := Nat.exists_eq_add_of_lt h
    have hname : names.contains (SortExpr.other head args hother).text = false := by
      rw [SortExpr.text, Sexp.text]
      simpa using hnames _
    rw [isDecidableFieldSort_succ, hname, Bool.or_false, Bool.or_eq_true,
      isDecidableSort_text (by omega), SortExpr.text, arraySorts_eq_none hother.not_array]
    simp [SortExpr.DecidableIn]

/-! ### Sorts of fields -/

theorem length_takeClosed_le (d : ℕ) (text : List Char) :
    (takeClosed d text).2.length ≤ text.length := by
  induction text generalizing d with
  | nil => cases d <;> simp [takeClosed]
  | cons c text ih =>
    cases d with
    | zero => simp
    | succ d =>
      rw [takeClosed_cons]
      exact (ih _).trans (Nat.le_succ _)

theorem length_dropWhile_le (p : Char → Bool) (text : List Char) :
    (text.dropWhile p).length ≤ text.length := (List.dropWhile_sublist p).length_le

theorem length_readSort_le (text : List Char) : (readSort text).2.length ≤ text.length := by
  unfold readSort
  split
  · exact (length_takeClosed_le 1 _).trans (Nat.le_succ _)
  · rw [List.span_eq_takeWhile_dropWhile]
    exact length_dropWhile_le _ _

theorem length_readField_le (text : List Char) : (readField text).2.length ≤ text.length := by
  have hskip : (skipFieldName text).length ≤ text.length :=
    (length_dropWhile_le _ _).trans (length_dropWhile_le _ _)
  rw [readField]
  split
  · next text' heq =>
    have hsort := length_readSort_le text'
    rw [heq, List.length_cons] at hskip
    exact (length_dropWhile_le _ _).trans (by omega)
  · exact (length_dropWhile_le _ _).trans hskip

/-- The rounds suffice. -/
theorem fieldSortsFrom_fuel {text : List Char} {fuel fuel' : ℕ} (depth : ℕ)
    (h : text.length ≤ fuel) (h' : text.length ≤ fuel') :
    fieldSortsFrom fuel depth text = fieldSortsFrom fuel' depth text := by
  induction fuel generalizing fuel' depth text with
  | zero =>
    rw [List.length_eq_zero_iff.1 (Nat.le_zero.1 h)]
    cases fuel' <;> rfl
  | succ fuel ih =>
    cases text with
    | nil => cases fuel' <;> rfl
    | cons c text =>
      obtain ⟨fuel', rfl⟩ : ∃ n, fuel' = n + 1 := Nat.exists_eq_succ_of_ne_zero (by
        rintro rfl
        simp at h')
      rw [List.length_cons] at h h'
      have hread := length_readField_le text
      simp only [fieldSortsFrom]
      split_ifs
      · exact congrArg _ (ih _ (by omega) (by omega))
      · exact ih _ (by omega) (by omega)
      · exact ih _ (by omega) (by omega)
      · exact ih _ (by omega) (by omega)

/-- The sorts that are read from here. -/
def sortsFrom (depth : ℕ) (text : List Char) : List (List Char) :=
  fieldSortsFrom text.length depth text

theorem fieldSortsFrom_eq {text : List Char} {fuel : ℕ} (depth : ℕ) (h : text.length ≤ fuel) :
    fieldSortsFrom fuel depth text = sortsFrom depth text := fieldSortsFrom_fuel depth h le_rfl

/-- A field begins at the third level. -/
theorem sortsFrom_field (text : List Char) :
    sortsFrom 3 ('(' :: text) = (readField text).1 ++ sortsFrom 4 (readField text).2 := by
  rw [← fieldSortsFrom_eq 4 (length_readField_le text)]
  rfl

theorem sortsFrom_open {depth : ℕ} (h : depth ≠ 3) (text : List Char) :
    sortsFrom depth ('(' :: text) = sortsFrom (depth + 1) text := by
  rw [sortsFrom, List.length_cons, fieldSortsFrom, if_pos rfl, if_neg (by omega)]
  rfl

theorem sortsFrom_close (depth : ℕ) (text : List Char) :
    sortsFrom depth (')' :: text) = sortsFrom (depth - 1) text := rfl

theorem sortsFrom_plain {t : List Char} (ht : Plain t) (depth : ℕ) (text : List Char) :
    sortsFrom depth (t ++ text) = sortsFrom depth text := by
  induction t with
  | nil => rfl
  | cons c t ih =>
    have hc := ht c List.mem_cons_self
    rw [List.cons_append, sortsFrom, List.length_cons, fieldSortsFrom, if_neg hc.1, if_neg hc.2]
    exact ih fun d hd => ht d (List.mem_cons_of_mem c hd)

/-- The reader of a field stops at blanks and closing parentheses. -/
theorem readSort_text {t : List Char} (ht : SortText t) {rest : List Char}
    (hrest : ∀ c ∈ rest.head?, c = ' ' ∨ c = ')') : readSort (t ++ rest) = (t, rest) := by
  cases ht with
  | word w =>
    have hstop : ∀ c ∈ w.chars, (c ≠ ')' && c ≠ ' ') = true := fun c hc => by
      simp [(w.plain c hc).2, w.ne_blank hc]
    have hrest' : ∀ c ∈ rest.head?, (c ≠ ')' && c ≠ ' ') = false := fun c hc => by
      rcases hrest c hc with rfl | rfl <;> rfl
    have hopen : ∀ t, w.chars ++ rest ≠ '(' :: t := fun t heq =>
      w.not_paren_prefix [] (prefix_stop (p := fun c => c = '(') (by simp)
        (fun c hc => by rcases hrest c hc with rfl | rfl <;> rfl) ⟨t, heq.symm⟩)
    rw [readSort, List.span_eq_takeWhile_dropWhile, takeWhile_stop hstop hrest',
      dropWhile_stop hstop hrest']
    exact hopen
  | enclosed h =>
    rw [enclose_append, readSort, takeClosed_enclosed h]
    rfl

theorem readField_text (f : Field) (rest : List Char) :
    ∃ text, f.text ++ rest = '(' :: text ∧ readField text = ([f.sort.text], ')' :: rest) := by
  have hblank : ∀ n, ∀ c ∈ List.replicate n ' ', c = ' ' := fun n c hc => List.eq_of_mem_replicate hc
  refine ⟨List.replicate f.before ' ' ++ (f.name.chars ++
    ' ' :: (f.sort.text ++ (List.replicate f.after ' ' ++ ')' :: rest))), ?_, ?_⟩
  · simp [Field.text, enclose_append]
  · have hname : ∀ c ∈ f.name.chars, (c ≠ ' ' && c ≠ ')') = true := fun c hc => by
      simp [(f.name.plain c hc).2, f.name.ne_blank hc]
    have hskip : skipFieldName (List.replicate f.before ' ' ++ (f.name.chars ++
        ' ' :: (f.sort.text ++ (List.replicate f.after ' ' ++ ')' :: rest)))) =
        ' ' :: (f.sort.text ++ (List.replicate f.after ' ' ++ ')' :: rest)) := by
      rw [skipFieldName, dropWhile_stop (fun c hc => by simp [hblank _ c hc]), dropWhile_stop hname]
      · simp
      · obtain ⟨c, t, hc⟩ := List.exists_cons_of_ne_nil f.name.ne_nil
        have hne : c ≠ ' ' := f.name.ne_blank (hc ▸ List.mem_cons_self)
        simp [hc, hne]
    have hstop : ∀ c ∈ (List.replicate f.after ' ' ++ ')' :: rest).head?, c = ' ' ∨ c = ')' := by
      cases f.after <;> simp [List.replicate_succ]
    have hsort := readSort_text f.sort.sortText hstop
    have hclose : (List.replicate f.after ' ' ++ ')' :: rest).dropWhile (· ≠ ')') = ')' :: rest :=
      dropWhile_stop (fun c hc => by simp [hblank _ c hc]) (by simp)
    rw [readField, hskip]
    simp only [hsort, hclose]
    simp [f.sort.sortText.trimmed.ne_nil]

theorem sortsFrom_fieldText (f : Field) (rest : List Char) :
    sortsFrom 3 (f.text ++ rest) = f.sort.text :: sortsFrom 3 rest := by
  obtain ⟨text, htext, hread⟩ := readField_text f rest
  rw [htext, sortsFrom_field, hread, sortsFrom_close]
  rfl

theorem sortsFrom_fields (fs : List (Gap × Field)) (rest : List Char) :
    sortsFrom 3 (fs.flatMap (fun f => f.1.chars ++ f.2.text) ++ rest) =
      fs.map (fun f => f.2.sort.text) ++ sortsFrom 3 rest := by
  induction fs with
  | nil => rfl
  | cons f fs ih =>
    rw [List.flatMap_cons, List.append_assoc, List.append_assoc, sortsFrom_plain f.1.plain,
      sortsFrom_fieldText, ih]
    rfl

theorem sortsFrom_constructorText (c : Constructor) (rest : List Char) :
    sortsFrom 2 (c.text ++ rest) = c.fields.map (fun f => f.2.sort.text) ++ sortsFrom 2 rest := by
  rw [Constructor.text, enclose_append, sortsFrom_open (by decide)]
  simp only [List.append_assoc]
  rw [sortsFrom_plain c.before.plain, sortsFrom_plain c.name.plain, sortsFrom_fields,
    sortsFrom_plain c.after.plain, sortsFrom_close]

theorem sortsFrom_constructors (cs : List (Gap × Constructor)) (rest : List Char) :
    sortsFrom 2 (cs.flatMap (fun c => c.1.chars ++ c.2.text) ++ rest) =
      cs.flatMap (fun c => c.2.fields.map fun f => f.2.sort.text) ++ sortsFrom 2 rest := by
  induction cs with
  | nil => rfl
  | cons c cs ih =>
    rw [List.flatMap_cons, List.append_assoc, List.append_assoc, sortsFrom_plain c.1.plain,
      sortsFrom_constructorText, ih, List.flatMap_cons, List.append_assoc]

/-- The fields of a declaration are read in order. -/
theorem extractFieldSorts_text (d : Datatype) :
    extractFieldSorts d.text = d.sorts.map SortExpr.text := by
  have hword : Plain "declare-datatype".toList := plain_of_all (by decide)
  change sortsFrom 0 d.text = _
  rw [Datatype.text, Datatype.inside, enclose, sortsFrom_open (by decide)]
  simp only [List.append_assoc]
  rw [sortsFrom_plain hword, sortsFrom_plain d.before.plain, sortsFrom_plain d.name.plain,
    sortsFrom_plain d.middle.plain, enclose_append, sortsFrom_open (by decide)]
  simp only [List.append_assoc]
  rw [sortsFrom_constructors, sortsFrom_plain d.inner.plain, sortsFrom_close,
    sortsFrom_plain d.after.plain, sortsFrom_close]
  have hnil : sortsFrom 0 [] = [] := rfl
  simp [hnil, Datatype.sorts, List.map_flatMap, Function.comp_def]

/-! ### Names -/

theorem declareDatatype_eq : declareDatatype = '(' :: "declare-datatype".toList := by decide

theorem declareDatatypes_eq : declareDatatypes = '(' :: "declare-datatypes".toList := by decide

theorem Datatype.text_eq (d : Datatype) : d.text = declareDatatype ++ (d.inside ++ [')']) := by
  rw [Datatype.text, enclose, declareDatatype_eq, List.append_assoc, List.cons_append]

theorem Datatype.inside_eq (d : Datatype) :
    ∃ rest, d.inside = d.before.chars ++ (d.name.chars ++ (d.middle.chars ++ '(' :: rest)) :=
  ⟨_, by rw [Datatype.inside, enclose_append]⟩

theorem extractDtName_text (d : Datatype) : extractDtName d.text = some d.name.chars := by
  have hprefix : d.text.dropPrefix? declareDatatype = some (d.inside ++ [')']) :=
    List.dropPrefix?_eq_some_iff.2 ⟨declareDatatype, d.text_eq, beq_self_eq_true _⟩
  obtain ⟨rest, hrest⟩ := d.inside_eq
  have hname : ∀ c ∈ d.name.chars, (!isWhitespace c && c ≠ '(') = true := fun c hc => by
    simp [not_isWhitespace_of_isWordChar (d.name.isWordChar c hc), (d.name.plain c hc).1]
  have hstop : ∀ c ∈ (d.middle.chars ++ '(' :: (rest ++ [')'])).head?,
      (!isWhitespace c && c ≠ '(') = false := fun c hc => by
    cases hm : d.middle.chars with
    | nil =>
      rw [hm] at hc
      obtain rfl : '(' = c := by simpa using hc
      rfl
    | cons b m =>
      rw [hm] at hc
      obtain rfl : b = c := by simpa using hc
      simp [d.middle.isWhitespace b (hm ▸ List.mem_cons_self)]
  have htrim : trimStart (d.inside ++ [')']) =
      d.name.chars ++ (d.middle.chars ++ '(' :: (rest ++ [')'])) := by
    rw [hrest, List.append_assoc, trimStart_append d.before.isWhitespace]
    simp only [List.append_assoc, List.cons_append]
    obtain ⟨c, t, hc⟩ := List.exists_cons_of_ne_nil d.name.ne_nil
    have hword := not_isWhitespace_of_isWordChar (d.name.isWordChar c (hc ▸ List.mem_cons_self))
    rw [hc, List.cons_append, trimStart, List.dropWhile_cons_of_neg (by simp [hword])]
  rw [extractDtName, hprefix, Option.bind_some, htrim, takeWhile_stop hname hstop]
  simp [d.name.ne_nil]

/-- A `declare-datatype` is no `declare-datatypes`. -/
theorem not_declareDatatypes_prefix (d : Datatype) : ¬ declareDatatypes <+: d.text := by
  rintro ⟨t, ht⟩
  have hs : declareDatatypes = declareDatatype ++ ['s'] := by decide
  rw [d.text_eq, hs, List.append_assoc] at ht
  have hinside := List.append_cancel_left ht
  obtain ⟨c, g, hc⟩ := List.exists_cons_of_ne_nil d.before_ne_nil
  obtain ⟨rest, hrest⟩ := d.inside_eq
  rw [hrest, hc] at hinside
  have hblank := d.before.isWhitespace c (hc ▸ List.mem_cons_self)
  obtain rfl : 's' = c := (List.cons.inj hinside).1
  exact absurd hblank (by decide)

end TrustMc.SmtIo
