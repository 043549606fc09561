import TrustMc.SmtIo.DatatypeReading

/-!
# The blocks of a script

The lines of a script are collected into the texts of its declarations
(`collectDatatypeDeclBlocks_eq`): a declaration that is not at its end has an open parenthesis.
-/

namespace TrustMc.SmtIo

open Words

/-! ### Blocks -/

/-- Lines that say nothing are passed over. -/
theorem foldl_addLine (st : Collector) (ls : List (List Char)) :
    ls.foldl Collector.addLine st =
      ((ls.map lineCode).filter (· ≠ [])).foldl Collector.addCode st := by
  induction ls generalizing st with
  | nil => rfl
  | cons line ls ih =>
    rw [List.foldl_cons, ih, List.map_cons, Collector.addLine]
    by_cases h : lineCode line = []
    · simp [h]
    · simp [h]

theorem addCode_open {st : Collector} (h : st.collecting = false) {code : List Char}
    (hcode : declareDatatype <+: code) :
    st.addCode code = { st with
      collecting := true, current := code, parenDepth := balance code : Collector }.close := by
  rw [Collector.addCode, h, List.isPrefixOf_iff_prefix.2 hcode]
  rfl

theorem addCode_other {st : Collector} (h : st.collecting = false) {code : List Char}
    (hcode : ¬ declareDatatype <+: code) : st.addCode code = st := by
  have hs : ¬ declareDatatypes <+: code := fun hp =>
    hcode ((by decide : declareDatatype <+: declareDatatypes).trans hp)
  have h₁ := Bool.eq_false_iff.2 (mt List.isPrefixOf_iff_prefix.1 hcode)
  have h₂ := Bool.eq_false_iff.2 (mt List.isPrefixOf_iff_prefix.1 hs)
  rw [Collector.addCode, h, h₁, h₂]
  rfl

theorem addCode_collecting {st : Collector} (h : st.collecting = true)
    (hlast : st.current.getLast? ≠ some ' ') (code : List Char) :
    st.addCode code = { st with
      current := st.current ++ ' ' :: code
      parenDepth := st.parenDepth + balance code : Collector }.close := by
  rw [Collector.addCode, h, if_neg hlast]
  simp

/-- The collector between two declarations, with these blocks. -/
def Idle (st : Collector) (blocks : List (List Char)) : Prop :=
  st.collecting = false ∧ st.blocks = blocks

theorem idle_close {st : Collector} (h : st.parenDepth = 0) :
    Idle st.close (st.blocks ++ [st.current]) := by
  rw [Collector.close, if_pos h.le]
  exact ⟨rfl, rfl⟩

theorem close_eq_self {st : Collector} (h : 0 < st.parenDepth) : st.close = st := by
  rw [Collector.close, if_neg (not_le.2 h)]

/-- The lines of a declaration after some of them: `st.current` is what was said so far. -/
theorem foldl_addCode_collecting {u : List Char} (hu : Nested u) {codes : List (List Char)}
    (hcodes : ∀ code ∈ codes, Trimmed code) (hne : codes ≠ []) {st : Collector}
    (hst : st.collecting = true) (hcurrent : Trimmed st.current)
    (hdepth : st.parenDepth = balance st.current)
    (htext : st.current ++ ' ' :: [' '].intercalate codes = enclose u) :
    Idle (codes.foldl Collector.addCode st) (st.blocks ++ [enclose u]) := by
  induction codes generalizing st with
  | nil => exact absurd rfl hne
  | cons code codes ih =>
    have hcode := hcodes code List.mem_cons_self
    have hlast : st.current.getLast? ≠ some ' ' := fun h => by
      rw [List.getLast?_eq_some_getLast hcurrent.ne_nil] at h
      have hblank := hcurrent.getLast_eq
      rw [Option.some.inj h] at hblank
      exact absurd hblank (by decide)
    have hbalance : st.parenDepth + balance code = balance (st.current ++ ' ' :: code) := by
      have hstep : parenStep ' ' = 0 := rfl
      rw [balance_append, balance_cons, hstep, zero_add, hdepth]
    rw [List.foldl_cons, addCode_collecting hst hlast]
    by_cases hnil : codes = []
    · subst hnil
      rw [List.intercalate_singleton] at htext
      have hzero : st.parenDepth + balance code = 0 := by
        rw [hbalance, htext, hu.enclose.balance_eq]
      have hidle := @idle_close { st with
        current := st.current ++ ' ' :: code
        parenDepth := st.parenDepth + balance code } hzero
      rw [← htext]
      exact hidle
    · rw [List.intercalate_cons_of_ne_nil hnil] at htext
      have htext' : (st.current ++ ' ' :: code) ++ ' ' :: [' '].intercalate codes = enclose u := by
        rw [← htext]
        simp
      -- more is to come, so that a parenthesis is open
      have hpos : 0 < balance (st.current ++ ' ' :: code) := by
        refine hu.balance_pos_of_prefix ⟨_, htext'⟩ (by simp) fun heq => ?_
        rw [heq] at htext'
        simp at htext'
      rw [close_eq_self (hbalance ▸ hpos)]
      have htrimmed : Trimmed (st.current ++ ' ' :: code) := by
        refine ⟨by simp, ?_, ?_⟩
        · rw [List.head_append_of_ne_nil hcurrent.ne_nil]
          exact hcurrent.head_eq
        · rw [List.getLast_append_of_ne_nil _ (by simp), List.getLast_cons hcode.ne_nil]
          exact hcode.getLast_eq
      exact ih (fun c hc => hcodes c (List.mem_cons_of_mem _ hc)) hnil hst htrimmed hbalance htext'

/-- The lines of a whole declaration. -/
theorem foldl_addCode_block {u : List Char} (hu : Nested u) {codes : List (List Char)}
    (hcodes : ∀ code ∈ codes, Trimmed code) (hdecl : declareDatatype <+: enclose u)
    (htext : [' '].intercalate codes = enclose u) {st : Collector} (hst : st.collecting = false) :
    Idle (codes.foldl Collector.addCode st) (st.blocks ++ [enclose u]) := by
  cases codes with
  | nil => cases htext
  | cons code codes =>
    have hcode := hcodes code List.mem_cons_self
    by_cases hnil : codes = []
    · subst hnil
      rw [List.intercalate_singleton] at htext
      rw [List.foldl_cons, List.foldl_nil, addCode_open hst (htext ▸ hdecl)]
      have hzero : balance code = 0 := htext ▸ hu.enclose.balance_eq
      have hidle := @idle_close { st with
        collecting := true, current := code, parenDepth := balance code } hzero
      rw [← htext]
      exact hidle
    · rw [List.intercalate_cons_of_ne_nil hnil, List.append_assoc, List.singleton_append] at htext
      -- the keyword has no blank, so that it ends within the first line
      have hstop : ∀ c ∈ declareDatatype, decide (c ≠ ' ') = true :=
        List.all_eq_true.1 (by decide)
      have hstart : declareDatatype <+: code := prefix_stop hstop (by simp) (htext ▸ hdecl)
      have hpos : 0 < balance code := by
        refine hu.balance_pos_of_prefix ⟨_, htext⟩ hcode.ne_nil fun heq => ?_
        rw [heq] at htext
        simp at htext
      rw [List.foldl_cons, addCode_open hst hstart, close_eq_self hpos]
      exact foldl_addCode_collecting hu (fun c hc => hcodes c (List.mem_cons_of_mem _ hc)) hnil rfl
        hcode rfl htext

theorem Datatype.nested_inside (d : Datatype) : Nested ("declare-datatype".toList ++ d.inside) := by
  have hword : Plain "declare-datatype".toList := plain_of_all (by decide)
  have hblanks : ∀ n, Nested (List.replicate n ' ') := fun n =>
    Plain.nested fun c hc => by rw [List.eq_of_mem_replicate hc]; decide
  have hfield : ∀ f : Field, Nested f.text := fun f =>
    ((hblanks _).append (f.name.plain.nested.append
      (.char (by decide) (f.sort.sortText.nested.append (hblanks _))))).enclose
  have hflat : ∀ {α : Type} (xs : List α) (f : α → List Char), (∀ x, Nested (f x)) →
      Nested (xs.flatMap f) := fun xs f hf => by
    induction xs with
    | nil => exact .nil
    | cons x xs ih => exact (hf x).append ih
  have hconstructor : ∀ c : Constructor, Nested c.text := fun c =>
    (c.before.plain.nested.append (c.name.plain.nested.append
      ((hflat _ _ fun f => f.1.plain.nested.append (hfield f.2)).append
        c.after.plain.nested))).enclose
  exact hword.nested.append (d.before.plain.nested.append (d.name.plain.nested.append
    (d.middle.plain.nested.append
      (((hflat _ _ fun c => c.1.plain.nested.append (hconstructor c.2)).append
        d.inner.plain.nested).enclose.append d.after.plain.nested))))

/-- A declaration begins with its keyword and is in parentheses. -/
theorem Declaration.exists_nested (d : Declaration) :
    ∃ u, Nested u ∧ d.text = enclose u ∧ declareDatatype <+: enclose u := by
  cases d with
  | datatype d =>
    refine ⟨_, d.nested_inside, rfl, ?_⟩
    exact ⟨d.inside ++ [')'], d.text_eq.symm⟩
  | datatypes inside h =>
    have hword : Plain "declare-datatypes".toList := plain_of_all (by decide)
    have hs : declareDatatypes = declareDatatype ++ ['s'] := by decide
    refine ⟨_, hword.nested.append h, rfl, ['s'] ++ (inside ++ [')']), ?_⟩
    rw [← List.append_assoc, ← hs, declareDatatypes_eq, enclose, List.append_assoc,
      List.cons_append]

theorem foldl_addLine_lays {ds : List Declaration} {ls : List (List Char)} (h : Lays ds ls)
    {st : Collector} (hst : st.collecting = false) :
    Idle (ls.foldl Collector.addLine st) (st.blocks ++ ds.map Declaration.text) := by
  induction h generalizing st with
  | nil => exact ⟨hst, (List.append_nil _).symm⟩
  | @other line ds ls hline _ ih =>
    have hskip : st.addLine line = st := by
      rw [Collector.addLine]
      by_cases hnil : lineCode line = []
      · simp [hnil]
      · simp [hnil, addCode_other hst hline]
    rw [List.foldl_cons, hskip]
    exact ih hst
  | @declaration d block ds ls hblock _ ih =>
    obtain ⟨u, hu, htext, hdecl⟩ := d.exists_nested
    have hcodes : ∀ code ∈ (block.map lineCode).filter (· ≠ []), Trimmed code := fun code hc => by
      obtain ⟨hmem, hne⟩ := List.mem_filter.1 hc
      obtain ⟨line, -, rfl⟩ := List.mem_map.1 hmem
      exact trimmed_trim (of_decide_eq_true hne)
    have hidle := foldl_addCode_block hu hcodes hdecl (hblock.trans htext) hst
    rw [List.foldl_append, List.map_cons, foldl_addLine st block]
    have hrest := ih hidle.1
    rwa [hidle.2, ← htext, List.append_assoc, List.singleton_append] at hrest

/-- **The declarations are found**, in order. -/
theorem collectDatatypeDeclBlocks_eq {ds : List Declaration} {content : List Char}
    (h : Lays ds (lines content)) :
    collectDatatypeDeclBlocks content = ds.map Declaration.text := by
  obtain ⟨hst, hblocks⟩ := @foldl_addLine_lays _ _ h ⟨[], [], false, 0⟩ rfl
  rw [collectDatatypeDeclBlocks, hst, hblocks]
  simp

end TrustMc.SmtIo
