import TrustMc.Flow.Forever
import TrustMc.SmtIo.DatatypeBlocks
import Mathlib.Data.List.Nodup

/-!
# Which scripts have complex datatypes

The iteration of `content_has_complex_datatypes` finds the names of the datatypes all of whose
fields are `Simple` (`mem_decidableDtNames`), so that the answer for scripts with `declare-datatype`
commands is exact (`content_has_complex_datatypes_iff`). A `declare-datatypes` command always makes
a script complex.
-/

namespace TrustMc.SmtIo

open Words Budget Relation

/-! ### The iteration -/

/-- The entry of a datatype: its name and the sorts of its fields. -/
def Datatype.entry (d : Datatype) : DtEntry := (d.name.chars, d.sorts.map SortExpr.text)

section Names

variable {datatypes : List Datatype} {names : List (List Char)}

theorem grows_addDecidable {entries : List DtEntry} {entry : DtEntry} (h : entry ∈ entries) :
    Grows (entries.map Prod.fst) names (addDecidable names entry) := by
  rw [addDecidable]
  split_ifs with hmem hdec
  · exact .refl _ _
  · exact .insert (List.mem_map_of_mem h) (by simpa using hmem)
  · exact .refl _ _

theorem grows_decidableRound (entries : List DtEntry) (names : List (List Char)) :
    Grows (entries.map Prod.fst) names (decidableRound entries names) :=
  Grows.foldl (fun _ h _ => grows_addDecidable h) names

/-- The names belong to datatypes all of whose fields are simple. -/
def SimpleNames (datatypes : List Datatype) (names : List (List Char)) : Prop :=
  ∀ n ∈ names, ∃ d ∈ datatypes, d.name.chars = n ∧ ∀ s ∈ d.sorts, Simple datatypes s

theorem SimpleNames.enclose_notMem (h : SimpleNames datatypes names) (t : List Char) :
    enclose t ∉ names := fun hmem => by
  obtain ⟨d, -, hname, -⟩ := h _ hmem
  exact d.name.text_ne_enclose t hname

theorem allDecidable_entry (h : SimpleNames datatypes names) (d : Datatype) :
    allDecidable names d.entry = true ↔ ∀ s ∈ d.sorts, s.DecidableIn names := by
  rw [allDecidable, Datatype.entry, List.all_map, List.all_eq_true]
  exact forall₂_congr fun s _ => isDecidableFieldSort_text h.enclose_notMem (Nat.lt_succ_self _)

theorem SimpleNames.simple (h : SimpleNames datatypes names) {s : SortExpr}
    (hs : s.DecidableIn names) : Simple datatypes s := by
  induction s with
  | symbol w =>
    rcases hs with hs | hs
    · exact .bool hs
    · obtain ⟨d, hd, hname, hsorts⟩ := h _ hs
      exact .datatype hd hname.symm hsorts
  | bitVec width => exact .bitVec width
  | array index elem ihi ihe => exact .array (ihi hs.1) (ihe hs.2)
  | other head args hother => exact hs.elim

theorem SimpleNames.addDecidable (h : SimpleNames datatypes names) {d : Datatype}
    (hd : d ∈ datatypes) : SimpleNames datatypes (addDecidable names d.entry) := by
  rw [SmtIo.addDecidable]
  split_ifs with hmem hdec
  · exact h
  · intro n hn
    rcases List.mem_append.1 hn with hn | hn
    · exact h n hn
    · refine ⟨d, hd, (List.mem_singleton.1 hn).symm, fun s hs => h.simple ?_⟩
      exact (allDecidable_entry h d).1 hdec s hs
  · exact h

theorem SimpleNames.decidableRound (h : SimpleNames datatypes names) :
    SimpleNames datatypes (decidableRound (datatypes.map Datatype.entry) names) := by
  have hfold : ∀ ds ⊆ datatypes, ∀ names, SimpleNames datatypes names →
      SimpleNames datatypes ((ds.map Datatype.entry).foldl SmtIo.addDecidable names) := by
    intro ds
    induction ds with
    | nil => exact fun _ _ hn => hn
    | cons d ds ih =>
      intro hsub names hn
      rw [List.map_cons, List.foldl_cons]
      exact ih (fun x hx => hsub (List.mem_cons_of_mem d hx)) _
        (hn.addDecidable (hsub List.mem_cons_self))
  exact hfold datatypes (List.Subset.refl _) names h

theorem simpleNames_decidableDtNames (datatypes : List Datatype) :
    SimpleNames datatypes (decidableDtNames (datatypes.map Datatype.entry)) :=
  untilStable_induction (P := SimpleNames datatypes) (fun _ h => h.decidableRound)
    fun _ hn => absurd hn List.not_mem_nil

/-- At the end every datatype with decidable fields has been added. -/
theorem decidableDtNames_closed {d : Datatype} (hd : d ∈ datatypes)
    (hsorts : ∀ s ∈ d.sorts, s.DecidableIn (decidableDtNames (datatypes.map Datatype.entry))) :
    d.name.chars ∈ decidableDtNames (datatypes.map Datatype.entry) := by
  have hmem : d.entry ∈ datatypes.map Datatype.entry := List.mem_map_of_mem hd
  have hstable : decidableRound (datatypes.map Datatype.entry)
      (decidableDtNames (datatypes.map Datatype.entry)) =
        decidableDtNames (datatypes.map Datatype.entry) :=
    untilStable_stable_of_grows (grows_decidableRound _) (by simp) []
  have hfix := Grows.foldl_eq_self (fun _ h _ => grows_addDecidable h) hstable hmem
  by_contra hnot
  rw [SmtIo.addDecidable, if_neg (by simpa [Datatype.entry] using hnot),
    if_pos ((allDecidable_entry (simpleNames_decidableDtNames datatypes) d).2 hsorts)] at hfix
  simp at hfix

theorem Simple.decidableIn {s : SortExpr} (h : Simple datatypes s) :
    s.DecidableIn (decidableDtNames (datatypes.map Datatype.entry)) := by
  induction h with
  | bool h => exact .inl h
  | bitVec width => trivial
  | array _ _ ihi ihe => exact ⟨ihi, ihe⟩
  | datatype hd hname _ ih => exact .inr (hname ▸ decidableDtNames_closed hd ih)

/-- **The names that are found.** -/
theorem mem_decidableDtNames (hnodup : (datatypes.map fun d => d.name.chars).Nodup) {d : Datatype}
    (hd : d ∈ datatypes) : d.name.chars ∈ decidableDtNames (datatypes.map Datatype.entry) ↔
      ∀ s ∈ d.sorts, Simple datatypes s := by
  constructor
  · intro hmem
    obtain ⟨d', hd', hname, hsorts⟩ := simpleNames_decidableDtNames datatypes _ hmem
    rwa [List.inj_on_of_nodup_map hnodup hd' hd hname] at hsorts
  · exact fun h => decidableDtNames_closed hd fun s hs => (h s hs).decidableIn

end Names

/-! ### The answer -/

theorem dtEntry_text (d : Declaration) : dtEntry d.text = d.datatype?.map Datatype.entry := by
  cases d with
  | datatype d =>
    have hno : declareDatatypes.isPrefixOf d.text = false :=
      Bool.eq_false_iff.2 fun h => not_declareDatatypes_prefix d (List.isPrefixOf_iff_prefix.1 h)
    rw [Declaration.text, dtEntry, hno, extractDtName_text, extractFieldSorts_text]
    rfl
  | datatypes inside h =>
    have hyes : declareDatatypes.isPrefixOf (Declaration.datatypes inside h).text = true := by
      refine List.isPrefixOf_iff_prefix.2 ⟨inside ++ [')'], ?_⟩
      rw [Declaration.text, declareDatatypes_eq, enclose, List.append_assoc, List.cons_append]
    rw [dtEntry, hyes]
    rfl

theorem declareDatatypes_isPrefixOf_text (d : Declaration) :
    declareDatatypes.isPrefixOf d.text = d.datatype?.isNone := by
  cases d with
  | datatype d =>
    exact Bool.eq_false_iff.2 fun h =>
      not_declareDatatypes_prefix d (List.isPrefixOf_iff_prefix.1 h)
  | datatypes inside h =>
    refine List.isPrefixOf_iff_prefix.2 ⟨inside ++ [')'], ?_⟩
    rw [Declaration.text, declareDatatypes_eq, enclose, List.append_assoc, List.cons_append]

/-- What the code computes from the declarations. -/
theorem contentHasComplexDatatypes_eq {ds : List Declaration} {content : List Char}
    (h : Lays ds (lines content)) :
    contentHasComplexDatatypes content = (ds.any (·.datatype?.isNone) ||
      (datatypesOf ds).any fun d =>
        !(decidableDtNames ((datatypesOf ds).map Datatype.entry)).contains d.name.chars) := by
  have hentries : (ds.map Declaration.text).filterMap dtEntry =
      (datatypesOf ds).map Datatype.entry := by
    rw [List.filterMap_map, datatypesOf, List.map_filterMap]
    exact List.filterMap_congr fun d _ => dtEntry_text d
  have hany : (ds.map Declaration.text).any declareDatatypes.isPrefixOf =
      ds.any (·.datatype?.isNone) := by
    rw [List.any_map]
    exact congrArg ds.any (funext declareDatatypes_isPrefixOf_text)
  rw [contentHasComplexDatatypes, collectDatatypeDeclBlocks_eq h, hany, hentries]
  by_cases hnil : ds = []
  · subst hnil
    rfl
  · have hempty : (ds.map Declaration.text).isEmpty = false := by simpa using hnil
    rw [hempty]
    by_cases hpar : ds.any (·.datatype?.isNone) = true
    · rw [hpar]
      rfl
    · rw [Bool.eq_false_iff.2 hpar]
      exact List.any_map

/-- A datatype that uses itself, directly or through others, has a field that is not simple. -/
theorem acc_of_simple (script : Script) {s : SortExpr}
    (h : Simple (datatypesOf script.declarations) s) {d : Datatype} (hd : d ∈ datatypesOf script.declarations) (hs : s.Mentions d.name.chars) :
    Acc (Function.swap (Uses (datatypesOf script.declarations))) d := by
  induction h generalizing d with
  | bool hw => exact absurd (hs.symm.trans hw) (script.ne_bool d hd)
  | bitVec => exact hs.elim
  | array _ _ ihi ihe => exact hs.elim (ihi hd) (ihe hd)
  | datatype hd' hname _ ih =>
    obtain rfl := List.inj_on_of_nodup_map script.nodup hd' hd (hname.symm.trans hs)
    refine Acc.intro _ fun e he => ?_
    obtain ⟨hmem, s', hs', hmention⟩ := he
    exact ih s' hs' hmem hmention

theorem not_cycle_of_simple (script : Script) {d : Datatype}
    (h : ∀ s ∈ d.sorts, Simple (datatypesOf script.declarations) s) :
    ¬ TransGen (Uses (datatypesOf script.declarations)) d d := by
  intro hcycle
  have hacc : Acc (Function.swap (Uses (datatypesOf script.declarations))) d := by
    refine Acc.intro _ fun e he => ?_
    obtain ⟨hmem, s, hs, hmention⟩ := he
    exact acc_of_simple script (h s hs) hmem hmention
  obtain ⟨run, hrun⟩ := Flow.runsForever_of_cycle hcycle
  exact not_acc_iff_exists_descending_chain.2 ⟨run, hrun⟩ hacc

/-- **Complex datatypes.** -/
theorem content_has_complex_datatypes_iff (script : Script) {content : List Char}
    (h : Lays script.declarations (lines content)) :
    (contentHasComplexDatatypes content = false ↔
      (∀ d ∈ script.declarations, d.datatype? ≠ none) ∧
        ∀ d ∈ datatypesOf script.declarations, ∀ s ∈ d.sorts,
          Simple (datatypesOf script.declarations) s) ∧
      ∀ d ∈ datatypesOf script.declarations,
        TransGen (Uses (datatypesOf script.declarations)) d d →
          contentHasComplexDatatypes content = true := by
  have hexact : contentHasComplexDatatypes content = false ↔
      (∀ d ∈ script.declarations, d.datatype? ≠ none) ∧
        ∀ d ∈ datatypesOf script.declarations, ∀ s ∈ d.sorts,
          Simple (datatypesOf script.declarations) s := by
    rw [contentHasComplexDatatypes_eq h, Bool.or_eq_false_iff, List.any_eq_false, List.any_eq_false]
    refine and_congr (forall₂_congr fun d _ => by simp) (forall₂_congr fun d hd => ?_)
    rw [← mem_decidableDtNames script.nodup hd]
    simp
  refine ⟨hexact, fun d hd hcycle => ?_⟩
  by_contra hno
  have hall := (hexact.1 (Bool.eq_false_iff.2 hno)).2
  exact not_cycle_of_simple script (hall d hd) hcycle

/-! ### A script -/

def wordD : Word := ⟨['D'], by decide, List.all_eq_true.1 (by decide)⟩

def wordMk : Word := ⟨['m', 'k'], by decide, List.all_eq_true.1 (by decide)⟩

def wordX : Word := ⟨['x'], by decide, List.all_eq_true.1 (by decide)⟩

def wordBool : Word := ⟨"Bool".toList, by decide, List.all_eq_true.1 (by decide)⟩

def wordEight : Word := ⟨['8'], by decide, List.all_eq_true.1 (by decide)⟩

def blank : Gap := ⟨[' '], List.all_eq_true.1 (by decide)⟩

def noGap : Gap := ⟨[], List.all_eq_true.1 (by decide)⟩

/-- `(declare-datatype D ( (mk (x (Array (_ BitVec 8) Bool)))))`. -/
def datatypeD : Datatype where
  before := blank
  before_ne_nil := by decide
  name := wordD
  middle := blank
  constructors := [(blank, {
    before := noGap
    name := wordMk
    fields := [(blank, ⟨0, wordX, .array (.bitVec wordEight) (.symbol wordBool), 0⟩)]
    after := noGap })]
  inner := noGap
  after := noGap

def scriptD : Script where
  declarations := [.datatype datatypeD]
  nodup := List.nodup_singleton _
  ne_bool := fun d hd => by
    obtain rfl : d = datatypeD := by simpa [datatypesOf, Declaration.datatype?] using hd
    decide

def contentD : List Char :=
  "(set-logic ALL)\n(declare-datatype D ( ; a field\n  (mk (x (Array (_ BitVec 8) Bool)))))\n".toList

theorem lays_contentD : Lays scriptD.declarations (lines contentD) := by
  have hlines : lines contentD = "(set-logic ALL)".toList ::
      (["(declare-datatype D ( ; a field".toList,
        "  (mk (x (Array (_ BitVec 8) Bool)))))".toList] ++ []) := by decide +kernel
  rw [hlines]
  exact .other (by decide +kernel) (.declaration (by decide +kernel) .nil)

/-- An array of Booleans is simple. -/
theorem contentD_not_complex : contentHasComplexDatatypes contentD = false := by
  refine (content_has_complex_datatypes_iff scriptD lays_contentD).1.2
    ⟨by decide, fun d hd s hs => ?_⟩
  obtain rfl : d = datatypeD := by simpa [scriptD, datatypesOf, Declaration.datatype?] using hd
  obtain rfl : s = .array (.bitVec wordEight) (.symbol wordBool) := by
    simpa [Datatype.sorts, datatypeD] using hs
  exact .array (.bitVec _) (.bool rfl)

/-- **The layout decides.** One datatype with a Boolean field is complex in a `declare-datatypes`
and with a `par` header, and is not in a plain `declare-datatype`. -/
theorem declareDatatypes_complex :
    contentHasComplexDatatypes "(declare-datatypes ((D 0)) (((mk (x Bool)))))".toList = true ∧
      contentHasComplexDatatypes "(declare-datatype D (par (X) ((mk (x Bool)))))".toList = true ∧
      contentHasComplexDatatypes "(declare-datatype D ((mk (x Bool))))".toList = false := by
  decide +kernel

end TrustMc.SmtIo
