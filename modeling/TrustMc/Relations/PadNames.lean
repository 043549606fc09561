import TrustMc.Relations.Canonical
import TrustMc.Words.Runs
import TrustMc.Words.Separator

/-!
# The names of pads

A pad is named after the relation and the index of its slot, and two of the three functions that
build pads add a tag for the sort, so that equal names imply equal sorts. `pad_var`, the third,
does not, and the tag keeps of the sort's text only its runs of letters and digits.

* `padSortTag_eq_iff`: two sorts have one tag exactly if their texts have the same runs.
* `Pad.name_eq_iff`: the names of two pads of one function's relations are equal exactly if they
  are built alike, for one slot and, where there is a tag, for sorts whose texts have the same
  runs.
* `sort_eq_of_name_eq_iff`: when equal names do imply equal sorts.
-/

namespace TrustMc

namespace Relations

/-! ### Tags -/

/-- The runs of letters and digits in the text of a sort. -/
def sortWords (showSort : SmtSort → String) (sort : SmtSort) : List (List Char) :=
  Words.runs Char.isAlphanum (showSort sort).toList

variable {showSort : SmtSort → String}

/-- A tag is the runs of the sort's text, joined by underscores. -/
theorem toList_padSortTag (sort : SmtSort) :
    (padSortTag showSort sort).toList = ['_'].intercalate (sortWords showSort sort) := by
  rw [padSortTag, String.toList_ofList, sortWords, ← Words.trim_collapse (by decide)]
  rfl

/-- **Tags** tell sorts apart whose texts have different runs, and no others. -/
theorem padSortTag_eq_iff {s t : SmtSort} :
    padSortTag showSort s = padSortTag showSort t ↔
      sortWords showSort s = sortWords showSort t := by
  constructor
  · intro h
    have hlist := congrArg String.toList h
    rw [toList_padSortTag, toList_padSortTag] at hlist
    exact Words.runs_eq_of_intercalate (by decide) hlist
  · intro h
    rw [← String.toList_inj, toList_padSortTag, toList_padSortTag, h]

/-! ### Pads -/

/-- `block_relation_name`, for the function that is translated. Only these relations have
arguments. -/
def blockRelationName (fnName : String) (bb : ℕ) : String := fnName ++ "__bb" ++ toString bb

/-- The functions that build pads. -/
inductive PadBuilder
  /-- `pad_var`, which the alignments of `fixup_relation_app_arities` call. -/
  | untagged
  /-- The pads of its last resort. -/
  | tagged
  /-- `pad` of `canonicalize_block_relation_apps`. -/
  | canonical
  deriving DecidableEq

/-- What a pad is built from. -/
structure Pad where
  builder : PadBuilder
  /-- The block of the relation. -/
  bb : ℕ
  /-- The index of the slot. -/
  idx : ℕ
  /-- The sort declared for the slot when the pad is built. -/
  sort : SmtSort

namespace Pad

/-- The name that the pad gets. -/
def name (showSort : SmtSort → String) (fnName : String) (pad : Pad) : String :=
  let relName := blockRelationName fnName pad.bb
  match pad.builder with
  | .untagged => padName relName pad.idx
  | .tagged => padName relName pad.idx ++ "_" ++ padSortTag showSort pad.sort
  | .canonical => cpadName showSort relName pad.idx pad.sort

/-- The variable that is put in. -/
def expr (showSort : SmtSort → String) (fnName : String) (pad : Pad) : Expr :=
  .var (pad.name showSort fnName) pad.sort

/-- The pads have different names: they are built in different ways or for different slots, or
with tags of different runs. -/
def Apart (showSort : SmtSort → String) (p q : Pad) : Prop :=
  p.builder ≠ q.builder ∨ p.bb ≠ q.bb ∨ p.idx ≠ q.idx ∨
    (p.builder ≠ .untagged ∧ sortWords showSort p.sort ≠ sortWords showSort q.sort)

/-- The text after the block's relation name: the slot, and the tag if there is one. -/
private def ending (showSort : SmtSort → String) (pad : Pad) : List Char :=
  match pad.builder with
  | .untagged => Nat.toDigits 10 pad.idx
  | .tagged | .canonical =>
    Nat.toDigits 10 pad.idx ++ '_' :: (padSortTag showSort pad.sort).toList

private def beginning (fnName : String) (pad : Pad) : List Char :=
  match pad.builder with
  | .untagged | .tagged => "__pad_".toList ++ fnName.toList ++ "__bb".toList
  | .canonical => "__cpad_".toList ++ fnName.toList ++ "__bb".toList

theorem toList_name (fnName : String) (pad : Pad) :
    (pad.name showSort fnName).toList =
      pad.beginning fnName ++ Nat.toDigits 10 pad.bb ++ '_' :: pad.ending showSort := by
  obtain ⟨builder, bb, idx, sort⟩ := pad
  cases builder <;> simp [name, padName, cpadName, blockRelationName, beginning, ending]

private theorem not_infix_toDigits (n : ℕ) : ¬ "_".toList <:+: Nat.toDigits 10 n :=
  Words.not_infix_toDigits ⟨'_', by decide, by decide⟩

/-- A numeral before an underscore is determined. -/
private theorem toDigits_append_inj {m n : ℕ} {x y : List Char}
    (h : Nat.toDigits 10 m ++ '_' :: x = Nat.toDigits 10 n ++ '_' :: y) : m = n ∧ x = y := by
  have hsep : Words.Unbordered "_".toList := by decide
  obtain ⟨hdigits, hrest⟩ :=
    Words.append_inj_of_unbordered hsep (not_infix_toDigits m) (not_infix_toDigits n) h
  exact ⟨Words.toDigits_inj hdigits, hrest⟩

private theorem toDigits_ne_append (m n : ℕ) (x : List Char) :
    Nat.toDigits 10 m ≠ Nat.toDigits 10 n ++ '_' :: x :=
  fun h => not_infix_toDigits m ⟨Nat.toDigits 10 n, x, by simp [h]⟩

/-- The names of a pad and of one that another pass builds begin differently. -/
private theorem beginning_inj {fnName : String} {p q : Pad} {x y : List Char}
    (h : p.beginning fnName ++ x = q.beginning fnName ++ y) :
    (p.builder = .canonical ↔ q.builder = .canonical) ∧ x = y := by
  obtain ⟨builder, bb, idx, sort⟩ := p
  obtain ⟨builder', bb', idx', sort'⟩ := q
  cases builder <;> cases builder' <;> simp_all [beginning]

private theorem ending_inj {p q : Pad} (h : p.ending showSort = q.ending showSort)
    (hcanonical : p.builder = .canonical ↔ q.builder = .canonical) :
    p.builder = q.builder ∧ p.idx = q.idx ∧
      (p.builder ≠ .untagged → padSortTag showSort p.sort = padSortTag showSort q.sort) := by
  obtain ⟨builder, bb, idx, sort⟩ := p
  obtain ⟨builder', bb', idx', sort'⟩ := q
  have htags : ∀ {m n : ℕ} {s t : SmtSort},
      Nat.toDigits 10 m ++ '_' :: (padSortTag showSort s).toList =
        Nat.toDigits 10 n ++ '_' :: (padSortTag showSort t).toList →
      m = n ∧ padSortTag showSort s = padSortTag showSort t := by
    intro m n s t heq
    obtain ⟨hidx, htag⟩ := toDigits_append_inj heq
    exact ⟨hidx, String.toList_inj.1 htag⟩
  cases builder with
  | untagged =>
    cases builder' with
    | untagged => exact ⟨rfl, Words.toDigits_inj h, fun hne => absurd rfl hne⟩
    | tagged => exact absurd h (toDigits_ne_append _ _ _)
    | canonical => exact absurd (hcanonical.2 rfl) nofun
  | tagged =>
    cases builder' with
    | untagged => exact absurd h.symm (toDigits_ne_append _ _ _)
    | tagged => exact ⟨rfl, (htags h).1, fun _ => (htags h).2⟩
    | canonical => exact absurd (hcanonical.2 rfl) nofun
  | canonical =>
    cases builder' with
    | untagged | tagged => exact absurd (hcanonical.1 rfl) nofun
    | canonical => exact ⟨rfl, (htags h).1, fun _ => (htags h).2⟩

/-- **The name of a pad** determines its block, its index, how it was built and, if it has a tag,
the runs of its sort's text; nothing else of the sort. -/
theorem name_eq_iff {fnName : String} {p q : Pad} :
    p.name showSort fnName = q.name showSort fnName ↔ ¬ p.Apart showSort q := by
  constructor
  · intro h
    have hlist := congrArg String.toList h
    rw [toList_name, toList_name, List.append_assoc, List.append_assoc] at hlist
    obtain ⟨hcanonical, hrest⟩ := beginning_inj hlist
    obtain ⟨hbb, hending⟩ := toDigits_append_inj hrest
    obtain ⟨hbuilder, hidx, htag⟩ := ending_inj hending hcanonical
    rintro (hne | hne | hne | ⟨htagged, hne⟩)
    · exact hne hbuilder
    · exact hne hbb
    · exact hne hidx
    · exact hne (padSortTag_eq_iff.1 (htag htagged))
  · intro h
    obtain ⟨builder, bb, idx, sort⟩ := p
    obtain ⟨builder', bb', idx', sort'⟩ := q
    simp only [Apart, not_or, not_and, not_not] at h
    obtain ⟨rfl, rfl, rfl, hwords⟩ := h
    cases builder with
    | untagged => rfl
    | tagged => simp only [name, padSortTag_eq_iff.2 (hwords nofun)]
    | canonical => simp only [name, cpadName, padSortTag_eq_iff.2 (hwords nofun)]

end Pad

/-- **Pad names determine sorts** for two pads of a function's relations exactly if the pads have
one sort, or are built in different ways, or for different slots, or have tags and the texts of
their sorts have different runs of letters and digits. -/
theorem sort_eq_of_name_eq_iff (showSort : SmtSort → String) (fnName : String) (p q : Pad) :
    (p.name showSort fnName = q.name showSort fnName → p.sort = q.sort) ↔
      p.sort = q.sort ∨ p.Apart showSort q := by
  rw [Pad.name_eq_iff]
  exact or_iff_not_imp_right.symm

/-! ### Where names collide -/

/-- The text of a sort in SMT-LIB's syntax. -/
def smtText : SmtSort → String
  | .bool => "Bool"
  | .int => "Int"
  | .real => "Real"
  | .bitvec w => "(_ BitVec " ++ toString w ++ ")"
  | .array index element => "(Array " ++ smtText index ++ " " ++ smtText element ++ ")"
  | .datatype name _ => name
  | .floatingPoint ebits sbits =>
    "(_ FloatingPoint " ++ toString ebits ++ " " ++ toString sbits ++ ")"
  | .string => "String"
  | .regLan => "RegLan"
  | .seq element => "(Seq " ++ smtText element ++ ")"
  | .uninterpreted name => name

/-- The relation had a Boolean column before one of 64 bits was put in front of it: the first
application was padded before, the second one is padded now. -/
def shiftedVc : ChcVc :=
  { vars := [("x", .int), ("y", .bitvec 64), ("__pad_f__bb2_1", .bool)]
    relations := [⟨"f__bb2", [.int, .bitvec 64, .bool]⟩]
    rules :=
      [⟨⟨none, []⟩,
          ⟨"f__bb2", [.var "x" .int, .var "y" (.bitvec 64), .var "__pad_f__bb2_1" .bool]⟩⟩,
        ⟨⟨none, []⟩, ⟨"f__bb2", [.var "x" .int]⟩⟩]
    target := none
    triviallySafeDischarged := false }

/-- `struct A_B { fld0: u32 }` -/
def oneUnderscore : SmtSort := .datatype "A_B" [.mk "A_B_mk" [.mk "fld0" (.bitvec 32)]]

/-- `struct A__B { fld0: u64 }` -/
def twoUnderscores : SmtSort := .datatype "A__B" [.mk "A__B_mk" [.mk "fld0" (.bitvec 64)]]

/-- One name stands for a Boolean and a bit-vector in one system, and one tag for two structs. -/
theorem padNames_collide :
    (Pad.name smtText "f" ⟨.untagged, 2, 1, .bool⟩ =
        Pad.name smtText "f" ⟨.untagged, 2, 1, .bitvec 64⟩ ∧
      (fixupRelationAppArities smtText shiftedVc).rules.map (·.head.args) =
        [[.var "x" .int, .var "y" (.bitvec 64), Pad.expr smtText "f" ⟨.untagged, 2, 1, .bool⟩],
          [.var "x" .int, Pad.expr smtText "f" ⟨.untagged, 2, 1, .bitvec 64⟩,
            Pad.expr smtText "f" ⟨.untagged, 2, 2, .bool⟩]] ∧
      (fixupRelationAppArities smtText shiftedVc).vars.lookup "__pad_f__bb2_1" = some .bool) ∧
    Pad.name smtText "f" ⟨.tagged, 2, 1, oneUnderscore⟩ =
        Pad.name smtText "f" ⟨.tagged, 2, 1, twoUnderscores⟩ ∧
      padSortTag smtText oneUnderscore = padSortTag smtText twoUnderscores ∧
      oneUnderscore ≠ twoUnderscores := by
  decide +kernel

/-! ### Where tags determine sorts -/

/-- The words that begin the text of a sort that has no name. -/
def sortKeywords : List String :=
  ["Bool", "Int", "Real", "BitVec", "Array", "FloatingPoint", "String", "RegLan", "Seq"]

/-- Sorts that are named by one word of letters and digits, which is no keyword and names no
other of them. -/
structure Spelled (named : Set SmtSort) : Prop where
  isWord : ∀ s ∈ named, sortWords smtText s = [(smtText s).toList]
  not_keyword : ∀ s ∈ named, smtText s ∉ sortKeywords
  injOn : Set.InjOn smtText named

/-- The sorts that are built from the named ones. -/
inductive BuiltFrom (named : Set SmtSort) : SmtSort → Prop
  | bool : BuiltFrom named .bool
  | int : BuiltFrom named .int
  | real : BuiltFrom named .real
  | bitvec (w : ℕ) : BuiltFrom named (.bitvec w)
  | array {i e : SmtSort} (hi : BuiltFrom named i) (he : BuiltFrom named e) :
    BuiltFrom named (.array i e)
  | floatingPoint (e s : ℕ) : BuiltFrom named (.floatingPoint e s)
  | string : BuiltFrom named .string
  | regLan : BuiltFrom named .regLan
  | seq {e : SmtSort} (he : BuiltFrom named e) : BuiltFrom named (.seq e)
  | named {s : SmtSort} (hs : s ∈ named) : BuiltFrom named s

private theorem runs_toDigits (n : ℕ) :
    Words.runs Char.isAlphanum (Nat.toDigits 10 n) = [Nat.toDigits 10 n] := by
  refine Words.runs_of_forall ?_ fun c hc => ?_
  · exact Nat.toDigits_ne_nil
  · have hdigit := Nat.isDigit_of_mem_toDigits (by decide) (by decide) hc
    simp [Char.isAlphanum, hdigit]

private theorem space : Char.isAlphanum ' ' = false := by decide

private theorem paren : Char.isAlphanum ')' = false := by decide

/-- A keyword is one run. -/
private theorem runs_keyword {word : String} (h : word ∈ sortKeywords) :
    Words.runs Char.isAlphanum word.toList = [word.toList] := by
  have hall : sortKeywords.all (fun word =>
      !word.toList.isEmpty && word.toList.all Char.isAlphanum) = true := by
    decide +kernel
  have hword := List.all_eq_true.1 hall word h
  rw [Bool.and_eq_true, Bool.not_eq_true', List.isEmpty_eq_false_iff, List.all_eq_true] at hword
  exact Words.runs_of_forall hword.1 hword.2

/-- The runs of `(word text)`. -/
private theorem runs_app {word : String} (h : word ∈ sortKeywords) (text : List Char) :
    Words.runs Char.isAlphanum ('(' :: (word.toList ++ ' ' :: (text ++ [')']))) =
      word.toList :: Words.runs Char.isAlphanum text := by
  rw [Words.runs_cons_of_not (by decide), Words.runs_append_cons space,
    Words.runs_append_cons paren, runs_keyword h, Words.runs_nil, List.append_nil]
  rfl

/-- The runs of `(_ word text)`. -/
private theorem runs_indexed {word : String} (h : word ∈ sortKeywords) (text : List Char) :
    Words.runs Char.isAlphanum ('(' :: '_' :: ' ' :: (word.toList ++ ' ' :: (text ++ [')']))) =
      word.toList :: Words.runs Char.isAlphanum text := by
  rw [Words.runs_cons_of_not (by decide), Words.runs_cons_of_not (by decide),
    Words.runs_cons_of_not space, Words.runs_append_cons space, Words.runs_append_cons paren,
    runs_keyword h, Words.runs_nil, List.append_nil]
  rfl

@[simp]
theorem sortWords_bitvec (w : ℕ) :
    sortWords smtText (.bitvec w) = ["BitVec".toList, Nat.toDigits 10 w] := by
  have htext : ("(_ BitVec " ++ toString w ++ ")").toList =
      '(' :: '_' :: ' ' :: ("BitVec".toList ++ ' ' :: (Nat.toDigits 10 w ++ [')'])) := by simp
  change Words.runs Char.isAlphanum ("(_ BitVec " ++ toString w ++ ")").toList = _
  rw [htext, runs_indexed (by decide), runs_toDigits]

@[simp]
theorem sortWords_floatingPoint (e s : ℕ) :
    sortWords smtText (.floatingPoint e s) =
      ["FloatingPoint".toList, Nat.toDigits 10 e, Nat.toDigits 10 s] := by
  have htext : ("(_ FloatingPoint " ++ toString e ++ " " ++ toString s ++ ")").toList =
      '(' :: '_' :: ' ' :: ("FloatingPoint".toList ++ ' ' ::
        ((Nat.toDigits 10 e ++ ' ' :: Nat.toDigits 10 s) ++ [')'])) := by simp
  change Words.runs Char.isAlphanum
    ("(_ FloatingPoint " ++ toString e ++ " " ++ toString s ++ ")").toList = _
  rw [htext, runs_indexed (by decide), Words.runs_append_cons space, runs_toDigits, runs_toDigits]
  rfl

@[simp]
theorem sortWords_array (i e : SmtSort) :
    sortWords smtText (.array i e) =
      "Array".toList :: (sortWords smtText i ++ sortWords smtText e) := by
  have htext : ("(Array " ++ smtText i ++ " " ++ smtText e ++ ")").toList =
      '(' :: ("Array".toList ++ ' ' ::
        (((smtText i).toList ++ ' ' :: (smtText e).toList) ++ [')'])) := by simp
  change Words.runs Char.isAlphanum ("(Array " ++ smtText i ++ " " ++ smtText e ++ ")").toList = _
  rw [htext, runs_app (by decide), Words.runs_append_cons space]
  rfl

@[simp]
theorem sortWords_seq (e : SmtSort) :
    sortWords smtText (.seq e) = "Seq".toList :: sortWords smtText e := by
  have htext : ("(Seq " ++ smtText e ++ ")").toList =
      '(' :: ("Seq".toList ++ ' ' :: ((smtText e).toList ++ [')'])) := by simp
  change Words.runs Char.isAlphanum ("(Seq " ++ smtText e ++ ")").toList = _
  rw [htext, runs_app (by decide)]
  rfl

private theorem sortWords_word {s : SmtSort} {word : String} (htext : smtText s = word)
    (hword : word ∈ sortKeywords) : sortWords smtText s = [word.toList] := by
  rw [sortWords, htext, runs_keyword hword]

@[simp] theorem sortWords_bool : sortWords smtText .bool = ["Bool".toList] :=
  sortWords_word rfl (by decide)

@[simp] theorem sortWords_int : sortWords smtText .int = ["Int".toList] :=
  sortWords_word rfl (by decide)

@[simp] theorem sortWords_real : sortWords smtText .real = ["Real".toList] :=
  sortWords_word rfl (by decide)

@[simp] theorem sortWords_string : sortWords smtText .string = ["String".toList] :=
  sortWords_word rfl (by decide)

@[simp] theorem sortWords_regLan : sortWords smtText .regLan = ["RegLan".toList] :=
  sortWords_word rfl (by decide)

section Built

variable {named : Set SmtSort} {s t : SmtSort}

/-- The words of a sort begin with a keyword, or the sort is a named one. -/
theorem BuiltFrom.sortWords_cases (h : Spelled named) (hs : BuiltFrom named s) :
    (∃ word ∈ sortKeywords, ∃ ws, sortWords smtText s = word.toList :: ws) ∨
      (s ∈ named ∧ sortWords smtText s = [(smtText s).toList]) := by
  cases hs with
  | bool => exact .inl ⟨"Bool", by decide, _, sortWords_bool⟩
  | int => exact .inl ⟨"Int", by decide, _, sortWords_int⟩
  | real => exact .inl ⟨"Real", by decide, _, sortWords_real⟩
  | bitvec w => exact .inl ⟨"BitVec", by decide, _, sortWords_bitvec w⟩
  | array hi he => exact .inl ⟨"Array", by decide, _, sortWords_array _ _⟩
  | floatingPoint e s => exact .inl ⟨"FloatingPoint", by decide, _, sortWords_floatingPoint e s⟩
  | string => exact .inl ⟨"String", by decide, _, sortWords_string⟩
  | regLan => exact .inl ⟨"RegLan", by decide, _, sortWords_regLan⟩
  | seq he => exact .inl ⟨"Seq", by decide, _, sortWords_seq _⟩
  | named hs => exact .inr ⟨hs, h.isWord _ hs⟩

/-- What begins with a named sort begins with no other. -/
theorem Spelled.append_inj (h : Spelled named) (hs : s ∈ named) (ht : BuiltFrom named t)
    {x y : List (List Char)} (heq : sortWords smtText s ++ x = sortWords smtText t ++ y) :
    s = t ∧ x = y := by
  rw [h.isWord s hs, List.singleton_append] at heq
  rcases ht.sortWords_cases h with ⟨word, hword, ws, hws⟩ | ⟨ht, hws⟩
  · rw [hws, List.cons_append] at heq
    have htext : smtText s = word := String.toList_inj.1 (List.cons.inj heq).1
    exact absurd (htext ▸ hword) (h.not_keyword s hs)
  · rw [hws, List.singleton_append] at heq
    obtain ⟨htext, hrest⟩ := List.cons.inj heq
    exact ⟨h.injOn hs ht (String.toList_inj.1 htext), hrest⟩

/-- What begins with the words of one sort does not begin with those of another. -/
theorem sortWords_append_inj (h : Spelled named) (hs : BuiltFrom named s)
    (ht : BuiltFrom named t) {x y : List (List Char)}
    (heq : sortWords smtText s ++ x = sortWords smtText t ++ y) : s = t ∧ x = y := by
  induction hs generalizing t x y with
  | named hs => exact h.append_inj hs ht heq
  | bool | int | real | string | regLan =>
    cases ht with
    | named ht => exact (h.append_inj ht (by constructor) heq.symm).imp Eq.symm Eq.symm
    | _ => first | (simp at heq; done) | exact ⟨rfl, List.append_cancel_left heq⟩
  | bitvec w =>
    cases ht with
    | named ht => exact (h.append_inj ht (.bitvec w) heq.symm).imp Eq.symm Eq.symm
    | bitvec w' =>
      obtain ⟨hw, hrest⟩ : Nat.toDigits 10 w = Nat.toDigits 10 w' ∧ x = y := by simpa using heq
      exact ⟨congrArg _ (Words.toDigits_inj hw), hrest⟩
    | _ => simp at heq
  | floatingPoint e s =>
    cases ht with
    | named ht => exact (h.append_inj ht (.floatingPoint e s) heq.symm).imp Eq.symm Eq.symm
    | floatingPoint e' s' =>
      obtain ⟨he, hs, hrest⟩ : Nat.toDigits 10 e = Nat.toDigits 10 e' ∧
          Nat.toDigits 10 s = Nat.toDigits 10 s' ∧ x = y := by simpa using heq
      rw [Words.toDigits_inj he, Words.toDigits_inj hs]
      exact ⟨rfl, hrest⟩
    | _ => simp at heq
  | array hi he ihi ihe =>
    cases ht with
    | named ht => exact (h.append_inj ht (.array hi he) heq.symm).imp Eq.symm Eq.symm
    | array hi' he' =>
      simp only [sortWords_array, List.cons_append, List.append_assoc, List.cons.injEq,
        true_and] at heq
      obtain ⟨rfl, hrest⟩ := ihi hi' heq
      obtain ⟨rfl, hxy⟩ := ihe he' hrest
      exact ⟨rfl, hxy⟩
    | _ => simp at heq
  | seq he ih =>
    cases ht with
    | named ht => exact (h.append_inj ht (.seq he) heq.symm).imp Eq.symm Eq.symm
    | seq he' =>
      simp only [sortWords_seq, List.cons_append, List.cons.injEq, true_and] at heq
      obtain ⟨rfl, hxy⟩ := ih he' heq
      exact ⟨rfl, hxy⟩
    | _ => simp at heq

/-- Tags tell sorts of any nesting and width apart, if the names in them are words that can be
taken for nothing else. -/
theorem padSortTag_injOn (h : Spelled named) :
    Set.InjOn (padSortTag smtText) {s | BuiltFrom named s} := by
  intro s hs t ht htag
  refine (sortWords_append_inj h hs ht (x := []) (y := []) ?_).1
  rw [padSortTag_eq_iff.1 htag]

end Built

end Relations

end TrustMc
