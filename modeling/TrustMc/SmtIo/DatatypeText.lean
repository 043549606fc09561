import TrustMc.SmtIo.Datatypes

/-!
# The text of datatype declarations

What a datatype declaration of SMT-LIB says, and how it is written: `Datatype.text` is the text of a
`declare-datatype` command, with any blanks wherever the reader of the code allows them, and `Lays`
says how the lines of a script hold its declarations. `Simple` is the least set of decidable sorts.
-/

namespace TrustMc.SmtIo

open Words

/-! ### Words and sorts -/

def isWordChar (c : Char) : Bool := !isWhitespace c && c ≠ '(' && c ≠ ')' && c ≠ ';'

/-- A symbol or a numeral, as it is spelled. -/
structure Word where
  chars : List Char
  ne_nil : chars ≠ []
  isWordChar : ∀ c ∈ chars, isWordChar c = true

/-- Blanks, or nothing. -/
structure Gap where
  chars : List Char
  isWhitespace : ∀ c ∈ chars, isWhitespace c = true

inductive Sexp
  | word (w : Word)
  | list (head : Sexp) (args : List Sexp)

mutual

def Sexp.text : Sexp → List Char
  | .word w => w.chars
  | .list head args => enclose (head.text ++ Sexp.argsText args)

def Sexp.argsText : List Sexp → List Char
  | [] => []
  | arg :: args => ' ' :: (arg.text ++ Sexp.argsText args)

end

/-- The expression is no array and no bit-vector sort. -/
def OtherSort (head : Sexp) (args : List Sexp) : Prop :=
  ∀ w, head = .word w → w.chars ≠ "Array".toList ∧
    (w.chars = ['_'] → ∀ v rest, args = .word v :: rest → ¬ "BitVec".toList <+: v.chars)

/-- A sort. -/
inductive SortExpr
  | symbol (w : Word)
  | bitVec (width : Word)
  | array (index elem : SortExpr)
  | other (head : Sexp) (args : List Sexp) (h : OtherSort head args)

def SortExpr.text : SortExpr → List Char
  | .symbol w => w.chars
  | .bitVec width => enclose ("_ BitVec ".toList ++ width.chars)
  | .array index elem => enclose ("Array ".toList ++ (index.text ++ ' ' :: elem.text))
  | .other head args _ => (Sexp.list head args).text

/-! ### Declarations -/

/-- A selector and its sort, with one blank between them. -/
structure Field where
  before : ℕ
  name : Word
  sort : SortExpr
  after : ℕ

def Field.text (f : Field) : List Char :=
  enclose (List.replicate f.before ' ' ++ (f.name.chars ++
    ' ' :: (f.sort.text ++ List.replicate f.after ' ')))

structure Constructor where
  before : Gap
  name : Word
  fields : List (Gap × Field)
  after : Gap

def Constructor.text (c : Constructor) : List Char :=
  enclose (c.before.chars ++ (c.name.chars ++
    (c.fields.flatMap (fun f => f.1.chars ++ f.2.text) ++ c.after.chars)))

/-- A `declare-datatype` command. -/
structure Datatype where
  before : Gap
  before_ne_nil : before.chars ≠ []
  name : Word
  middle : Gap
  constructors : List (Gap × Constructor)
  inner : Gap
  after : Gap

namespace Datatype

/-- What follows `(declare-datatype`, up to the last parenthesis. -/
def inside (d : Datatype) : List Char :=
  d.before.chars ++ (d.name.chars ++ (d.middle.chars ++
    (enclose (d.constructors.flatMap (fun c => c.1.chars ++ c.2.text) ++ d.inner.chars) ++
      d.after.chars)))

def text (d : Datatype) : List Char := enclose ("declare-datatype".toList ++ d.inside)

/-- The sorts of the fields of all constructors. -/
def sorts (d : Datatype) : List SortExpr :=
  d.constructors.flatMap fun c => c.2.fields.map fun f => f.2.sort

end Datatype

/-- The least set of sorts with `Bool`, the bit-vectors, the arrays of such sorts, and the declared
datatypes all of whose fields have such sorts. -/
inductive Simple (datatypes : List Datatype) : SortExpr → Prop
  | bool {w : Word} (h : w.chars = "Bool".toList) : Simple datatypes (.symbol w)
  | bitVec (width : Word) : Simple datatypes (.bitVec width)
  | array {index elem : SortExpr} (hindex : Simple datatypes index) (helem : Simple datatypes elem) :
      Simple datatypes (.array index elem)
  | datatype {w : Word} {d : Datatype} (hd : d ∈ datatypes) (hname : w.chars = d.name.chars)
      (h : ∀ s ∈ d.sorts, Simple datatypes s) : Simple datatypes (.symbol w)

/-- The sort mentions the name. -/
def SortExpr.Mentions (name : List Char) : SortExpr → Prop
  | .symbol w => w.chars = name
  | .bitVec _ | .other .. => False
  | .array index elem => index.Mentions name ∨ elem.Mentions name

/-- A field of the one datatype mentions the other. -/
def Uses (datatypes : List Datatype) (d e : Datatype) : Prop :=
  e ∈ datatypes ∧ ∃ s ∈ d.sorts, s.Mentions e.name.chars

/-! ### Scripts -/

inductive Declaration
  | datatype (d : Datatype)
  /-- A `declare-datatypes` command. -/
  | datatypes (inside : List Char) (h : Nested inside)

namespace Declaration

def text : Declaration → List Char
  | datatype d => d.text
  | datatypes inside _ => enclose ("declare-datatypes".toList ++ inside)

def datatype? : Declaration → Option Datatype
  | datatype d => some d
  | datatypes .. => none

end Declaration

/-- The datatypes that are declared one by one. -/
def datatypesOf (declarations : List Declaration) : List Datatype :=
  declarations.filterMap Declaration.datatype?

/-- The datatype declarations of a script. A name is declared once, and `Bool` is not. -/
structure Script where
  declarations : List Declaration
  nodup : ((datatypesOf declarations).map fun d => d.name.chars).Nodup
  ne_bool : ∀ d ∈ datatypesOf declarations, d.name.chars ≠ "Bool".toList

/-- The lines hold these declarations: each begins on a line of its own and ends with one, and what
its lines say, without comments, joined by blanks, is its text. -/
inductive Lays : List Declaration → List (List Char) → Prop
  | nil : Lays [] []
  | other {line : List Char} {ds : List Declaration} {ls : List (List Char)}
      (hline : ¬ declareDatatype <+: lineCode line) (h : Lays ds ls) : Lays ds (line :: ls)
  | declaration {d : Declaration} {block : List (List Char)} {ds : List Declaration}
      {ls : List (List Char)}
      (hblock : [' '].intercalate ((block.map lineCode).filter (· ≠ [])) = d.text)
      (h : Lays ds ls) : Lays (d :: ds) (block ++ ls)

/-! ### Words in text -/

theorem not_isWhitespace_of_isWordChar {c : Char} (h : isWordChar c = true) :
    isWhitespace c = false := by
  simp only [isWordChar, Bool.and_eq_true, Bool.not_eq_true'] at h
  exact h.1.1.1

theorem ne_of_isWordChar {c : Char} (h : isWordChar c = true) : c ≠ '(' ∧ c ≠ ')' := by
  simp only [isWordChar, Bool.and_eq_true, decide_eq_true_eq] at h
  exact ⟨h.1.1.2, h.1.2⟩

theorem ne_of_isWhitespace {c : Char} (h : isWhitespace c = true) : c ≠ '(' ∧ c ≠ ')' := by
  constructor
  · rintro rfl
    exact absurd h (by decide)
  · rintro rfl
    exact absurd h (by decide)

theorem Word.ne_blank (w : Word) {c : Char} (h : c ∈ w.chars) : c ≠ ' ' := by
  rintro rfl
  exact absurd (w.isWordChar _ h) (by decide)

theorem Word.plain (w : Word) : Plain w.chars := fun c hc => ne_of_isWordChar (w.isWordChar c hc)

theorem Gap.plain (g : Gap) : Plain g.chars := fun c hc => ne_of_isWhitespace (g.isWhitespace c hc)

theorem Word.trimmed (w : Word) : Trimmed w.chars :=
  ⟨w.ne_nil, not_isWhitespace_of_isWordChar (w.isWordChar _ (List.head_mem _)),
    not_isWhitespace_of_isWordChar (w.isWordChar _ (List.getLast_mem _))⟩

theorem trimmed_enclose (t : List Char) : Trimmed (enclose t) where
  ne_nil := by simp [enclose]
  head_eq := by simp only [enclose, List.head_cons]; decide
  getLast_eq := by
    have hlast : (enclose t).getLast (by simp [enclose]) = ')' := by simp [enclose]
    rw [hlast]
    decide

/-! ### The text of sorts -/

/-- A word, or text in parentheses. -/
inductive SortText : List Char → Prop
  | word (w : Word) : SortText w.chars
  | enclosed {t : List Char} (h : Nested t) : SortText (enclose t)

theorem SortText.nested {t : List Char} (h : SortText t) : Nested t := by
  cases h with
  | word w => exact w.plain.nested
  | enclosed h => exact h.enclose

theorem SortText.trimmed {t : List Char} (h : SortText t) : Trimmed t := by
  cases h with
  | word w => exact w.trimmed
  | enclosed _ => exact trimmed_enclose _

mutual

theorem Sexp.nested_text : ∀ e : Sexp, Nested e.text
  | .word w => by
    rw [Sexp.text]
    exact w.plain.nested
  | .list head args => by
    rw [Sexp.text]
    exact (head.nested_text.append (Sexp.nested_argsText args)).enclose

theorem Sexp.nested_argsText : ∀ args : List Sexp, Nested (Sexp.argsText args)
  | [] => by
    rw [Sexp.argsText]
    exact .nil
  | arg :: args => by
    rw [Sexp.argsText]
    exact .char (by decide) (arg.nested_text.append (Sexp.nested_argsText args))

end

theorem SortExpr.sortText (s : SortExpr) : SortText s.text := by
  have plainText : ∀ {t : List Char}, t.all (fun c => c != '(' && c != ')') = true → Nested t :=
    fun h => (plain_of_all h).nested
  induction s with
  | symbol w => exact .word w
  | bitVec width =>
    exact .enclosed ((plainText (by decide)).append width.plain.nested)
  | array index elem hindex helem =>
    exact .enclosed ((plainText (by decide)).append
      (hindex.nested.append (.char (by decide) helem.nested)))
  | other head args =>
    rw [SortExpr.text, Sexp.text]
    exact .enclosed (head.nested_text.append (Sexp.nested_argsText args))

end TrustMc.SmtIo
