import TrustMc.Budget.Fixpoint
import TrustMc.SmtIo.Text
import TrustMc.Words.Parens

/-!
# Complex datatypes

The model of `smt_io/datatypes.rs`: the datatype declarations of a script are collected line by
line, the sorts of their fields are read at the fourth level of parentheses, and the datatypes all of
whose fields are decidable are found by iteration.
-/

namespace TrustMc.SmtIo

open Words

/-- `(declare-datatype`, which `(declare-datatypes` begins with as well. -/
def declareDatatype : List Char := "(declare-datatype".toList

def declareDatatypes : List Char := "(declare-datatypes".toList

/-! ### Declarations -/

/-- The state of `collect_datatype_decl_blocks`. -/
structure Collector where
  blocks : List (List Char)
  current : List Char
  collecting : Bool
  parenDepth : ℤ

/-- What a line says, without a comment and the blanks around it. -/
def lineCode (line : List Char) : List Char := trim (line.takeWhile (· ≠ ';'))

/-- A declaration whose parentheses are closed is a block. -/
def Collector.close (st : Collector) : Collector :=
  if st.parenDepth ≤ 0 then
    { st with blocks := st.blocks ++ [st.current], current := [], collecting := false }
  else st

/-- What a line that says something adds. -/
def Collector.addCode (st : Collector) (code : List Char) : Collector :=
  if !st.collecting then
    if declareDatatype.isPrefixOf code || declareDatatypes.isPrefixOf code then
      { st with collecting := true, current := code, parenDepth := balance code : Collector }.close
    else st
  else
    let current := if st.current.getLast? = some ' ' then st.current else st.current ++ [' ']
    { st with current := current ++ code, parenDepth := st.parenDepth + balance code :
      Collector }.close

def Collector.addLine (st : Collector) (line : List Char) : Collector :=
  let code := lineCode line
  if code.isEmpty then st else st.addCode code

/-- `collect_datatype_decl_blocks`. -/
def collectDatatypeDeclBlocks (content : List Char) : List (List Char) :=
  let st := (lines content).foldl Collector.addLine ⟨[], [], false, 0⟩
  -- an incomplete declaration is preserved
  if st.collecting && !st.current.isEmpty then st.blocks ++ [st.current] else st.blocks

/-- `extract_dt_name`. -/
def extractDtName (decl : List Char) : Option (List Char) :=
  (decl.dropPrefix? declareDatatype).bind fun rest =>
    let name := (trimStart rest).takeWhile fun c => !isWhitespace c && c ≠ '('
    if name.isEmpty then none else some name

/-! ### Sorts of fields -/

/-- The sort at the start of the text, and what is left. -/
def readSort : List Char → List Char × List Char
  | '(' :: text =>
    let (inner, rest) := takeClosed 1 text
    ('(' :: inner, rest)
  | text => text.span fun c => c ≠ ')' && c ≠ ' '

/-- What follows the name of a selector. -/
def skipFieldName (text : List Char) : List Char :=
  (text.dropWhile (· = ' ')).dropWhile fun c => c ≠ ' ' && c ≠ ')'

/-- The sort of the field whose parenthesis was just opened, and the text from the closing one. -/
def readField (text : List Char) : List (List Char) × List Char :=
  match skipFieldName text with
  | ' ' :: text =>
    let (sort, rest) := readSort text
    (if sort.isEmpty then [] else [sort], rest.dropWhile (· ≠ ')'))
  | text => ([], text.dropWhile (· ≠ ')'))

/-- The loop of `extract_field_sorts`, which has as many rounds as there are characters at most. -/
def fieldSortsFrom : ℕ → ℕ → List Char → List (List Char)
  | 0, _, _ => []
  | _ + 1, _, [] => []
  | fuel + 1, depth, c :: text =>
    if c = '(' then
      if depth + 1 = 4 then
        let (sorts, rest) := readField text
        sorts ++ fieldSortsFrom fuel (depth + 1) rest
      else fieldSortsFrom fuel (depth + 1) text
    else if c = ')' then fieldSortsFrom fuel (depth - 1) text
    else fieldSortsFrom fuel depth text

/-- `extract_field_sorts`. -/
def extractFieldSorts (decl : List Char) : List (List Char) := fieldSortsFrom decl.length 0 decl

/-! ### Decidable sorts -/

/-- The text up to the first blank outside parentheses, and the text from there. -/
def splitAtBlank : ℕ → List Char → Option (List Char × List Char)
  | _, [] => none
  | depth, c :: text =>
    if c = ' ' ∧ depth = 0 then some ([], c :: text)
    else
      (splitAtBlank (if c = '(' then depth + 1 else if c = ')' then depth - 1 else depth) text).map
        fun (first, rest) => (c :: first, rest)

/-- `split_two_sorts`. -/
def splitTwoSorts (s : List Char) : Option (List Char × List Char) :=
  (splitAtBlank 0 (trim s)).bind fun (first, rest) =>
    let rest := trimStart rest
    if rest.isEmpty then none else some (first, rest)

/-- The index and element sorts of an array sort. -/
def arraySorts (sort : List Char) : Option (List Char × List Char) :=
  ((sort.dropPrefix? "(Array ".toList).bind (·.dropSuffix? [')'])).bind splitTwoSorts

/-- `is_decidable_sort`, with `is_bv_array_sort`. The sorts of an array are shorter. -/
def isDecidableSort : ℕ → List Char → Bool
  | 0, _ => false
  | fuel + 1, sort =>
    sort == "Bool".toList || "(_ BitVec".toList.isPrefixOf sort ||
      (arraySorts sort).any fun (index, elem) =>
        isDecidableSort fuel index && isDecidableSort fuel elem

/-- `is_decidable_field_sort`. -/
def isDecidableFieldSort (names : List (List Char)) : ℕ → List Char → Bool
  | 0, _ => false
  | fuel + 1, sort =>
    isDecidableSort (fuel + 1) sort || names.contains sort ||
      (arraySorts sort).any fun (index, elem) =>
        isDecidableFieldSort names fuel index && isDecidableFieldSort names fuel elem

/-! ### The iteration -/

/-- A declared name and the sorts of the fields. -/
abbrev DtEntry : Type := List Char × List (List Char)

def allDecidable (names : List (List Char)) (entry : DtEntry) : Bool :=
  entry.2.all fun sort => isDecidableFieldSort names (sort.length + 1) sort

/-- Adds the datatype where all its fields are decidable. -/
def addDecidable (names : List (List Char)) (entry : DtEntry) : List (List Char) :=
  if names.contains entry.1 then names
  else if allDecidable names entry then names ++ [entry.1]
  else names

/-- One round over the datatypes. -/
def decidableRound (entries : List DtEntry) (names : List (List Char)) : List (List Char) :=
  entries.foldl addDecidable names

/-- The rounds until nothing changes: each adds a name. -/
def decidableDtNames (entries : List DtEntry) : List (List Char) :=
  Budget.untilStable (decidableRound entries) entries.length []

/-- The name and the field sorts of a block that is no `declare-datatypes`. -/
def dtEntry (decl : List Char) : Option DtEntry :=
  if declareDatatypes.isPrefixOf decl then none
  else (extractDtName decl).map fun name => (name, extractFieldSorts decl)

/-- `content_has_complex_datatypes`. -/
def contentHasComplexDatatypes (content : List Char) : Bool :=
  let declBlocks := collectDatatypeDeclBlocks content
  if declBlocks.isEmpty then false
  else
    let dtEntries := declBlocks.filterMap dtEntry
    if declBlocks.any declareDatatypes.isPrefixOf then true
    else dtEntries.any fun entry => !(decidableDtNames dtEntries).contains entry.1

end TrustMc.SmtIo
