import TrustMc.DirectSmt.Crate

/-!
# Model values

The values of a solver's model as the witness carries them: `smtValueToJson` writes a value as a
tagged JSON object, and `parseModelValue` reads one back as a constant of an expected sort.

What the reader accepts is a constant of that sort (`of_parseModelValue`).
-/

namespace TrustMc.DirectSmt

open Native Carriers Carriers.Val

/-! ### JSON -/

/-- `serde_json::Value`. Numbers are integers of 64 bits, signed or unsigned, or floats; the
fields of an object have different names. -/
inductive Json
  | null
  | bool (b : Bool)
  | int (z : ℤ)
  | float (text : String)
  | str (s : String)
  | arr (items : List Json)
  | obj (fields : List (String × Json))

namespace Json

/-- `as_bool`. -/
def asBool : Json → Option Bool
  | .bool b => some b
  | _ => none

/-- `as_str`. -/
def asStr : Json → Option String
  | .str s => some s
  | _ => none

/-- `as_i64`. -/
def asI64 : Json → Option ℤ
  | .int z => if -2 ^ 63 ≤ z ∧ z < 2 ^ 63 then some z else none
  | _ => none

/-- `as_u64`. -/
def asU64 : Json → Option ℕ
  | .int z => if 0 ≤ z ∧ z < 2 ^ 64 then some z.toNat else none
  | _ => none

/-- `as_object`. -/
def asObject : Json → Option (List (String × Json))
  | .obj fields => some fields
  | _ => none

end Json

/-! ### Numerals -/

/-- A nonempty string of decimal digits. -/
def parseDigits (cs : List Char) : Option ℕ :=
  if cs.isEmpty || cs.any (!·.isDigit) then none
  else some (cs.foldl (fun n c => 10 * n + (c.toNat - 48)) 0)

/-- `parse` at an unsigned type of the given width: a plus sign is allowed. -/
def parseUnsigned (width : ℕ) (s : String) : Option ℕ :=
  let digits := match s.toList with
    | '+' :: cs => cs
    | cs => cs
  (parseDigits digits).filter fun n => decide (n < 2 ^ width)

/-- `parse` at a signed type of the given width. -/
def parseSigned (width : ℕ) (s : String) : Option ℤ :=
  let value : Option ℤ := match s.toList with
    | '-' :: cs => (parseDigits cs).map fun n => -(n : ℤ)
    | '+' :: cs => (parseDigits cs).map fun n => (n : ℤ)
    | cs => (parseDigits cs).map fun n => (n : ℤ)
  value.filter fun z => decide (-2 ^ (width - 1) ≤ z ∧ z < 2 ^ (width - 1))

/-- `{:0width$x}` after `0x`: lower-case hexadecimal digits, padded to a number of them. -/
def hexText (value digits : ℕ) : String :=
  let hex := Nat.toDigits 16 value
  "0x" ++ String.ofList (List.replicate (digits - hex.length) '0' ++ hex)

/-- `div_ceil`. -/
def divCeil (a b : ℕ) : ℕ := (a + b - 1) / b

/-! ### Values of a model -/

/-- `SmtValue`. The symbols without an interpretation are `symbol`; `unrecognized` stands for the
shapes a later version of the crate may add, with their debug text. -/
inductive SmtValue
  | bool (b : Bool)
  | int (z : ℤ)
  | real (numer denom : ℤ)
  | bitVec (value width : ℕ)
  | symbol (name : String)
  | constArray (default : SmtValue)
  | arrayMap (default : SmtValue) (entries : List (SmtValue × SmtValue))
  | datatype (constructor : String) (fields : List SmtValue)
  | unrecognized (debug : String)

/-- A rational as it is displayed. -/
def ratText (numer denom : ℤ) : String :=
  if denom = 1 then toString numer else toString numer ++ "/" ++ toString denom

/-- An integer: a number if it is one of 64 bits, else its decimal digits. -/
def intJson (z : ℤ) : Json :=
  if -2 ^ 63 ≤ z ∧ z < 2 ^ 64 then .int z else .str (toString z)

mutual

/-- `smt_value_to_json`. -/
def smtValueToJson : SmtValue → Json
  | .bool b => .obj [("kind", .str "bool"), ("value", .bool b)]
  | .int z => .obj [("kind", .str "int"), ("value", intJson z)]
  | .real numer denom =>
    .obj [("kind", .str "real"), ("numerator", .str (toString numer)),
      ("denominator", .str (toString denom)), ("decimal", .str (ratText numer denom))]
  | .bitVec value width =>
    .obj [("kind", .str "bit_vec"), ("width", .int width), ("value", .str (toString value)),
      ("hex", .str (hexText value (max (divCeil width 4) 1)))]
  | .symbol name => .obj [("kind", .str "opaque"), ("symbol", .str name)]
  | .constArray default =>
    .obj [("kind", .str "const_array"), ("default", smtValueToJson default)]
  | .arrayMap default entries =>
    .obj [("kind", .str "array_map"), ("default", smtValueToJson default),
      ("entries", .arr (smtEntriesToJson entries))]
  | .datatype constructor fields =>
    .obj [("kind", .str "datatype"), ("constructor", .str constructor),
      ("fields", .arr (smtValuesToJson fields))]
  | .unrecognized debug => .obj [("kind", .str "unknown"), ("debug", .str debug)]

/-- The fields of a value of a datatype. -/
def smtValuesToJson : List SmtValue → List Json
  | [] => []
  | v :: vs => smtValueToJson v :: smtValuesToJson vs

/-- The entries of an array. -/
def smtEntriesToJson : List (SmtValue × SmtValue) → List Json
  | [] => []
  | (index, element) :: entries =>
    .obj [("index", smtValueToJson index), ("value", smtValueToJson element)] ::
      smtEntriesToJson entries

end

/-! ### Reading a value -/

/-- `parse_json_i128`. -/
def parseJsonI128 (value : Json) : Option ℤ :=
  (value.asI64.or (value.asU64.map fun n => (n : ℤ))).or (value.asStr.bind (parseSigned 128))

/-- `ok_or_else`. -/
def orError {α : Type} (message : String) : Option α → Except String α
  | some a => .ok a
  | none => .error message

@[simp]
theorem orError_eq_ok {α : Type} {message : String} {o : Option α} {a : α} :
    orError message o = .ok a ↔ o = some a := by
  cases o <;> simp [orError]

/-- What comes after a computation returns only if the computation does. -/
theorem bind_eq_ok {ε α β : Type} {x : Except ε α} {f : α → Except ε β} {b : β} :
    (x >>= f) = .ok b ↔ ∃ a, x = .ok a ∧ f a = .ok b := by
  cases x with
  | error e => simp [bind, Except.bind]
  | ok a => simp [bind, Except.bind]

theorem bind_eq_error {ε α β : Type} {x : Except ε α} {f : α → Except ε β} {e : ε} :
    (x >>= f) = .error e ↔ x = .error e ∨ ∃ a, x = .ok a ∧ f a = .error e := by
  cases x with
  | error e' => simp [bind, Except.bind]
  | ok a => simp [bind, Except.bind]

/-- `parse_model_value`. -/
def parseModelValue (crate : ExprCrate) (name : String) :
    ChcSort → Json → Except String ChcExpr := fun expectedSort encoded => do
  let binding := "model binding `" ++ name ++ "`"
  let object ← orError (binding ++ " is not a typed object") encoded.asObject
  let kind ← orError (binding ++ " has no string kind")
    ((object.lookup "kind").bind Json.asStr)
  let mismatch : Except String ChcExpr :=
    .error (binding ++ " kind `" ++ kind ++ "` does not exactly encode sort `" ++
      crate.sortText expectedSort ++ "`")
  match expectedSort with
  | .bool =>
    if kind = "bool" ∧ object.length = 2 then
      let b ← orError (binding ++ " has an invalid Bool value")
        ((object.lookup "value").bind Json.asBool)
      return .bool b
    else mismatch
  | .int =>
    if kind = "int" ∧ object.length = 2 then
      let z ← orError (binding ++ " has an invalid Int value")
        ((object.lookup "value").bind parseJsonI128)
      return .int z
    else mismatch
  | .real =>
    if kind = "real" ∧ object.length = 4 then
      let numerator ← orError (binding ++ " has an invalid Real numerator")
        (((object.lookup "numerator").bind Json.asStr).bind (parseSigned 64))
      let denominator ← orError (binding ++ " has an invalid Real denominator")
        ((((object.lookup "denominator").bind Json.asStr).bind (parseSigned 64)).filter (· ≠ 0))
      let _ ← orError (binding ++ " has no Real decimal rendering")
        ((object.lookup "decimal").bind Json.asStr)
      return .real numerator denominator
    else mismatch
  | .bitVec expectedWidth =>
    if kind = "bit_vec" ∧ object.length = 4 then
      let width ← orError (binding ++ " has an invalid bit-vector width")
        (((object.lookup "width").bind Json.asU64).filter (· < 2 ^ 32))
      if width ≠ expectedWidth ∨ width = 0 ∨ 128 < width then
        .error (binding ++ " has width " ++ toString width ++ ", expected " ++
          toString expectedWidth)
      else
        let value ← orError (binding ++ " has an invalid bit-vector value")
          (((object.lookup "value").bind Json.asStr).bind (parseUnsigned 128))
        if width < 128 ∧ 2 ^ width ≤ value then
          .error (binding ++ " exceeds its bit-vector width")
        else if (object.lookup "hex").bind Json.asStr ≠ some (hexText value (divCeil width 4)) then
          .error (binding ++ " has a non-canonical hex rendering")
        else return .bitVec value width
    else mismatch
  | .array keySort valueSort =>
    if kind = "const_array" ∧ object.length = 2 then
      let default ← orError (binding ++ " has no array default") (object.lookup "default")
      let default ← parseModelValue crate name valueSort default
      return .constArray keySort default
    else mismatch
  | _ => mismatch
termination_by sort => sizeOf sort

/-- **What is read** is a constant of the expected sort: by recursion on the sort, as arrays are
read from their default values. -/
theorem of_parseModelValue {crate : ExprCrate} {name : String} (sort : ChcSort) {json : Json}
    {value : ChcExpr} (h : parseModelValue crate name sort json = .ok value) :
    value.vars = [] ∧ ∀ {T : Theory} (ρ : ChcEnv T), (value.eval ρ).1 = sort.toSmt := by
  rw [parseModelValue] at h
  obtain ⟨object, -, h⟩ := bind_eq_ok.1 h
  obtain ⟨kind, -, h⟩ := bind_eq_ok.1 h
  cases sort with
  | bool =>
    dsimp only at h
    split_ifs at h
    obtain ⟨b, -, h⟩ := bind_eq_ok.1 h
    obtain rfl := Except.ok.inj h
    exact ⟨rfl, fun ρ => rfl⟩
  | int =>
    dsimp only at h
    split_ifs at h
    obtain ⟨z, -, h⟩ := bind_eq_ok.1 h
    obtain rfl := Except.ok.inj h
    exact ⟨rfl, fun ρ => rfl⟩
  | real =>
    dsimp only at h
    split_ifs at h
    obtain ⟨numerator, -, h⟩ := bind_eq_ok.1 h
    obtain ⟨denominator, -, h⟩ := bind_eq_ok.1 h
    obtain ⟨-, -, h⟩ := bind_eq_ok.1 h
    obtain rfl := Except.ok.inj h
    exact ⟨rfl, fun ρ => rfl⟩
  | bitVec expectedWidth =>
    dsimp only at h
    split_ifs at h
    obtain ⟨width, -, h⟩ := bind_eq_ok.1 h
    split_ifs at h with hwidth
    obtain ⟨x, -, h⟩ := bind_eq_ok.1 h
    split_ifs at h
    obtain rfl := Except.ok.inj h
    obtain ⟨rfl, -⟩ := not_or.1 hwidth |>.imp_left not_not.1
    exact ⟨rfl, fun ρ => rfl⟩
  | array keySort valueSort =>
    dsimp only at h
    split_ifs at h
    obtain ⟨default, -, h⟩ := bind_eq_ok.1 h
    obtain ⟨x, hx, h⟩ := bind_eq_ok.1 h
    obtain rfl := Except.ok.inj h
    obtain ⟨hvars, hsort⟩ := of_parseModelValue valueSort hx
    refine ⟨hvars, fun ρ => ?_⟩
    rw [ChcExpr.eval, ChcSort.toSmt, ← hsort ρ]
    rfl
  | uninterpreted _ | datatype _ _ =>
    cases h
termination_by sizeOf sort

end TrustMc.DirectSmt
