import TrustMc.DirectSmt.Values

/-!
# Model values in the witness format

The reader accepts exactly the encodings of values that fit the expected sort
(`parseModelValue_eq_ok_iff`): an object of the value's kind whose numbers are written in one of
the forms of the format (`Encodes`). What the writer produces is such an encoding, so a value that
fits is read back (`model_values_survive`).
-/

namespace TrustMc.DirectSmt

open Native Carriers Carriers.Val

/-! ### Numerals -/

/-- The natural number of a text, of any size. -/
def readNatural (s : String) : Option ℕ :=
  parseDigits (match s.toList with
    | '+' :: cs => cs
    | cs => cs)

/-- The integer of a text, of any size. -/
def readInteger (s : String) : Option ℤ :=
  match s.toList with
  | '-' :: cs => (parseDigits cs).map fun n => -(n : ℤ)
  | '+' :: cs => (parseDigits cs).map fun n => (n : ℤ)
  | cs => (parseDigits cs).map fun n => (n : ℤ)

/-- A signed integer of the given width. -/
def InSigned (width : ℕ) (z : ℤ) : Prop := -2 ^ (width - 1) ≤ z ∧ z < 2 ^ (width - 1)

theorem parseUnsigned_eq_some {width n : ℕ} {s : String} :
    parseUnsigned width s = some n ↔ readNatural s = some n ∧ n < 2 ^ width := by
  rw [parseUnsigned, Option.filter_eq_some_iff, decide_eq_true_eq]
  rfl

theorem parseSigned_eq_some {width : ℕ} {z : ℤ} {s : String} :
    parseSigned width s = some z ↔ readInteger s = some z ∧ InSigned width z := by
  rw [parseSigned, Option.filter_eq_some_iff, decide_eq_true_eq]
  rfl

theorem parseDigits_toDigits (n : ℕ) : parseDigits (Nat.toDigits 10 n) = some n := by
  have hdigits : (Nat.toDigits 10 n).any (!·.isDigit) = false := by
    rw [List.any_eq_false]
    intro c hc
    simp [Nat.isDigit_of_mem_toDigits (by decide) (by decide) hc]
  rw [parseDigits, hdigits, List.isEmpty_eq_false_iff.2 Nat.toDigits_ne_nil]
  exact congrArg some (Nat.ofDigitChars_toDigits (by decide) (by decide))

/-- The digits of a number begin with no sign. -/
theorem head_toDigits_ne {n : ℕ} {c : Char} {cs : List Char} (h : Nat.toDigits 10 n = c :: cs) :
    c ≠ '-' ∧ c ≠ '+' := by
  have hdigit : c.isDigit = true :=
    Nat.isDigit_of_mem_toDigits (b := 10) (n := n) (by decide) (by decide)
      (h ▸ List.mem_cons_self)
  constructor
  · rintro rfl
    exact absurd hdigit (by decide)
  · rintro rfl
    exact absurd hdigit (by decide)

theorem readNatural_toString (n : ℕ) : readNatural (toString n) = some n := by
  have htext : (toString n).toList = Nat.toDigits 10 n := Nat.toList_repr
  rw [readNatural, htext]
  split
  · rename_i cs heq
    exact absurd rfl (head_toDigits_ne heq).2
  · exact parseDigits_toDigits n

theorem readInteger_toString (z : ℤ) : readInteger (toString z) = some z := by
  cases z with
  | ofNat n =>
    have htext : (toString (Int.ofNat n)).toList = Nat.toDigits 10 n := Nat.toList_repr
    rw [readInteger, htext]
    split
    · rename_i cs heq
      exact absurd rfl (head_toDigits_ne heq).1
    · rename_i cs heq
      exact absurd rfl (head_toDigits_ne heq).2
    · rw [parseDigits_toDigits]
      rfl
  | negSucc n =>
    have htext : (toString (Int.negSucc n)).toList = '-' :: Nat.toDigits 10 (n + 1) := by
      rw [← Nat.toList_repr]
      exact String.toList_append
    rw [readInteger, htext]
    simp only [parseDigits_toDigits]
    rfl

/-! ### Values and their sorts -/

/-- The value is one of the sort that the format can carry. -/
def SmtValue.Fits : ChcSort → SmtValue → Prop
  | .bool, .bool _ => True
  | .int, .int z => InSigned 128 z
  | .real, .real numer denom => InSigned 64 numer ∧ InSigned 64 denom ∧ denom ≠ 0
  | .bitVec width, .bitVec value width' =>
    width' = width ∧ 1 ≤ width ∧ width ≤ 128 ∧ value < 2 ^ width
  | .array _ element, .constArray default => default.Fits element
  | _, _ => False

/-- The constant of the crate's terms for a value. -/
def SmtValue.constant : ChcSort → SmtValue → ChcExpr
  | _, .bool b => .bool b
  | _, .int z => .int z
  | _, .real numer denom => .real numer denom
  | _, .bitVec value width => .bitVec value width
  | .array key element, .constArray default => .constArray key (default.constant element)
  | _, _ => .unrecognized

/-- What a value denotes at a sort. -/
noncomputable def SmtValue.denote (T : Theory) : ChcSort → SmtValue → T.Val
  | _, .bool b => ofBool b
  | _, .int z => ofInt z
  | _, .real numer denom => ofReal ((numer : ℝ) / denom)
  | _, .bitVec value width => ofBV (BitVec.ofNat width value)
  | .array key element, .constArray default =>
    ⟨.array key.toSmt (default.denote T element).1, fun _ => (default.denote T element).2⟩
  | sort, _ => ⟨sort.toSmt, Inhabited.default⟩

/-- The constant of a value that fits denotes the value. -/
theorem eval_constant {T : Theory} {sort : ChcSort} {v : SmtValue} (h : v.Fits sort)
    (ρ : ChcEnv T) : (v.constant sort).eval ρ = v.denote T sort := by
  induction sort, v using SmtValue.Fits.induct with
  | case5 key element default ih =>
    rw [SmtValue.constant, SmtValue.denote, ChcExpr.eval, ih h, Op.interp]
  | case1 | case2 | case3 | case4 => simp [SmtValue.constant, SmtValue.denote, ChcExpr.eval]
  | case6 => exact absurd h (by simp [SmtValue.Fits])

/-! ### Encodings -/

/-- The integer a JSON value stands for: a number of 64 bits, or a text. -/
def integerOf : Json → Option ℤ
  | .int z => if -2 ^ 63 ≤ z ∧ z < 2 ^ 64 then some z else none
  | .str s => readInteger s
  | _ => none

/-- The object encodes the value. -/
inductive Encodes : SmtValue → Json → Prop
  | bool {b : Bool} {fields : List (String × Json)} (hlen : fields.length = 2)
      (hkind : fields.lookup "kind" = some (.str "bool"))
      (hvalue : fields.lookup "value" = some (.bool b)) : Encodes (.bool b) (.obj fields)
  | int {z : ℤ} {value : Json} {fields : List (String × Json)} (hlen : fields.length = 2)
      (hkind : fields.lookup "kind" = some (.str "int"))
      (hvalue : fields.lookup "value" = some value) (hz : integerOf value = some z) :
      Encodes (.int z) (.obj fields)
  | real {numer denom : ℤ} {numerText denomText decimal : String}
      {fields : List (String × Json)} (hlen : fields.length = 4)
      (hkind : fields.lookup "kind" = some (.str "real"))
      (hnumerator : fields.lookup "numerator" = some (.str numerText))
      (hnumer : readInteger numerText = some numer)
      (hdenominator : fields.lookup "denominator" = some (.str denomText))
      (hdenom : readInteger denomText = some denom)
      (hdecimal : fields.lookup "decimal" = some (.str decimal)) :
      Encodes (.real numer denom) (.obj fields)
  | bitVec {value width : ℕ} {text : String} {fields : List (String × Json)}
      (hlen : fields.length = 4) (hkind : fields.lookup "kind" = some (.str "bit_vec"))
      (hwidth : fields.lookup "width" = some (.int width))
      (htext : fields.lookup "value" = some (.str text)) (hvalue : readNatural text = some value)
      (hhex : fields.lookup "hex" = some (.str (hexText value (divCeil width 4)))) :
      Encodes (.bitVec value width) (.obj fields)
  | constArray {default : SmtValue} {json : Json} {fields : List (String × Json)}
      (hlen : fields.length = 2) (hkind : fields.lookup "kind" = some (.str "const_array"))
      (hdefault : fields.lookup "default" = some json) (hvalue : Encodes default json) :
      Encodes (.constArray default) (.obj fields)

theorem integerOf_intJson (z : ℤ) : integerOf (intJson z) = some z := by
  rw [intJson]
  split_ifs with h
  · exact if_pos h
  · exact readInteger_toString z

/-- A value that fits is encoded. -/
theorem encodes_smtValueToJson {sort : ChcSort} {v : SmtValue} (h : v.Fits sort) :
    Encodes v (smtValueToJson v) := by
  induction sort, v using SmtValue.Fits.induct with
  | case1 b => exact .bool rfl rfl rfl
  | case2 z => exact .int rfl rfl rfl (integerOf_intJson z)
  | case3 numer denom =>
    exact .real rfl rfl rfl (readInteger_toString numer) rfl (readInteger_toString denom) rfl
  | case4 width value width' =>
    -- the hexadecimal text has a digit for every four bits
    obtain ⟨rfl, hpos, -, -⟩ := h
    have hdigits : max (divCeil width' 4) 1 = divCeil width' 4 := by
      rw [divCeil]
      omega
    refine .bitVec rfl rfl rfl rfl (readNatural_toString value) ?_
    rw [hdigits]
    rfl
  | case5 key element default ih => exact .constArray rfl rfl rfl (ih h)
  | case6 => exact absurd h (by simp [SmtValue.Fits])

theorem parseJsonI128_eq_some {value : Json} {z : ℤ} :
    parseJsonI128 value = some z ↔ integerOf value = some z ∧ InSigned 128 z := by
  cases value with
  | int y =>
    rw [parseJsonI128, integerOf, Json.asI64, Json.asU64, InSigned]
    split_ifs <;> simp [Json.asStr] <;> omega
  | str s => exact parseSigned_eq_some
  | _ => simp [parseJsonI128, integerOf, Json.asI64, Json.asU64, Json.asStr]

theorem asBool_eq_some {json : Json} {b : Bool} : json.asBool = some b ↔ json = .bool b := by
  cases json <;> simp [Json.asBool]

theorem asStr_eq_some {json : Json} {s : String} : json.asStr = some s ↔ json = .str s := by
  cases json <;> simp [Json.asStr]

theorem asObject_eq_some {json : Json} {fields : List (String × Json)} :
    json.asObject = some fields ↔ json = .obj fields := by
  cases json <;> simp [Json.asObject]

theorem asU64_eq_some {json : Json} {n : ℕ} :
    json.asU64 = some n ↔ json = .int n ∧ n < 2 ^ 64 := by
  cases json with
  | int z =>
    rw [Json.asU64]
    split_ifs <;> simp <;> omega
  | _ => simp [Json.asU64]

/-- A field of an object that is a text. -/
theorem bind_asStr_eq_some {field : Option Json} {s : String} :
    field.bind Json.asStr = some s ↔ field = some (.str s) := by
  simp [Option.bind_eq_some_iff, asStr_eq_some]

variable {crate : ExprCrate} {name : String}

/-- An encoding of a value that fits is read. -/
theorem parseModelValue_of_encodes {sort : ChcSort} {v : SmtValue} {json : Json}
    (hfits : v.Fits sort) (h : Encodes v json) :
    parseModelValue crate name sort json = .ok (v.constant sort) := by
  induction h generalizing sort with
  | bool hlen hkind hvalue =>
    cases sort with
    | bool =>
      rw [parseModelValue]
      refine bind_eq_ok.2 ⟨_, rfl, bind_eq_ok.2
        ⟨_, orError_eq_ok.2 (bind_asStr_eq_some.2 hkind), ?_⟩⟩
      dsimp only
      rw [if_pos ⟨rfl, hlen⟩]
      exact bind_eq_ok.2 ⟨_, orError_eq_ok.2 (by rw [hvalue]; rfl), rfl⟩
    | _ => exact hfits.elim
  | int hlen hkind hvalue hz =>
    cases sort with
    | int =>
      rw [parseModelValue]
      refine bind_eq_ok.2 ⟨_, rfl, bind_eq_ok.2
        ⟨_, orError_eq_ok.2 (bind_asStr_eq_some.2 hkind), ?_⟩⟩
      dsimp only
      rw [if_pos ⟨rfl, hlen⟩]
      refine bind_eq_ok.2 ⟨_, orError_eq_ok.2 ?_, rfl⟩
      rw [hvalue]
      exact parseJsonI128_eq_some.2 ⟨hz, hfits⟩
    | _ => exact hfits.elim
  | real hlen hkind hnumerator hnumer hdenominator hdenom hdecimal =>
    cases sort with
    | real =>
      obtain ⟨hn, hd, hne⟩ := hfits
      rw [parseModelValue]
      refine bind_eq_ok.2 ⟨_, rfl, bind_eq_ok.2
        ⟨_, orError_eq_ok.2 (bind_asStr_eq_some.2 hkind), ?_⟩⟩
      dsimp only
      rw [if_pos ⟨rfl, hlen⟩, hnumerator, hdenominator, hdecimal]
      refine bind_eq_ok.2 ⟨_, orError_eq_ok.2 (parseSigned_eq_some.2 ⟨hnumer, hn⟩), ?_⟩
      refine bind_eq_ok.2 ⟨_, orError_eq_ok.2 (Option.filter_eq_some_iff.2
        ⟨parseSigned_eq_some.2 ⟨hdenom, hd⟩, decide_eq_true hne⟩), ?_⟩
      exact bind_eq_ok.2 ⟨_, orError_eq_ok.2 rfl, rfl⟩
    | _ => exact hfits.elim
  | @bitVec value width _ fields hlen hkind hwidth htext hvalue hhex =>
    cases sort with
    | bitVec expectedWidth =>
      obtain ⟨rfl, hpos, hle, hlt⟩ := hfits
      have hlt' := hlt.trans_le (Nat.pow_le_pow_right (by decide) hle)
      have hsmall : width < 2 ^ 32 := by omega
      have hread : (Json.int width).asU64 = some width := asU64_eq_some.2 ⟨rfl, by omega⟩
      have hwidth' : ((fields.lookup "width").bind Json.asU64).filter (· < 2 ^ 32) = some width := by
        rw [hwidth, Option.bind_some, hread, Option.filter_some]
        exact if_pos (decide_eq_true hsmall)
      rw [parseModelValue]
      refine bind_eq_ok.2 ⟨_, rfl, bind_eq_ok.2
        ⟨_, orError_eq_ok.2 (bind_asStr_eq_some.2 hkind), ?_⟩⟩
      dsimp only
      rw [if_pos ⟨rfl, hlen⟩, htext]
      refine bind_eq_ok.2 ⟨width, orError_eq_ok.2 hwidth', ?_⟩
      rw [if_neg (by omega)]
      refine bind_eq_ok.2 ⟨_, orError_eq_ok.2 (parseUnsigned_eq_some.2 ⟨hvalue, hlt'⟩), ?_⟩
      rw [if_neg (fun h => absurd hlt (not_lt.2 h.2)),
        if_neg (not_not.2 (bind_asStr_eq_some.2 hhex))]
      rfl
    | _ => exact hfits.elim
  | constArray hlen hkind hdefault hvalue ih =>
    cases sort with
    | array key element =>
      rw [parseModelValue]
      refine bind_eq_ok.2 ⟨_, rfl, bind_eq_ok.2
        ⟨_, orError_eq_ok.2 (bind_asStr_eq_some.2 hkind), ?_⟩⟩
      dsimp only
      rw [if_pos ⟨rfl, hlen⟩]
      exact bind_eq_ok.2 ⟨_, orError_eq_ok.2 hdefault, bind_eq_ok.2 ⟨_, ih hfits, rfl⟩⟩
    | _ => exact hfits.elim

/-- What is read encodes a value that fits: by recursion on the sort. -/
theorem exists_of_parseModelValue (sort : ChcSort) {json : Json} {e : ChcExpr}
    (h : parseModelValue crate name sort json = .ok e) :
    ∃ v : SmtValue, v.Fits sort ∧ Encodes v json ∧ e = v.constant sort := by
  rw [parseModelValue] at h
  obtain ⟨fields, hfields, hrest⟩ := bind_eq_ok.1 h
  obtain ⟨kind, hkind, hbody⟩ := bind_eq_ok.1 hrest
  obtain rfl := asObject_eq_some.1 (orError_eq_ok.1 hfields)
  rw [orError_eq_ok, bind_asStr_eq_some] at hkind
  cases sort with
  | bool =>
    dsimp only at hbody
    split_ifs at hbody with hshape
    obtain ⟨rfl, hlen⟩ := hshape
    obtain ⟨b, hb, hbody⟩ := bind_eq_ok.1 hbody
    obtain ⟨value, hvalue, hb⟩ := Option.bind_eq_some_iff.1 (orError_eq_ok.1 hb)
    obtain rfl := asBool_eq_some.1 hb
    obtain rfl := Except.ok.inj hbody
    exact ⟨.bool b, trivial, .bool hlen hkind hvalue, rfl⟩
  | int =>
    dsimp only at hbody
    split_ifs at hbody with hshape
    obtain ⟨rfl, hlen⟩ := hshape
    obtain ⟨z, hz, hbody⟩ := bind_eq_ok.1 hbody
    obtain ⟨value, hvalue, hz⟩ := Option.bind_eq_some_iff.1 (orError_eq_ok.1 hz)
    obtain ⟨hz, hrange⟩ := parseJsonI128_eq_some.1 hz
    obtain rfl := Except.ok.inj hbody
    exact ⟨.int z, hrange, .int hlen hkind hvalue hz, rfl⟩
  | real =>
    dsimp only at hbody
    split_ifs at hbody with hshape
    obtain ⟨rfl, hlen⟩ := hshape
    obtain ⟨numer, hnumer, hbody⟩ := bind_eq_ok.1 hbody
    obtain ⟨denom, hdenom, hbody⟩ := bind_eq_ok.1 hbody
    obtain ⟨decimal, hdecimal, hbody⟩ := bind_eq_ok.1 hbody
    obtain ⟨numerText, hnumerator, hnumer⟩ := Option.bind_eq_some_iff.1 (orError_eq_ok.1 hnumer)
    obtain ⟨hdenom, hne⟩ := Option.filter_eq_some_iff.1 (orError_eq_ok.1 hdenom)
    obtain ⟨denomText, hdenominator, hdenom⟩ := Option.bind_eq_some_iff.1 hdenom
    obtain ⟨hnumer, hn⟩ := parseSigned_eq_some.1 hnumer
    obtain ⟨hdenom, hd⟩ := parseSigned_eq_some.1 hdenom
    obtain rfl := Except.ok.inj hbody
    exact ⟨.real numer denom, ⟨hn, hd, of_decide_eq_true hne⟩, .real hlen hkind
      (bind_asStr_eq_some.1 hnumerator) hnumer (bind_asStr_eq_some.1 hdenominator) hdenom
      (bind_asStr_eq_some.1 (orError_eq_ok.1 hdecimal)), rfl⟩
  | bitVec expectedWidth =>
    dsimp only at hbody
    split_ifs at hbody with hshape
    obtain ⟨rfl, hlen⟩ := hshape
    obtain ⟨width, hwidth, hbody⟩ := bind_eq_ok.1 hbody
    split_ifs at hbody with hwrong
    obtain ⟨value, hvalue, hbody⟩ := bind_eq_ok.1 hbody
    split_ifs at hbody with hlarge hhex
    obtain ⟨hwidth, -⟩ := Option.filter_eq_some_iff.1 (orError_eq_ok.1 hwidth)
    obtain ⟨widthJson, hwidthField, hwidth⟩ := Option.bind_eq_some_iff.1 hwidth
    obtain ⟨rfl, -⟩ := asU64_eq_some.1 hwidth
    obtain ⟨text, htext, hvalue⟩ := Option.bind_eq_some_iff.1 (orError_eq_ok.1 hvalue)
    obtain ⟨hvalue, hlt⟩ := parseUnsigned_eq_some.1 hvalue
    obtain rfl := Except.ok.inj hbody
    refine ⟨.bitVec value width, ⟨by omega, by omega, by omega, ?_⟩, .bitVec hlen hkind hwidthField
      (bind_asStr_eq_some.1 htext) hvalue (bind_asStr_eq_some.1 (not_not.1 hhex)), rfl⟩
    obtain rfl : width = expectedWidth := by omega
    by_cases hfull : width < 128
    · exact not_le.1 fun hle => hlarge ⟨hfull, hle⟩
    · rwa [show width = 128 by omega]
  | array key element =>
    dsimp only at hbody
    split_ifs at hbody with hshape
    obtain ⟨rfl, hlen⟩ := hshape
    obtain ⟨default, hdefault, hbody⟩ := bind_eq_ok.1 hbody
    obtain ⟨value, hvalue, hbody⟩ := bind_eq_ok.1 hbody
    obtain ⟨v, hfits, hencodes, rfl⟩ := exists_of_parseModelValue element hvalue
    obtain rfl := Except.ok.inj hbody
    exact ⟨.constArray v, hfits, .constArray hlen hkind (orError_eq_ok.1 hdefault) hencodes, rfl⟩
  | uninterpreted _ | datatype _ _ => cases hbody
termination_by sizeOf sort

/-- **Model values survive the witness format**: a value that fits a sort is read back as the
constant that denotes it, and what does not encode such a value is rejected. -/
theorem model_values_survive (crate : ExprCrate) (name : String) (sort : ChcSort) :
    (∀ v : SmtValue, v.Fits sort →
      parseModelValue crate name sort (smtValueToJson v) = .ok (v.constant sort) ∧
        ∀ (T : Theory) (ρ : ChcEnv T), (v.constant sort).eval ρ = v.denote T sort) ∧
    ∀ json : Json, (¬ ∃ v : SmtValue, v.Fits sort ∧ Encodes v json) →
      ∃ message, parseModelValue crate name sort json = .error message := by
  refine ⟨fun v hv => ⟨parseModelValue_of_encodes hv (encodes_smtValueToJson hv),
    fun T ρ => eval_constant hv ρ⟩, fun json hnone => ?_⟩
  cases hparse : parseModelValue crate name sort json with
  | error message => exact ⟨message, rfl⟩
  | ok e =>
    obtain ⟨v, hfits, hencodes, -⟩ := exists_of_parseModelValue sort hparse
    exact absurd ⟨v, hfits, hencodes⟩ hnone

/-- An array of arrays of ten-bit values, and a text that is too large for its width. -/
theorem model_values_survive_nested (crate : ExprCrate) :
    parseModelValue crate "a" (.array .int (.array .bool (.bitVec 10)))
        (smtValueToJson (.constArray (.constArray (.bitVec 700 10)))) =
      .ok (.constArray .int (.constArray .bool (.bitVec 700 10))) ∧
    ∃ message, parseModelValue crate "a" (.bitVec 10)
      (smtValueToJson (.bitVec 1024 10)) = .error message := by
  refine ⟨((model_values_survive crate "a" (.array .int (.array .bool (.bitVec 10)))).1
    (.constArray (.constArray (.bitVec 700 10))) ⟨rfl, by decide, by decide, by decide⟩).1,
    (model_values_survive crate "a" (.bitVec 10)).2 _ ?_⟩
  rintro ⟨v, hfits, hencodes⟩
  generalize hjson : smtValueToJson (.bitVec 1024 10) = json at hencodes
  cases hencodes with
  | bitVec hlen hkind hwidth htext hvalue hhex =>
    obtain rfl := Json.obj.inj hjson
    obtain rfl := Json.str.inj (Option.some.inj htext)
    rw [readNatural_toString] at hvalue
    obtain rfl := Option.some.inj hvalue
    exact absurd hfits.2.2.2 (by decide)
  | _ => exact hfits.elim

end TrustMc.DirectSmt
