import Mathlib.Data.Real.Basic
import Mathlib.Logic.Function.Basic

/-!
# Sorts and values

The sorts of the SMT-LIB terms the verification conditions are written in, and the values
they denote. Booleans, integers, reals, bit-vectors, arrays and (non-recursive) datatypes
have their SMT-LIB denotation; the sorts no pass looks into (floating point, strings,
regular languages, sequences, uninterpreted sorts) are interpreted by an arbitrary family
of nonempty carriers.

* **Arrays** denote total functions, so array equality is extensional.
* **Datatypes** denote the sum over the constructors of the product over the fields.
* A **value** carries its sort (`Val`), and `Val.as` reads it at a given sort.
-/

namespace TrustMc

mutual

/-- The sorts of SMT-LIB terms. -/
inductive SmtSort
  | bool
  | int
  | real
  | bitvec (width : ℕ)
  | array (index element : SmtSort)
  | datatype (name : String) (constructors : List SmtConstructor)
  | floatingPoint (ebits sbits : ℕ)
  | string
  | regLan
  | seq (element : SmtSort)
  | uninterpreted (name : String)

/-- A datatype constructor with its fields. -/
inductive SmtConstructor
  | mk (name : String) (fields : List SmtField)

/-- A constructor field; its name is the selector's name. -/
inductive SmtField
  | mk (name : String) (sort : SmtSort)

end

namespace SmtConstructor

/-- The constructor's name. -/
def name : SmtConstructor → String
  | mk n _ => n

/-- The constructor's fields. -/
def fields : SmtConstructor → List SmtField
  | mk _ fs => fs

end SmtConstructor

namespace SmtField

/-- The field's (selector's) name. -/
def name : SmtField → String
  | mk n _ => n

/-- The field's sort. -/
def sort : SmtField → SmtSort
  | mk _ s => s

end SmtField

/-- `ctor.has_field(selector)`. -/
def SmtConstructor.hasField (c : SmtConstructor) (selector : String) : Bool :=
  c.fields.any fun f => f.name == selector

/-! ### Decidable equality -/

mutual

/-- Boolean equality of sorts. -/
def SmtSort.beq : SmtSort → SmtSort → Bool
  | .bool, .bool => true
  | .int, .int => true
  | .real, .real => true
  | .bitvec w, .bitvec w' => w == w'
  | .array i e, .array i' e' => i.beq i' && e.beq e'
  | .datatype n cs, .datatype n' cs' => n == n' && SmtConstructor.beqList cs cs'
  | .floatingPoint e s, .floatingPoint e' s' => e == e' && s == s'
  | .string, .string => true
  | .regLan, .regLan => true
  | .seq e, .seq e' => e.beq e'
  | .uninterpreted n, .uninterpreted n' => n == n'
  | _, _ => false

/-- Boolean equality of constructors. -/
def SmtConstructor.beq : SmtConstructor → SmtConstructor → Bool
  | .mk n fs, .mk n' fs' => n == n' && SmtField.beqList fs fs'

/-- Boolean equality of constructor lists. -/
def SmtConstructor.beqList : List SmtConstructor → List SmtConstructor → Bool
  | [], [] => true
  | c :: cs, c' :: cs' => c.beq c' && SmtConstructor.beqList cs cs'
  | _, _ => false

/-- Boolean equality of fields. -/
def SmtField.beq : SmtField → SmtField → Bool
  | .mk n s, .mk n' s' => n == n' && s.beq s'

/-- Boolean equality of field lists. -/
def SmtField.beqList : List SmtField → List SmtField → Bool
  | [], [] => true
  | f :: fs, f' :: fs' => f.beq f' && SmtField.beqList fs fs'
  | _, _ => false

end

mutual

theorem SmtSort.beq_iff : ∀ s t : SmtSort, s.beq t = true ↔ s = t
  | .array i e, t => by
    cases t <;> simp [SmtSort.beq, SmtSort.beq_iff i, SmtSort.beq_iff e]
  | .datatype n cs, t => by
    cases t <;> simp [SmtSort.beq, SmtConstructor.beqList_iff cs]
  | .seq e, t => by cases t <;> simp [SmtSort.beq, SmtSort.beq_iff e]
  | .bool, t | .int, t | .real, t | .bitvec _, t | .floatingPoint _ _, t | .string, t
  | .regLan, t | .uninterpreted _, t => by cases t <;> simp [SmtSort.beq]

theorem SmtConstructor.beq_iff : ∀ c d : SmtConstructor, c.beq d = true ↔ c = d
  | .mk n fs, .mk n' fs' => by simp [SmtConstructor.beq, SmtField.beqList_iff fs]

theorem SmtConstructor.beqList_iff :
    ∀ cs ds : List SmtConstructor, SmtConstructor.beqList cs ds = true ↔ cs = ds
  | [], [] => by simp [SmtConstructor.beqList]
  | c :: cs, d :: ds => by
    simp [SmtConstructor.beqList, SmtConstructor.beq_iff c, SmtConstructor.beqList_iff cs]
  | [], _ :: _ | _ :: _, [] => by simp [SmtConstructor.beqList]

theorem SmtField.beq_iff : ∀ f g : SmtField, f.beq g = true ↔ f = g
  | .mk n s, .mk n' s' => by simp [SmtField.beq, SmtSort.beq_iff s]

theorem SmtField.beqList_iff :
    ∀ fs gs : List SmtField, SmtField.beqList fs gs = true ↔ fs = gs
  | [], [] => by simp [SmtField.beqList]
  | f :: fs, g :: gs => by
    simp [SmtField.beqList, SmtField.beq_iff f, SmtField.beqList_iff fs]
  | [], _ :: _ | _ :: _, [] => by simp [SmtField.beqList]

end

instance : DecidableEq SmtSort := fun s t => decidable_of_iff _ (SmtSort.beq_iff s t)

instance : Inhabited SmtSort := ⟨.bool⟩

namespace SmtSort

/-- `sort.is_bool()`. -/
def isBool : SmtSort → Bool
  | bool => true
  | _ => false

/-- `sort.is_int()`. -/
def isInt : SmtSort → Bool
  | int => true
  | _ => false

/-- `sort.bitvec_width()`. -/
def bitvecWidth : SmtSort → Option ℕ
  | bitvec w => some w
  | _ => none

/-- `sort.is_bitvec()`. -/
def isBitvec (s : SmtSort) : Bool := s.bitvecWidth.isSome

/-- `sort.array_sort()`, as the pair of index and element sort. -/
def arraySort : SmtSort → Option (SmtSort × SmtSort)
  | array i e => some (i, e)
  | _ => none

/-- `sort.is_array()`. -/
def isArray (s : SmtSort) : Bool := s.arraySort.isSome

/-- `sort.datatype_sort()`, as the list of constructors. -/
def constructors : SmtSort → Option (List SmtConstructor)
  | datatype _ cs => some cs
  | _ => none

/-- The width of a bit-vector sort, `0` for every other sort. -/
def width (s : SmtSort) : ℕ := s.bitvecWidth.getD 0

@[simp] theorem width_bitvec (w : ℕ) : (bitvec w).width = w := rfl

@[simp] theorem isBool_iff {s : SmtSort} : s.isBool = true ↔ s = bool := by
  cases s <;> simp [isBool]

@[simp] theorem bitvecWidth_eq_some {s : SmtSort} {w : ℕ} :
    s.bitvecWidth = some w ↔ s = bitvec w := by
  cases s <;> simp [bitvecWidth]

@[simp] theorem isBitvec_iff {s : SmtSort} : s.isBitvec = true ↔ ∃ w, s = bitvec w := by
  cases s <;> simp [isBitvec, bitvecWidth]

@[simp] theorem arraySort_eq_some {s : SmtSort} {p : SmtSort × SmtSort} :
    s.arraySort = some p ↔ s = array p.1 p.2 := by
  cases s <;> simp [arraySort, Prod.ext_iff]

@[simp] theorem constructors_eq_some {s : SmtSort} {cs : List SmtConstructor} :
    s.constructors = some cs ↔ ∃ n, s = datatype n cs := by
  cases s <;> simp [constructors]

/-! ### Denotation -/

mutual

/-- The values of a sort, over the carriers of the sorts no pass looks into. -/
def denote (carrier : SmtSort → Type) : SmtSort → Type
  | bool => Bool
  | int => ℤ
  | real => ℝ
  | bitvec w => BitVec w
  | array i e => i.denote carrier → e.denote carrier
  | datatype _ cs => denoteConstructors carrier cs
  | floatingPoint e s => carrier (floatingPoint e s)
  | string => carrier string
  | regLan => carrier regLan
  | seq e => carrier (seq e)
  | uninterpreted n => carrier (uninterpreted n)

/-- The sum over the constructors of their field products. -/
def denoteConstructors (carrier : SmtSort → Type) : List SmtConstructor → Type
  | [] => PUnit
  | [c] => denoteConstructor carrier c
  | c :: c' :: cs => denoteConstructor carrier c ⊕ denoteConstructors carrier (c' :: cs)

/-- The product of a constructor's fields. -/
def denoteConstructor (carrier : SmtSort → Type) : SmtConstructor → Type
  | .mk _ fs => denoteFields carrier fs

/-- The product of a list of fields. -/
def denoteFields (carrier : SmtSort → Type) : List SmtField → Type
  | [] => PUnit
  | f :: fs => denoteField carrier f × denoteFields carrier fs

/-- The values of one field. -/
def denoteField (carrier : SmtSort → Type) : SmtField → Type
  | .mk _ s => s.denote carrier

end

mutual

private theorem nonempty_denote {carrier : SmtSort → Type} (h : ∀ s, Nonempty (carrier s)) :
    ∀ s : SmtSort, Nonempty (s.denote carrier)
  | bool => ⟨false⟩
  | int => ⟨(0 : ℤ)⟩
  | real => ⟨(0 : ℝ)⟩
  | bitvec w => ⟨0#w⟩
  | array _ e => (nonempty_denote h e).elim fun x => ⟨fun _ => x⟩
  | datatype _ cs => nonempty_denoteConstructors h cs
  | floatingPoint e s => h (floatingPoint e s)
  | string => h string
  | regLan => h regLan
  | seq e => h (seq e)
  | uninterpreted n => h (uninterpreted n)

private theorem nonempty_denoteConstructors {carrier : SmtSort → Type}
    (h : ∀ s, Nonempty (carrier s)) :
    ∀ cs : List SmtConstructor, Nonempty (denoteConstructors carrier cs)
  | [] => ⟨PUnit.unit⟩
  | [c] => nonempty_denoteConstructor h c
  | c :: _ :: _ => (nonempty_denoteConstructor h c).elim fun x => ⟨Sum.inl x⟩

private theorem nonempty_denoteConstructor {carrier : SmtSort → Type}
    (h : ∀ s, Nonempty (carrier s)) :
    ∀ c : SmtConstructor, Nonempty (denoteConstructor carrier c)
  | .mk _ fs => nonempty_denoteFields h fs

private theorem nonempty_denoteFields {carrier : SmtSort → Type}
    (h : ∀ s, Nonempty (carrier s)) :
    ∀ fs : List SmtField, Nonempty (denoteFields carrier fs)
  | [] => ⟨PUnit.unit⟩
  | f :: fs =>
    (nonempty_denoteField h f).elim fun x =>
      (nonempty_denoteFields h fs).elim fun xs => ⟨(x, xs)⟩

private theorem nonempty_denoteField {carrier : SmtSort → Type}
    (h : ∀ s, Nonempty (carrier s)) : ∀ f : SmtField, Nonempty (denoteField carrier f)
  | .mk _ s => nonempty_denote h s

end

end SmtSort

/-! ### Values -/

/-- Carriers for the sorts no pass looks into. -/
structure Carriers where
  /-- The carrier of a sort. -/
  carrier : SmtSort → Type
  /-- Every carrier has an element. -/
  nonempty : ∀ s, Nonempty (carrier s)

namespace Carriers

variable (C : Carriers)

/-- The values of sort `s`. -/
abbrev Dom (s : SmtSort) : Type := s.denote C.carrier

instance (s : SmtSort) : Nonempty (C.Dom s) := SmtSort.nonempty_denote C.nonempty s

noncomputable instance (s : SmtSort) : Inhabited (C.Dom s) :=
  Classical.inhabited_of_nonempty inferInstance

/-- A value together with its sort. -/
abbrev Val : Type := Σ s : SmtSort, C.Dom s

variable {C}

namespace Val

/-- The value read at sort `s`: itself if that is its sort, a default otherwise. -/
noncomputable def as (s : SmtSort) (v : C.Val) : C.Dom s :=
  if h : v.1 = s then h ▸ v.2 else default

@[simp]
theorem as_mk (s : SmtSort) (x : C.Dom s) : as s ⟨s, x⟩ = x := by
  simp [as]

/-- Reading a value at its own sort gives the value back. -/
theorem mk_as {s : SmtSort} {v : C.Val} (h : v.1 = s) : (⟨s, v.as s⟩ : C.Val) = v := by
  subst h
  exact Sigma.ext rfl (by simp [as])

/-- Values of one sort are equal as soon as they read equally at it. -/
theorem eq_of_as_eq {s : SmtSort} {v w : C.Val} (hv : v.1 = s) (hw : w.1 = s)
    (h : v.as s = w.as s) : v = w := by
  rw [← mk_as hv, ← mk_as hw, h]

/-- The Boolean a value stands for. -/
noncomputable def toBool (v : C.Val) : Bool := v.as .bool

/-- The value of a Boolean. -/
def ofBool (b : Bool) : C.Val := ⟨.bool, b⟩

@[simp] theorem toBool_ofBool (b : Bool) : toBool (ofBool b : C.Val) = b := as_mk _ _

@[simp] theorem fst_ofBool (b : Bool) : (ofBool b : C.Val).1 = .bool := rfl

theorem ofBool_toBool {v : C.Val} (h : v.1 = .bool) : ofBool v.toBool = v := mk_as h

/-- The bit-vector of width `w` a value stands for. -/
noncomputable def toBV (w : ℕ) (v : C.Val) : BitVec w := v.as (.bitvec w)

/-- The value of a bit-vector. -/
def ofBV {w : ℕ} (x : BitVec w) : C.Val := ⟨.bitvec w, x⟩

@[simp] theorem toBV_ofBV {w : ℕ} (x : BitVec w) : toBV w (ofBV x : C.Val) = x := as_mk _ _

@[simp] theorem fst_ofBV {w : ℕ} (x : BitVec w) : (ofBV x : C.Val).1 = .bitvec w := rfl

theorem ofBV_toBV {w : ℕ} {v : C.Val} (h : v.1 = .bitvec w) : ofBV (v.toBV w) = v := mk_as h

@[simp]
theorem ofBV_inj {w : ℕ} {x y : BitVec w} : (ofBV x : C.Val) = ofBV y ↔ x = y :=
  ⟨fun h => eq_of_heq (Sigma.mk.inj h).2, fun h => h ▸ rfl⟩

@[simp]
theorem ofBool_inj {a b : Bool} : (ofBool a : C.Val) = ofBool b ↔ a = b :=
  ⟨fun h => eq_of_heq (Sigma.mk.inj h).2, fun h => h ▸ rfl⟩

/-- The integer a value stands for. -/
noncomputable def toInt (v : C.Val) : ℤ := v.as .int

/-- The value of an integer. -/
def ofInt (z : ℤ) : C.Val := ⟨.int, z⟩

@[simp] theorem toInt_ofInt (z : ℤ) : toInt (ofInt z : C.Val) = z := as_mk _ _

@[simp] theorem fst_ofInt (z : ℤ) : (ofInt z : C.Val).1 = .int := rfl

theorem ofInt_toInt {v : C.Val} (h : v.1 = .int) : ofInt v.toInt = v := mk_as h

@[simp]
theorem ofInt_inj {a b : ℤ} : (ofInt a : C.Val) = ofInt b ↔ a = b :=
  ⟨fun h => eq_of_heq (Sigma.mk.inj h).2, fun h => h ▸ rfl⟩

/-- The real a value stands for. -/
noncomputable def toReal (v : C.Val) : ℝ := v.as .real

/-- The value of a real. -/
def ofReal (r : ℝ) : C.Val := ⟨.real, r⟩

@[simp] theorem toReal_ofReal (r : ℝ) : toReal (ofReal r : C.Val) = r := as_mk _ _

@[simp]
theorem ofReal_inj {a b : ℝ} : (ofReal a : C.Val) = ofReal b ↔ a = b :=
  ⟨fun h => eq_of_heq (Sigma.mk.inj h).2, fun h => h ▸ rfl⟩

@[simp] theorem fst_ofReal (r : ℝ) : (ofReal r : C.Val).1 = .real := rfl

end Val

/-! ### Datatype values -/

/-- The field product read off a list of values, each at its field's sort. -/
noncomputable def buildFields : (fs : List SmtField) → List C.Val →
    SmtSort.denoteFields C.carrier fs
  | [], _ => PUnit.unit
  | .mk _ s :: fs, vs => ((vs.headD ⟨s, default⟩).as s, buildFields fs vs.tail)

/-- The field values of a field product. -/
def fieldVals : (fs : List SmtField) → SmtSort.denoteFields C.carrier fs → List C.Val
  | [], _ => []
  | .mk _ s :: fs, (x, xs) => ⟨s, x⟩ :: fieldVals fs xs

/-- What a constructor builds from its arguments. -/
noncomputable def buildOne : (c : SmtConstructor) → List C.Val →
    SmtSort.denoteConstructor C.carrier c
  | .mk _ fs, vs => buildFields fs vs

/-- The arguments a constructor was applied to. -/
def argVals : (c : SmtConstructor) → SmtSort.denoteConstructor C.carrier c → List C.Val
  | .mk _ fs, x => fieldVals fs x

/-- The value built by the first constructor called `name`. -/
noncomputable def buildConstructor : (cs : List SmtConstructor) → String → List C.Val →
    SmtSort.denoteConstructors C.carrier cs
  | [], _, _ => PUnit.unit
  | [c], _, vs => buildOne c vs
  | c :: c' :: cs, name, vs =>
    if c.name = name then Sum.inl (buildOne c vs)
    else Sum.inr (buildConstructor (c' :: cs) name vs)

/-- The constructor a datatype value was built with, and its arguments. -/
def destruct : (cs : List SmtConstructor) → SmtSort.denoteConstructors C.carrier cs →
    Option (SmtConstructor × List C.Val)
  | [], _ => none
  | [c], x => some (c, argVals c x)
  | c :: _ :: _, Sum.inl x => some (c, argVals c x)
  | _ :: c' :: cs, Sum.inr x => destruct (c' :: cs) x

theorem fieldVals_buildFields {fs : List SmtField} {vs : List C.Val}
    (h : vs.map (·.1) = fs.map SmtField.sort) : fieldVals fs (buildFields fs vs) = vs := by
  induction fs generalizing vs with
  | nil =>
    obtain rfl : vs = [] := by simpa using h
    rfl
  | cons f fs ih =>
    obtain ⟨n, s⟩ := f
    cases vs with
    | nil => simp at h
    | cons v vs =>
      simp only [List.map_cons, List.cons.injEq, SmtField.sort] at h
      simp only [buildFields, fieldVals, List.headD_cons, List.tail_cons, ih h.2,
        Val.mk_as h.1]

theorem argVals_buildOne {c : SmtConstructor} {vs : List C.Val}
    (h : vs.map (·.1) = c.fields.map SmtField.sort) : argVals c (buildOne c vs) = vs := by
  cases c
  exact fieldVals_buildFields h

theorem buildConstructor_of_eq {c c' : SmtConstructor} {cs : List SmtConstructor}
    {name : String} {vs : List C.Val} (h : c.name = name) :
    buildConstructor (c :: c' :: cs) name vs = Sum.inl (buildOne c vs) :=
  if_pos h

theorem buildConstructor_of_ne {c c' : SmtConstructor} {cs : List SmtConstructor}
    {name : String} {vs : List C.Val} (h : c.name ≠ name) :
    buildConstructor (c :: c' :: cs) name vs = Sum.inr (buildConstructor (c' :: cs) name vs) :=
  if_neg h

/-- A value built by a constructor of the datatype is taken apart into that constructor
and the arguments it was built from. -/
theorem destruct_buildConstructor {cs : List SmtConstructor} {name : String}
    {c : SmtConstructor} {vs : List C.Val}
    (hc : cs.find? (fun c => c.name == name) = some c)
    (hvs : vs.map (·.1) = c.fields.map SmtField.sort) :
    destruct cs (buildConstructor cs name vs) = some (c, vs) := by
  induction cs with
  | nil => simp at hc
  | cons d cs ih =>
    by_cases hn : d.name = name
    · obtain rfl : d = c := by simpa [hn] using hc
      cases cs with
      | nil => simp only [buildConstructor, destruct, argVals_buildOne hvs]
      | cons c' cs => rw [buildConstructor_of_eq hn, destruct, argVals_buildOne hvs]
    · have hc : cs.find? (fun c => c.name == name) = some c := by simpa [hn] using hc
      cases cs with
      | nil => simp at hc
      | cons c' cs =>
        rw [buildConstructor_of_ne hn, destruct]
        exact ih hc

end Carriers

end TrustMc
