import TrustMc.Flatten.EnumLayout
import TrustMc.Arithmetic.TermValues

/-!
# Values of the slots of an enum

The model of `codegen_stmt_flatten_enum_bv.rs` for results of the enum's datatype. The slots are
read off a tree of conditionals over constructors where the result is one
(`decomposeEnumBvConstructorTree`), and otherwise by testers and selectors (`testerValues`).

Both say the same (`Denotes`): the tag names the constructor of the result's value, and a slot
holds the leaf this constructor has there, else the default of its sort. `denotes_decompose` is by
induction on the tree, where the slots of a branch depend on its value only (`Denotes.of_eval`).
-/

namespace TrustMc

namespace Flatten

open Carriers Carriers.Val TrustMc.Expr Arithmetic Lists

/-! ### The destination -/

/-- A flattened destination: its layout, and the sorts of the output state variables from its tag
on. `pendingName` gives the names of `chc_fresh_name`. -/
structure EnumBvDest where
  layout : EnumBvLayout
  outputSorts : List SmtSort
  arrayPayloadBvWidth : Option ℕ
  reinterpretFixedLayout : Expr → SmtSort → Option Expr
  pendingName : ℕ → String

/-- `sort_default_expr`. -/
def sortDefaultExpr : SmtSort → Option Expr
  | .bool => some (.boolConst false)
  | .bitvec w => some (.bitVecConst (BitVec.ofNat w 0))
  | .int => some (.intConst 0)
  | _ => none

/-- `enum_bv_constructor_tag`. -/
def enumBvConstructorTag (layout : EnumBvLayout) (ctorIdx : ℕ) : Expr :=
  if layout.numConstructors = 2 then .boolConst (ctorIdx == 1)
  else .bitVecConst (BitVec.ofNat layout.tagBits ctorIdx)

namespace EnumBvDest

/-- `coerce_flatten_slot_value`. -/
def coerceFlattenSlotValue (d : EnumBvDest) (outSort : SmtSort) (value : Expr) : Option Expr :=
  if value.sort = outSort then some value
  else
    match value.sort, outSort with
    | .bitvec _, .bitvec w => some (coerceBitvecWidthSafe value w .zeroExtend)
    | .bool, .bitvec w =>
      some (.ite value (.bitVecConst (BitVec.ofNat w 1)) (.bitVecConst (BitVec.ofNat w 0)))
    | .bitvec w, .bool => some (.not (.eq value (.bitVecConst (BitVec.ofNat w 0))))
    | .int, .bitvec w => some (int2bv w value)
    | .bitvec _, .int => some (bv2int value)
    | .bitvec _, .array _ _ => d.reinterpretFixedLayout value outSort
    | _, _ => none

/-! ### Writing the leaves -/

/-- What the loop over the leaves of a field writes, from the slot `slot` on. -/
def leafWrites (d : EnumBvDest) : ℕ → List Expr → Option (List (ℕ × Expr))
  | _, [] => some []
  | slot, leaf :: leaves =>
    -- the `break` of the loop
    if d.layout.maxPayloadSlots ≤ slot then some []
    else do
      let outSort ← d.outputSorts[1 + slot]?
      let coerced ← d.coerceFlattenSlotValue outSort leaf
      let writes ← d.leafWrites (slot + 1) leaves
      return (slot, coerced) :: writes

/-- What the loop over the fields of a constructor writes, from the field `fieldIdx` on. -/
def fieldWrites (d : EnumBvDest) (ctorIdx : ℕ) : ℕ → List Expr → Option (List (ℕ × Expr))
  | _, [] => some []
  | fieldIdx, arg :: args =>
    match d.layout.payloadSlot ctorIdx fieldIdx with
    | none => d.fieldWrites ctorIdx (fieldIdx + 1) args
    | some slotBase => do
      let writes ← d.leafWrites slotBase (collectLeafExprs arg)
      let others ← d.fieldWrites ctorIdx (fieldIdx + 1) args
      return writes ++ others

end EnumBvDest

/-- The value that is in a slot after the writes. -/
def written (writes : List (ℕ × Expr)) (slot : ℕ) : Option Expr :=
  writes.foldl (fun value w => if w.1 = slot then some w.2 else value) none

namespace EnumBvDest

/-! ### The tree of constructors -/

/-- `enum_bv_constructor_leaf_values`. -/
def constructorLeafValues (d : EnumBvDest) (ctors : List SmtConstructor) (constructorName : String)
    (args : List Expr) : Option (List Expr) := do
  let ctorIdx ← ctors.findIdx? (·.name == constructorName)
  let defaults ← (List.range d.layout.maxPayloadSlots).mapM fun slot => do
    sortDefaultExpr (← d.outputSorts[1 + slot]?)
  let writes ← d.fieldWrites ctorIdx 0 args
  return enumBvConstructorTag d.layout ctorIdx ::
    defaults.zipIdx.map fun (value, slot) => (written writes slot).getD value

/-- `merge_enum_bv_constructor_ite`. -/
def mergeEnumBvConstructorIte (cond thenValue elseValue : Expr) : Expr :=
  match thenValue, elseValue with
  | .boolConst true, .boolConst false => cond
  | .boolConst false, .boolConst true => .not cond
  | _, _ => .ite cond thenValue elseValue

/-- `decompose_enum_bv_constructor_tree`. -/
def decomposeEnumBvConstructorTree (d : EnumBvDest) (ctors : List SmtConstructor) :
    Expr → Option (List Expr)
  | .app (.datatypeConstructor _ constructorName _) args =>
    d.constructorLeafValues ctors constructorName args
  | .app .ite [cond, thenExpr, elseExpr] => do
    let thenValues ← d.decomposeEnumBvConstructorTree ctors thenExpr
    let elseValues ← d.decomposeEnumBvConstructorTree ctors elseExpr
    if thenValues.length ≠ elseValues.length then none
    else return List.zipWith (mergeEnumBvConstructorIte cond) thenValues elseValues
  | _ => none

/-! ### Testers and selectors -/

/-- A chain of conditionals over testers; constructors without a value are passed over. -/
def testerChain (dtName : String) (e : Expr) (base : Expr) :
    List (SmtConstructor × Option Expr) → Expr
  | [] => base
  | (_, none) :: rest => testerChain dtName e base rest
  | (ctor, some value) :: rest =>
    .ite (.isConstructor e dtName ctor.name) value (testerChain dtName e base rest)

/-- `tag_expr`. -/
def testerTag (d : EnumBvDest) (dtName : String) (ctors : List SmtConstructor) (e : Expr) :
    Option Expr :=
  if d.layout.numConstructors = 2 then do
    let ctor ← ctors[1]?
    return .isConstructor e dtName ctor.name
  else if d.layout.numConstructors = 0 then none
  else
    -- the last constructor is the base of the chain
    let lastIdx := d.layout.numConstructors - 1
    some (testerChain dtName e (.bitVecConst (BitVec.ofNat d.layout.tagBits lastIdx))
      ((ctors.take lastIdx).zipIdx.map fun (ctor, ctorIdx) =>
        (ctor, some (.bitVecConst (BitVec.ofNat d.layout.tagBits ctorIdx)))))

/-- The selectors of a constructor applied to a result. -/
def selectors (dtName : String) (e : Expr) (ctor : SmtConstructor) : List Expr :=
  ctor.fields.map fun field => .fieldSelect e dtName field.name field.sort

/-- One payload slot, from what each constructor writes. -/
def testerSlot (d : EnumBvDest) (dtName : String) (ctors : List SmtConstructor) (e : Expr)
    (ctorWrites : List (List (ℕ × Expr))) (slot : ℕ) : Option (Option Expr) := do
  let outSort ← d.outputSorts[1 + slot]?
  let values := ctorWrites.map (written · slot)
  if values.any Option.isSome then
    let base := (sortDefaultExpr outSort).getD (.var (d.pendingName slot) outSort)
    return some (testerChain dtName e base (ctors.zip values))
  else return sortDefaultExpr outSort

/-- The values by testers and selectors. -/
def testerValues (d : EnumBvDest) (dtName : String) (ctors : List SmtConstructor) (e : Expr) :
    Option (List (Option Expr)) := do
  let tag ← d.testerTag dtName ctors e
  let ctorWrites ← ctors.zipIdx.mapM fun (ctor, ctorIdx) =>
    d.fieldWrites ctorIdx 0 (selectors dtName e ctor)
  let slots ← (List.range d.layout.maxPayloadSlots).mapM (d.testerSlot dtName ctors e ctorWrites)
  return some tag :: slots

/-- `build_enum_bv_destination_values`. -/
def buildEnumBvDestinationValues (d : EnumBvDest) (e : Expr) : Option (List (Option Expr)) :=
  match e.sort with
  | .datatype dtName ctors =>
    if ctors.length ≠ d.layout.numConstructors then none
    else
      match d.decomposeEnumBvConstructorTree ctors e with
      | some values => some (values.map some)
      | none => d.testerValues dtName ctors e
  | _ => none

end EnumBvDest

/-! ### Suitable destinations -/

/-- Constructors and the fields of each struct have distinct names. -/
structure DistinctNames (ctors : List SmtConstructor) : Prop where
  ctorNames : (ctors.map SmtConstructor.name).Nodup
  fieldNames : ∀ ctor ∈ ctors, (ctor.fields.map SmtField.name).Nodup
  nestedNames : ∀ ctor ∈ ctors, ∀ field ∈ ctor.fields, FieldNamesDistinct field.sort

/-- The destination has the state variables of a layout for the constructors. -/
structure EnumBvDest.Suits (d : EnumBvDest) (ctors : List SmtConstructor)
    (slotSorts : List SmtSort) : Prop where
  layout : LayoutFor ctors d.layout slotSorts
  outputs : ∃ others, d.outputSorts = d.layout.tagSort :: slotSorts ++ others
  widths : ∀ w, .bitvec w ∈ slotSorts → 0 < w

variable {T : Theory} {ρ : T.Env} {d : EnumBvDest} {ctors : List SmtConstructor}
  {slotSorts : List SmtSort}

theorem EnumBvDest.Suits.outputSort (h : d.Suits ctors slotSorts) {slot : ℕ}
    (hslot : slot < d.layout.maxPayloadSlots) :
    ∃ s, slotSorts[slot]? = some s ∧ d.outputSorts[1 + slot]? = some s := by
  obtain ⟨others, hothers⟩ := h.outputs
  have hlt : slot < slotSorts.length := h.layout.slots ▸ hslot
  refine ⟨slotSorts[slot], List.getElem?_eq_getElem hlt, ?_⟩
  rw [hothers, Nat.add_comm, List.cons_append, List.getElem?_cons_succ,
    List.getElem?_append_left hlt, List.getElem?_eq_getElem hlt]

theorem forall₂_of_getElem? {α β : Type} {R : α → β → Prop} {as : List α} {bs : List β}
    (hlen : as.length = bs.length)
    (h : ∀ (i : ℕ) (a : α) (b : β), as[i]? = some a → bs[i]? = some b → R a b) :
    List.Forall₂ R as bs :=
  List.forall₂_iff_get.2 ⟨hlen, fun i ha hb =>
    h i _ _ (List.getElem?_eq_getElem ha) (List.getElem?_eq_getElem hb)⟩

/-- Coercing the leaves of one sort to a slot that holds them. -/
theorem coerce_of_holdsSort {s slot : SmtSort} (h : HoldsSort s slot) :
    ∃ f : Expr → Expr, (∀ a, a.sort = s → d.coerceFlattenSlotValue slot a = some (f a) ∧
        (f a).sort = slot) ∧
      ∀ a b, a.sort = s → b.sort = s → a.eval ρ = b.eval ρ → (f a).eval ρ = (f b).eval ρ := by
  by_cases hs : s = slot
  · refine ⟨id, fun a ha => ⟨?_, ha.trans hs⟩, fun a b _ _ h => h⟩
    simp [EnumBvDest.coerceFlattenSlotValue, ha, hs]
  obtain ⟨w, rfl, ⟨w', rfl, hle⟩ | rfl | rfl⟩ := h.resolve_left hs
  · have hlt : w < w' := lt_of_le_of_ne hle fun h => hs (h ▸ rfl)
    refine ⟨fun a => .app (.bvZeroExtend (w' - w)) [a], fun a ha => ⟨?_, ?_⟩,
      fun a b _ _ h => by simp only [eval_app, List.map_cons, List.map_nil, h]⟩
    · simp only [EnumBvDest.coerceFlattenSlotValue, ha, if_neg hs]
      simp [coerceBitvecWidthSafe, ha, SmtSort.bitvecWidth, hlt.ne, hlt, SignExtension.extend]
    · simp [Op.resultSort, ha, hle]
  · refine ⟨fun a => .not (.eq a (.bitVecConst (BitVec.ofNat w 0))), fun a ha => ⟨?_, rfl⟩,
      fun a b _ _ h => by simp only [eval_app, List.map_cons, List.map_nil, h]⟩
    simp only [EnumBvDest.coerceFlattenSlotValue, ha, if_neg hs]
  · refine ⟨bv2int, fun a ha => ⟨?_, rfl⟩,
      fun a b _ _ h => by simp only [bv2int, eval_app, List.map_cons, List.map_nil, h]⟩
    simp only [EnumBvDest.coerceFlattenSlotValue, ha, if_neg hs]

/-! ### Writes -/

/-- The writes go to the same slots, and write terms of the slot's sort with one value. -/
def SameWrites (ρ : T.Env) (slotSorts : List SmtSort) : List (ℕ × Expr) → List (ℕ × Expr) → Prop :=
  List.Forall₂ fun w w' =>
    w.1 = w'.1 ∧ slotSorts[w.1]? = some w.2.sort ∧ SameTerm ρ w.2 w'.2

/-- The leaves fit the slots from `slot` on. -/
def LeavesFit (slotSorts : List SmtSort) (slot : ℕ) (leaves : List Expr) : Prop :=
  ∀ i leaf s, leaves[i]? = some leaf → slotSorts[slot + i]? = some s → HoldsSort leaf.sort s

theorem exists_leafWrites (hd : d.Suits ctors slotSorts) {leaves leaves' : List Expr}
    (h : List.Forall₂ (SameTerm ρ) leaves leaves') {slot : ℕ}
    (hfit : LeavesFit slotSorts slot leaves) :
    ∃ ws ws', d.leafWrites slot leaves = some ws ∧ d.leafWrites slot leaves' = some ws' ∧
      SameWrites ρ slotSorts ws ws' := by
  induction h generalizing slot with
  | nil => exact ⟨[], [], rfl, rfl, .nil⟩
  | @cons a b as bs hab _ ih =>
    rw [EnumBvDest.leafWrites, EnumBvDest.leafWrites]
    by_cases hmax : d.layout.maxPayloadSlots ≤ slot
    · rw [if_pos hmax, if_pos hmax]
      exact ⟨[], [], rfl, rfl, .nil⟩
    · rw [if_neg hmax, if_neg hmax]
      obtain ⟨s, hs, hout⟩ := hd.outputSort (not_le.1 hmax)
      obtain ⟨f, hf, hcongr⟩ := coerce_of_holdsSort (d := d) (ρ := ρ) (hfit 0 a s rfl hs)
      obtain ⟨hfa, hsort⟩ := hf a rfl
      obtain ⟨hfb, hsort'⟩ := hf b hab.1.symm
      obtain ⟨ws, ws', hws, hws', hsame⟩ := ih (fun i leaf s hi hs =>
        hfit (i + 1) leaf s hi (by rw [← hs]; congr 1; omega) : LeavesFit slotSorts (slot + 1) as)
      refine ⟨(slot, f a) :: ws, (slot, f b) :: ws', ?_, ?_, .cons ⟨rfl, ?_, ?_⟩ hsame⟩
      · simp [hout, hfa, hws]
      · simp [hout, hfb, hws']
      · rw [hs, hsort]
      · exact sameTerm_of_eval (hcongr a b rfl hab.1.symm hab.2)

/-- Where the arguments with a slot have related leaves. -/
theorem exists_fieldWrites (hd : d.Suits ctors slotSorts) {ctorIdx : ℕ} {args args' : List Expr}
    (hlen : args.length = args'.length) {fieldIdx : ℕ}
    (h : ∀ i a b slotBase, args[i]? = some a → args'[i]? = some b →
      d.layout.payloadSlot ctorIdx (fieldIdx + i) = some slotBase →
        List.Forall₂ (SameTerm ρ) (collectLeafExprs a) (collectLeafExprs b) ∧
          LeavesFit slotSorts slotBase (collectLeafExprs a)) :
    ∃ ws ws', d.fieldWrites ctorIdx fieldIdx args = some ws ∧
      d.fieldWrites ctorIdx fieldIdx args' = some ws' ∧ SameWrites ρ slotSorts ws ws' := by
  induction args generalizing args' fieldIdx with
  | nil =>
    obtain rfl : args' = [] := List.length_eq_zero_iff.1 hlen.symm
    exact ⟨[], [], rfl, rfl, .nil⟩
  | cons a as ih =>
    obtain ⟨b, bs, rfl⟩ := List.exists_cons_of_length_pos (l := args') (by simp [← hlen])
    obtain ⟨ws, ws', hws, hws', hsame⟩ := @ih bs (by simpa using hlen) (fieldIdx + 1)
      fun i a b slotBase ha hb hbase =>
        h (i + 1) a b slotBase ha hb (by rw [← hbase]; congr 1; omega)
    rw [EnumBvDest.fieldWrites, EnumBvDest.fieldWrites]
    cases hslot : d.layout.payloadSlot ctorIdx fieldIdx with
    | none => exact ⟨ws, ws', hws, hws', hsame⟩
    | some slotBase =>
      obtain ⟨hab, hfit⟩ := h 0 a b slotBase rfl rfl hslot
      obtain ⟨vs, vs', hvs, hvs', hsame'⟩ := exists_leafWrites hd hab hfit
      refine ⟨vs ++ ws, vs' ++ ws', ?_, ?_, List.rel_append hsame' hsame⟩
      · simp [hvs, hws]
      · simp [hvs', hws']

/-- A slot is empty on both sides, or has terms of its sort with one value. -/
def SameInSlot (ρ : T.Env) (slotSorts : List SmtSort) (slot : ℕ) (x y : Option Expr) : Prop :=
  (x = none ∧ y = none) ∨ ∃ v v', x = some v ∧ y = some v' ∧ slotSorts[slot]? = some v.sort ∧
    SameTerm ρ v v'

/-- What is in a slot after two such lists of writes. -/
theorem sameInSlot_written {ws ws' : List (ℕ × Expr)} (h : SameWrites ρ slotSorts ws ws')
    (slot : ℕ) : SameInSlot ρ slotSorts slot (written ws slot) (written ws' slot) := by
  refine List.rel_foldl (P := SameInSlot ρ slotSorts slot) ?_ (.inl ⟨rfl, rfl⟩) h
  rintro x y hxy w w' ⟨hslot, hsort, hsame⟩
  dsimp only
  rw [← hslot]
  split_ifs with heq
  · exact .inr ⟨_, _, rfl, rfl, heq ▸ hsort, hsame⟩
  · exact hxy

/-! ### Constructors -/

/-- Every value of a datatype with constructors was built by one of them. -/
theorem exists_constructorOf {n : String} {e : Expr} (hs : e.sort = .datatype n ctors)
    (hne : ctors ≠ []) :
    ∃ (c : ℕ) (ctor : SmtConstructor), ctors[c]? = some ctor ∧
      constructorOf (e.eval ρ) = some ctor := by
  have hdestruct : ∀ cs : List SmtConstructor, cs ≠ [] → ∀ x, ∃ ctor ∈ cs, ∃ vs,
      destruct (C := T.toCarriers) cs x = some (ctor, vs) := by
    intro cs
    induction cs with
    | nil => exact fun h => absurd rfl h
    | cons c cs ih =>
      intro _ x
      cases cs with
      | nil => exact ⟨c, by simp, _, rfl⟩
      | cons c' cs =>
        cases x with
        | inl x => exact ⟨c, by simp, _, rfl⟩
        | inr x =>
          obtain ⟨ctor, hmem, vs, h⟩ := ih (by simp) x
          exact ⟨ctor, List.mem_cons_of_mem _ hmem, vs, h⟩
  obtain ⟨⟨s, x⟩, hv⟩ : ∃ v, e.eval ρ = v := ⟨_, rfl⟩
  obtain rfl : s = .datatype n ctors := by rw [← hs, ← eval_sort e ρ, hv]
  obtain ⟨ctor, hmem, vs, hvs⟩ := hdestruct ctors hne x
  obtain ⟨c, hc⟩ := List.mem_iff_getElem?.1 hmem
  exact ⟨c, ctor, hc, by simp only [constructorOf, hv, destructVal, hvs, Option.map_some]⟩

theorem holds_tester {n : String} {e : Expr} {ctor ctor' : SmtConstructor}
    (h : constructorOf (e.eval ρ) = some ctor) :
    Holds ρ (.isConstructor e n ctor'.name) ↔ ctor.name = ctor'.name := by
  simp [holds_isConstructor, h]

section Chain

variable {n : String} {e base : Expr} {l : List (SmtConstructor × Option Expr)}

theorem sort_testerChain (hsort : ∀ p ∈ l, ∀ v, p.2 = some v → v.sort = base.sort) :
    (EnumBvDest.testerChain n e base l).sort = base.sort := by
  induction l with
  | nil => rfl
  | cons p l ih =>
    obtain ⟨ctor, _ | v⟩ := p
    · exact ih fun p hp => hsort p (by simp [hp])
    · simp [EnumBvDest.testerChain, Op.resultSort, hsort (ctor, some v) (by simp) v rfl]

/-- No tester of the chain holds. -/
theorem eval_testerChain_base (hsort : ∀ p ∈ l, ∀ v, p.2 = some v → v.sort = base.sort)
    {ctor : SmtConstructor} (hctor : constructorOf (e.eval ρ) = some ctor)
    (hmiss : ∀ p ∈ l, p.1.name ≠ ctor.name) :
    (EnumBvDest.testerChain n e base l).eval ρ = base.eval ρ := by
  induction l with
  | nil => rfl
  | cons p l ih =>
    have hrest := ih (fun p hp => hsort p (by simp [hp])) fun p hp => hmiss p (by simp [hp])
    obtain ⟨ctor', _ | v⟩ := p
    · exact hrest
    · have hv := hsort (ctor', some v) (by simp) v rfl
      have htail := @sort_testerChain n e base l fun p hp => hsort p (by simp [hp])
      rw [EnumBvDest.testerChain, eval_ite (hv.trans htail.symm), if_neg, hrest]
      rw [holds_tester hctor]
      exact fun heq => hmiss (ctor', some v) (by simp) heq.symm

/-- The chain takes the value of the constructor, or the base where it has none. -/
theorem eval_testerChain (hsort : ∀ p ∈ l, ∀ v, p.2 = some v → v.sort = base.sort)
    {ctor : SmtConstructor} (hctor : constructorOf (e.eval ρ) = some ctor)
    (hnames : (l.map (·.1.name)).Nodup) {v : Option Expr} (hmem : (ctor, v) ∈ l) :
    (EnumBvDest.testerChain n e base l).eval ρ = (v.getD base).eval ρ := by
  induction l with
  | nil => simp at hmem
  | cons p l ih =>
    obtain ⟨hp, hl⟩ := List.nodup_cons.1 hnames
    have hsort' : ∀ p ∈ l, ∀ v, p.2 = some v → v.sort = base.sort :=
      fun p hp => hsort p (by simp [hp])
    rcases List.mem_cons.1 hmem with rfl | hin
    · have hmiss : ∀ p ∈ l, p.1.name ≠ ctor.name := fun p hpl heq =>
        hp (List.mem_map.2 ⟨p, hpl, heq⟩)
      cases v with
      | none =>
        rw [EnumBvDest.testerChain]
        exact eval_testerChain_base hsort' hctor hmiss
      | some v =>
        have hv := hsort (ctor, some v) (by simp) v rfl
        rw [EnumBvDest.testerChain, eval_ite (hv.trans (sort_testerChain hsort').symm),
          if_pos ((holds_tester hctor).2 rfl), Option.getD_some]
    · have hrest := ih hsort' hl hin
      obtain ⟨ctor', _ | v'⟩ := p
      · exact hrest
      · have hv := hsort (ctor', some v') (by simp) v' rfl
        rw [EnumBvDest.testerChain, eval_ite (hv.trans (sort_testerChain hsort').symm), if_neg,
          hrest]
        rw [holds_tester hctor]
        exact fun heq => hp (List.mem_map.2 ⟨(ctor, v), hin, heq⟩)

end Chain

/-! ### Fields of a constructor -/

theorem collectLeafExprs_fieldSelect (e : Expr) (n f : String) (s : SmtSort) :
    collectLeafExprs (.fieldSelect e n f s) = selectLeaves s (.fieldSelect e n f s) := by
  rw [collectLeafExprs]
  · rfl
  · simp

section Fields

variable {n : String} {c : ℕ} {ctor : SmtConstructor} (hd : d.Suits ctors slotSorts)
  (hc : ctors[c]? = some ctor)

include hd hc

/-- The leaves of a field with a slot, read by selectors. -/
theorem leavesFit_selector {e : Expr} {i slotBase : ℕ} {field : SmtField}
    (hi : ctor.fields[i]? = some field) (hslot : d.layout.payloadSlot c i = some slotBase) :
    flattenableWithin maxFlattenDepth field.sort = true ∧ LeavesFit slotSorts slotBase
      (collectLeafExprs (.fieldSelect e n field.name field.sort)) := by
  obtain ⟨hflat, hfit⟩ := hd.layout.fits c ctor i field slotBase hc hi hslot
  refine ⟨hflat, fun j leaf s hleaf hs => ?_⟩
  rw [collectLeafExprs_fieldSelect] at hleaf
  refine hfit j leaf.sort s ?_ hs
  have hsorts := @map_sort_selectLeaves maxFlattenDepth field.sort hflat
    (.fieldSelect e n field.name field.sort) rfl
  rw [collectLeafSorts, Nat.sub_zero, ← hsorts, List.getElem?_map, hleaf, Option.map_some]

/-- The selectors of a constructor on results with one value. -/
theorem sameWrites_selectors {a b : Expr} (h : a.eval ρ = b.eval ρ) :
    ∃ ws ws', d.fieldWrites c 0 (EnumBvDest.selectors n a ctor) = some ws ∧
      d.fieldWrites c 0 (EnumBvDest.selectors n b ctor) = some ws' ∧
        SameWrites ρ slotSorts ws ws' := by
  refine exists_fieldWrites hd (by simp [EnumBvDest.selectors]) ?_
  intro i x y slotBase hx hy hslot
  obtain ⟨field, hi, rfl⟩ := Option.map_eq_some_iff.1 (List.getElem?_map ▸ hx)
  obtain ⟨field', hi', rfl⟩ := Option.map_eq_some_iff.1 (List.getElem?_map ▸ hy)
  obtain rfl : field = field' := by rw [hi] at hi'; exact Option.some.inj hi'
  rw [Nat.zero_add] at hslot
  obtain ⟨hflat, hfit⟩ := leavesFit_selector (n := n) (e := a) hd hc hi hslot
  refine ⟨?_, hfit⟩
  rw [collectLeafExprs_fieldSelect, collectLeafExprs_fieldSelect]
  exact forall₂_selectLeaves hflat (eval_fieldSelect_congr h n field.name field.sort)

/-- The arguments of a constructor application, and the selectors applied to it. -/
theorem sameWrites_args (hnames : DistinctNames ctors) {dt name : String} {args : List Expr}
    (hfind : ctors.find? (·.name == name) = some ctor)
    (hws : (Expr.datatypeConstructor dt name args (.datatype n ctors)).WellSorted) :
    ∃ ws ws', d.fieldWrites c 0 (EnumBvDest.selectors n
        (.datatypeConstructor dt name args (.datatype n ctors)) ctor) = some ws ∧
      d.fieldWrites c 0 args = some ws' ∧ SameWrites ρ slotSorts ws ws' := by
  obtain ⟨n', cs, ctor', hsort, hfind', hsorts⟩ := constructor_of_wellSorted hws
  obtain ⟨rfl, rfl⟩ : n = n' ∧ ctors = cs := by simpa using hsort
  obtain rfl : ctor = ctor' := by rw [hfind] at hfind'; exact Option.some.inj hfind'
  have hmem := List.mem_of_getElem? hc
  have hargs := @forall₂_args_fields _ ρ dt _ n _ _ _ hfind hsorts
    (hnames.fieldNames ctor hmem)
  have hlen : args.length = ctor.fields.length := by simpa using congrArg List.length hsorts
  refine exists_fieldWrites hd (by simp [EnumBvDest.selectors, hlen]) ?_
  intro i x arg slotBase hx harg hslot
  obtain ⟨field, hi, rfl⟩ := Option.map_eq_some_iff.1 (List.getElem?_map ▸ hx)
  rw [Nat.zero_add] at hslot
  obtain ⟨hflat, hfit⟩ := leavesFit_selector (n := n) (e := .datatypeConstructor dt name args
    (.datatype n ctors)) hd hc hi hslot
  refine ⟨?_, hfit⟩
  obtain ⟨hltArg, rfl⟩ := List.getElem?_eq_some_iff.1 harg
  obtain ⟨hltField, rfl⟩ := List.getElem?_eq_some_iff.1 hi
  obtain ⟨hfield, hsortArg, heval⟩ := List.forall₂_iff_get.1 hargs |>.2 i hltArg hltField
  have hleaves := forall₂_collectLeafExprs (ρ := ρ)
    ((wellSorted_app.1 hws).2 args[i] (List.getElem_mem hltArg)) (hsortArg ▸ hflat)
    (hsortArg ▸ hnames.nestedNames ctor hmem _ hfield)
  rw [collectLeafExprs_fieldSelect]
  have hselect := forall₂_selectLeaves hflat heval
  rw [show args[i].sort = ctor.fields[i].sort from hsortArg] at hleaves
  exact forall₂_sameTerm_trans hselect (forall₂_sameTerm_symm hleaves)

end Fields

/-! ### What the slots hold -/

/-- What a slot of sort `s` should hold after the writes of the constructor: the leaf written, else
the default of the sort. -/
def slotTerm (writes : List (ℕ × Expr)) (slot : ℕ) (s : SmtSort) : Option Expr :=
  (written writes slot).or (sortDefaultExpr s)

theorem sort_sortDefaultExpr {s : SmtSort} {x : Expr} (h : sortDefaultExpr s = some x) :
    x.sort = s := by
  cases s <;> simp only [sortDefaultExpr, reduceCtorEq, Option.some.injEq] at h <;> subst h <;> rfl

theorem sort_enumBvConstructorTag (layout : EnumBvLayout) (c : ℕ) :
    (enumBvConstructorTag layout c).sort = layout.tagSort := by
  rw [enumBvConstructorTag, EnumBvLayout.tagSort]
  split_ifs <;> rfl

/-- After two lists of writes that say the same. -/
theorem slotTerm_of_sameWrites {ws ws' : List (ℕ × Expr)} (h : SameWrites ρ slotSorts ws ws')
    {slot : ℕ} {s : SmtSort} (hs : slotSorts[slot]? = some s) {x : Expr}
    (hx : slotTerm ws slot s = some x) :
    ∃ y, slotTerm ws' slot s = some y ∧ x.sort = s ∧ SameTerm ρ x y := by
  rw [slotTerm] at hx ⊢
  rcases sameInSlot_written h slot with ⟨hw, hw'⟩ | ⟨v, v', hw, hw', hsort, hsame⟩
  · rw [hw, Option.none_or] at hx
    exact ⟨x, by rw [hw', Option.none_or, hx], sort_sortDefaultExpr hx, SameTerm.refl x⟩
  · rw [hw, Option.some_or] at hx
    obtain rfl := Option.some.inj hx
    exact ⟨v', by rw [hw', Option.some_or], by rw [hs] at hsort; exact (Option.some.inj hsort).symm,
      hsame⟩

/-- The values hold what the result says: they have the sorts of the state variables, and when
the result is built by a constructor, the tag names it and each slot holds its leaf there, or the
default. -/
structure Denotes (d : EnumBvDest) (ctors : List SmtConstructor) (slotSorts : List SmtSort)
    (n : String) (ρ : T.Env) (e : Expr) (values : List (Option Expr)) : Prop where
  sorts : List.Forall₂ (fun v s => ∀ y ∈ v, y.sort = s) values (d.layout.tagSort :: slotSorts)
  tag : ∀ c ctor, ctors[c]? = some ctor → constructorOf (e.eval ρ) = some ctor →
    ∃ y, values[0]? = some (some y) ∧ y.eval ρ = (enumBvConstructorTag d.layout c).eval ρ
  slots : ∀ c ctor ws, ctors[c]? = some ctor → constructorOf (e.eval ρ) = some ctor →
    d.fieldWrites c 0 (EnumBvDest.selectors n e ctor) = some ws →
      ∀ slot s x, slotSorts[slot]? = some s → slotTerm ws slot s = some x →
        ∃ y, values[1 + slot]? = some (some y) ∧ y.eval ρ = x.eval ρ

/-! ### The tree route -/

theorem eval_mergeEnumBvConstructorIte {g a b : Expr} (hg : g.sort = .bool)
    (hab : a.sort = b.sort) :
    (EnumBvDest.mergeEnumBvConstructorIte g a b).sort = a.sort ∧
      (Holds ρ g → (EnumBvDest.mergeEnumBvConstructorIte g a b).eval ρ = a.eval ρ) ∧
      (¬ Holds ρ g → (EnumBvDest.mergeEnumBvConstructorIte g a b).eval ρ = b.eval ρ) := by
  unfold EnumBvDest.mergeEnumBvConstructorIte
  split
  · refine ⟨hg, fun h => ?_, fun h => ?_⟩
    · exact eval_eq_of_holds_iff hg rfl (by simpa using h)
    · exact eval_eq_of_holds_iff hg rfl (by simpa using h)
  · refine ⟨rfl, fun h => ?_, fun h => ?_⟩
    · exact eval_eq_of_holds_iff rfl rfl (by simpa using h)
    · exact eval_eq_of_holds_iff rfl rfl (by simpa using h)
  · refine ⟨rfl, fun h => ?_, fun h => ?_⟩
    · rw [eval_ite hab, if_pos h]
    · rw [eval_ite hab, if_neg h]

theorem decompose_eq_some {e : Expr} {values : List Expr}
    (h : d.decomposeEnumBvConstructorTree ctors e = some values) :
    (∃ dt name args s, e = .datatypeConstructor dt name args s ∧
      d.constructorLeafValues ctors name args = some values) ∨
    ∃ g a b as bs, e = .ite g a b ∧ d.decomposeEnumBvConstructorTree ctors a = some as ∧
      d.decomposeEnumBvConstructorTree ctors b = some bs ∧ as.length = bs.length ∧
        values = List.zipWith (EnumBvDest.mergeEnumBvConstructorIte g) as bs := by
  unfold EnumBvDest.decomposeEnumBvConstructorTree at h
  split at h
  · exact .inl ⟨_, _, _, _, rfl, h⟩
  · rename_i g a b
    simp only [Option.bind_eq_bind, Option.bind_eq_some_iff] at h
    obtain ⟨as, has, bs, hbs, h⟩ := h
    split_ifs at h with hlen
    exact .inr ⟨g, a, b, as, bs, rfl, has, hbs, not_not.1 hlen, (Option.some.inj h).symm⟩
  · cases h

theorem index_eq_of_name {c c' : ℕ} {ctor ctor' : SmtConstructor}
    (hnames : (ctors.map SmtConstructor.name).Nodup) (hc : ctors[c]? = some ctor)
    (hc' : ctors[c']? = some ctor') (h : ctor.name = ctor'.name) : c = c' := by
  obtain ⟨hlt, rfl⟩ := List.getElem?_eq_some_iff.1 hc
  obtain ⟨hlt', rfl⟩ := List.getElem?_eq_some_iff.1 hc'
  refine (@List.Nodup.getElem_inj_iff _ _ hnames _ (by simpa) _ (by simpa)).1 ?_
  simpa using h

theorem slotTerm_eq {s : SmtSort} {dflt : Expr} (h : sortDefaultExpr s = some dflt)
    (ws : List (ℕ × Expr)) (slot : ℕ) :
    slotTerm ws slot s = some ((written ws slot).getD dflt) := by
  rw [slotTerm, h]
  cases written ws slot <;> rfl

section Tree

variable {n : String} (hd : d.Suits ctors slotSorts)

include hd

/-- The leaves of a constructor application. -/
theorem denotes_constructorLeafValues (hnames : DistinctNames ctors) {dt name : String}
    {args values : List Expr}
    (hws : (Expr.datatypeConstructor dt name args (.datatype n ctors)).WellSorted)
    (h : d.constructorLeafValues ctors name args = some values) :
    Denotes d ctors slotSorts n ρ (.datatypeConstructor dt name args (.datatype n ctors))
      (values.map some) := by
  simp only [EnumBvDest.constructorLeafValues, Option.bind_eq_bind, Option.pure_def,
    Option.bind_eq_some_iff, Option.some.injEq] at h
  obtain ⟨c, hidx, defaults, hdefaults, writes, hwrites, rfl⟩ := h
  obtain ⟨n', cs, ctor, hsort, hfind, hsorts⟩ := constructor_of_wellSorted hws
  obtain ⟨rfl, rfl⟩ : n = n' ∧ ctors = cs := by simpa using hsort
  have hname : ctor.name = name := by simpa using List.find?_some hfind
  -- the constructor that is applied, at its position
  have hc : ctors[c]? = some ctor := by
    obtain ⟨hlt, hcname, -⟩ := List.findIdx?_eq_some_iff_getElem.1 hidx
    obtain ⟨c', hc'⟩ := List.mem_iff_getElem?.1 (List.mem_of_find?_eq_some hfind)
    have hget := List.getElem?_eq_getElem hlt
    rw [index_eq_of_name hnames.ctorNames hget hc' (by rw [hname]; simpa using hcname)]
    exact hc'
  have hctor : constructorOf ((Expr.datatypeConstructor dt name args
      (.datatype n ctors)).eval ρ) = some ctor := by
    rw [constructorOf, destructVal_constructor hfind hsorts, Option.map_some]
  obtain ⟨ws, ws', hsel, hargs, hsame⟩ := sameWrites_args (ρ := ρ) hd hc hnames hfind hws
  obtain rfl : writes = ws' := by rw [hwrites] at hargs; exact Option.some.inj hargs
  have hlen : defaults.length = d.layout.maxPayloadSlots := by
    simpa using length_of_mapM hdefaults
  -- the value of a slot is its term after the writes of the arguments
  have hslot : ∀ slot s, slotSorts[slot]? = some s → ∃ y, slotTerm writes slot s = some y ∧
      (defaults.zipIdx.map fun (value, slot) => (written writes slot).getD value)[slot]? =
        some y ∧ sortDefaultExpr s ≠ none := by
    intro slot s hs
    have hlt : slot < d.layout.maxPayloadSlots :=
      hd.layout.slots ▸ (List.getElem?_eq_some_iff.1 hs).1
    obtain ⟨s', hs', hout⟩ := hd.outputSort hlt
    obtain rfl : s = s' := by rw [hs] at hs'; exact Option.some.inj hs'
    obtain ⟨dflt, hdflt, hget⟩ := exists_of_mapM hdefaults (List.getElem?_range hlt)
    rw [hout] at hdflt
    have hdflt : sortDefaultExpr s = some dflt := by simpa using hdflt
    refine ⟨_, slotTerm_eq hdflt writes slot, ?_, by simp [hdflt]⟩
    simp [List.getElem?_map, hget]
  refine ⟨?_, ?_, ?_⟩
  · rw [List.map_cons]
    refine .cons ?_ ?_
    · rintro y ⟨⟩
      exact sort_enumBvConstructorTag d.layout c
    · refine List.forall₂_map_left_iff.2 (forall₂_of_getElem? (by simp [hlen, hd.layout.slots]) ?_)
      rintro slot y s hy hs _ ⟨⟩
      obtain ⟨y', hy', hget, hdflt⟩ := hslot slot s hs
      obtain rfl : y = y' := by rw [hy] at hget; exact Option.some.inj hget
      obtain ⟨dflt, hdflt⟩ := Option.ne_none_iff_exists'.1 hdflt
      obtain ⟨z, hz, hxs, hxz⟩ := slotTerm_of_sameWrites hsame hs (slotTerm_eq hdflt ws slot)
      obtain rfl : y = z := by rw [hy'] at hz; exact Option.some.inj hz
      rw [← hxz.1, hxs]
  · intro c' ctor' hc' hctor'
    obtain rfl : ctor = ctor' := by rw [hctor] at hctor'; exact Option.some.inj hctor'
    obtain rfl := index_eq_of_name hnames.ctorNames hc hc' rfl
    exact ⟨_, rfl, rfl⟩
  · intro c' ctor' ws₁ hc' hctor' hws₁ slot s x hs hx
    obtain rfl : ctor = ctor' := by rw [hctor] at hctor'; exact Option.some.inj hctor'
    obtain rfl := index_eq_of_name hnames.ctorNames hc hc' rfl
    obtain rfl : ws = ws₁ := by rw [hsel] at hws₁; exact Option.some.inj hws₁
    obtain ⟨y, hy, -, hxy⟩ := slotTerm_of_sameWrites hsame hs hx
    obtain ⟨y', hy', hget, -⟩ := hslot slot s hs
    obtain rfl : y = y' := by rw [hy] at hy'; exact Option.some.inj hy'
    refine ⟨y, ?_, hxy.2.symm⟩
    rw [Nat.add_comm, List.map_cons, List.getElem?_cons_succ, List.getElem?_map, hget,
      Option.map_some]

/-- The values of a result that has the value of this one. -/
theorem Denotes.of_eval {a e : Expr} {values values' : List (Option Expr)}
    (h : Denotes d ctors slotSorts n ρ a values) (heval : e.eval ρ = a.eval ρ)
    (hsorts : List.Forall₂ (fun v s => ∀ y ∈ v, y.sort = s) values' (d.layout.tagSort :: slotSorts))
    (hvalues : ∀ (i : ℕ) (y : Expr), values[i]? = some (some y) →
      ∃ z, values'[i]? = some (some z) ∧ z.eval ρ = y.eval ρ) :
    Denotes d ctors slotSorts n ρ e values' := by
  refine ⟨hsorts, fun c ctor hc hctor => ?_, fun c ctor ws hc hctor hws slot s x hs hx => ?_⟩
  · obtain ⟨y, hy, htag⟩ := h.tag c ctor hc (heval ▸ hctor)
    obtain ⟨z, hz, hzy⟩ := hvalues 0 y hy
    exact ⟨z, hz, hzy.trans htag⟩
  · obtain ⟨ws₁, ws', hws₁, hws', hsame⟩ := sameWrites_selectors (n := n) hd hc heval
    obtain rfl : ws = ws₁ := by rw [hws] at hws₁; exact Option.some.inj hws₁
    obtain ⟨x', hx', -, hxx'⟩ := slotTerm_of_sameWrites hsame hs hx
    obtain ⟨y, hy, hyx⟩ := h.slots c ctor ws' hc (heval ▸ hctor) hws' slot s x' hs hx'
    obtain ⟨z, hz, hzy⟩ := hvalues (1 + slot) y hy
    exact ⟨z, hz, (hzy.trans hyx).trans hxx'.2.symm⟩

/-- Merging the values of two branches. -/
theorem denotes_ite {g a b : Expr} {as bs : List Expr} (hg : g.sort = .bool)
    (hab : a.sort = b.sort) (hlen : as.length = bs.length)
    (ha : Denotes d ctors slotSorts n ρ a (as.map some))
    (hb : Denotes d ctors slotSorts n ρ b (bs.map some)) :
    Denotes d ctors slotSorts n ρ (.ite g a b)
      ((List.zipWith (EnumBvDest.mergeEnumBvConstructorIte g) as bs).map some) := by
  have hsort : ∀ {xs : List Expr} {e : Expr}, Denotes d ctors slotSorts n ρ e (xs.map some) →
      ∀ (i : ℕ) (x : Expr) (s : SmtSort), xs[i]? = some x →
        (d.layout.tagSort :: slotSorts)[i]? = some s → x.sort = s := by
    intro xs e h i x s hx hs
    have hforall := List.forall₂_map_left_iff.1 h.sorts
    obtain ⟨hi, rfl⟩ := List.getElem?_eq_some_iff.1 hx
    obtain ⟨hi', rfl⟩ := List.getElem?_eq_some_iff.1 hs
    exact (List.forall₂_iff_get.1 hforall).2 i hi hi' _ rfl
  have hsame : ∀ (i : ℕ) (x y : Expr), as[i]? = some x → bs[i]? = some y → x.sort = y.sort := by
    intro i x y hx hy
    have hi : i < (d.layout.tagSort :: slotSorts).length := by
      rw [← ha.sorts.length_eq, List.length_map]
      exact (List.getElem?_eq_some_iff.1 hx).1
    have hs := List.getElem?_eq_getElem hi
    exact (hsort ha i x _ hx hs).trans (hsort hb i y _ hy hs).symm
  have hsorts : List.Forall₂ (fun v s => ∀ y ∈ v, y.sort = s)
      ((List.zipWith (EnumBvDest.mergeEnumBvConstructorIte g) as bs).map some)
      (d.layout.tagSort :: slotSorts) := by
    refine List.forall₂_map_left_iff.2 (forall₂_of_getElem? ?_ ?_)
    · rw [List.length_zipWith, ← hlen, Nat.min_self, ← List.length_map (f := some),
        ha.sorts.length_eq]
    · rintro i z s hz hs _ ⟨⟩
      obtain ⟨x, y, hx, hy, rfl⟩ := List.getElem?_zipWith_eq_some.1 hz
      rw [(eval_mergeEnumBvConstructorIte (ρ := ρ) hg (hsame i x y hx hy)).1, hsort ha i x s hx hs]
  have hentry : ∀ (i : ℕ) (x y : Expr), as[i]? = some x → bs[i]? = some y →
      ((List.zipWith (EnumBvDest.mergeEnumBvConstructorIte g) as bs).map some)[i]? =
        some (some (EnumBvDest.mergeEnumBvConstructorIte g x y)) := by
    intro i x y hx hy
    simp [List.getElem?_zipWith, hx, hy]
  by_cases h : Holds ρ g
  · refine ha.of_eval hd (by rw [eval_ite hab, if_pos h]) hsorts fun i x hx => ?_
    have hx : as[i]? = some x := by simpa using hx
    obtain ⟨y, hy⟩ : ∃ y, bs[i]? = some y :=
      ⟨_, List.getElem?_eq_getElem (hlen ▸ (List.getElem?_eq_some_iff.1 hx).1)⟩
    exact ⟨_, hentry i x y hx hy, (eval_mergeEnumBvConstructorIte hg (hsame i x y hx hy)).2.1 h⟩
  · refine hb.of_eval hd (by rw [eval_ite hab, if_neg h]) hsorts fun i y hy => ?_
    have hy : bs[i]? = some y := by simpa using hy
    obtain ⟨x, hx⟩ : ∃ x, as[i]? = some x :=
      ⟨_, List.getElem?_eq_getElem (hlen ▸ (List.getElem?_eq_some_iff.1 hy).1)⟩
    exact ⟨_, hentry i x y hx hy, (eval_mergeEnumBvConstructorIte hg (hsame i x y hx hy)).2.2 h⟩

/-- The values of a tree of conditionals over constructors. -/
theorem denotes_decompose (hnames : DistinctNames ctors) {e : Expr} (hws : e.WellSorted)
    (hs : e.sort = .datatype n ctors) {values : List Expr}
    (h : d.decomposeEnumBvConstructorTree ctors e = some values) :
    Denotes d ctors slotSorts n ρ e (values.map some) := by
  induction e generalizing values with
  | var _ _ => rcases decompose_eq_some h with ⟨_, _, _, _, h, -⟩ | ⟨_, _, _, _, _, h, -⟩ <;> cases h
  | quant _ _ _ =>
    rcases decompose_eq_some h with ⟨_, _, _, _, h, -⟩ | ⟨_, _, _, _, _, h, -⟩ <;> cases h
  | app op args ih =>
    rcases decompose_eq_some h with ⟨dt, name, args', s, heq, h⟩ |
      ⟨g, a, b, as, bs, heq, has, hbs, hlen, rfl⟩
    · cases heq
      obtain rfl : s = .datatype n ctors := by simpa [Op.resultSort] using hs
      exact denotes_constructorLeafValues hd hnames hws h
    · cases heq
      obtain ⟨hacc, hargs⟩ := wellSorted_app.1 hws
      obtain ⟨hg, hab⟩ : g.sort = .bool ∧ a.sort = b.sort := by
        simpa [Op.accepts] using hacc
      have ha : a.sort = .datatype n ctors := by simpa [Op.resultSort] using hs
      refine denotes_ite hd hg hab hlen ?_ ?_
      · exact ih a (by simp) (hargs a (by simp)) ha has
      · exact ih b (by simp) (hargs b (by simp)) (hab ▸ ha) hbs

end Tree

/-! ### The tester route -/

section Testers

variable {n : String} (hd : d.Suits ctors slotSorts) (hnames : DistinctNames ctors)

include hd

theorem exists_ctorWrites (e : Expr) :
    ∃ ctorWrites, (ctors.zipIdx.mapM fun (ctor, ctorIdx) =>
        d.fieldWrites ctorIdx 0 (EnumBvDest.selectors n e ctor)) = some ctorWrites ∧
      ctorWrites.length = ctors.length ∧ ∀ (c : ℕ) (ctor : SmtConstructor), ctors[c]? = some ctor →
        ∃ ws, ctorWrites[c]? = some ws ∧
          d.fieldWrites c 0 (EnumBvDest.selectors n e ctor) = some ws := by
  obtain ⟨ctorWrites, h⟩ : ∃ r, (ctors.zipIdx.mapM fun (ctor, ctorIdx) =>
      d.fieldWrites ctorIdx 0 (EnumBvDest.selectors n e ctor)) = some r := by
    refine exists_mapM fun p hp => ?_
    obtain ⟨ctor, c⟩ := p
    have hc : ctors[c]? = some ctor := List.mk_mem_zipIdx_iff_getElem?.1 hp
    obtain ⟨ws, -, hws, -⟩ := sameWrites_selectors (n := n) (ρ := (default : (default : Theory).Env))
      hd hc (a := e) rfl
    exact ⟨ws, hws⟩
  refine ⟨ctorWrites, h, by simpa using length_of_mapM h, fun c ctor hc => ?_⟩
  obtain ⟨ws, hws, hget⟩ := exists_of_mapM h (i := c) (a := (ctor, c)) (by simp [hc])
  exact ⟨ws, hget, hws⟩

/-- What the writes of a constructor leave in a slot has the sort of the slot. -/
theorem sort_written {e : Expr} {c : ℕ} {ctor : SmtConstructor} (hc : ctors[c]? = some ctor)
    {ws : List (ℕ × Expr)} (hws : d.fieldWrites c 0 (EnumBvDest.selectors n e ctor) = some ws)
    {slot : ℕ} {v : Expr} (hv : written ws slot = some v) : slotSorts[slot]? = some v.sort := by
  obtain ⟨ws₁, ws', hws₁, -, hsame⟩ := sameWrites_selectors (n := n)
    (ρ := (default : (default : Theory).Env)) hd hc (a := e) rfl
  obtain rfl : ws = ws₁ := by rw [hws] at hws₁; exact Option.some.inj hws₁
  rcases sameInSlot_written hsame slot with ⟨hnone, -⟩ | ⟨v', -, hv', -, hsort, -⟩
  · rw [hv] at hnone
    cases hnone
  · obtain rfl : v = v' := by rw [hv] at hv'; exact Option.some.inj hv'
    exact hsort

include hnames

/-- A slot holds the leaf of the constructor of the result's value, else the default. -/
theorem exists_testerSlot {e : Expr} {ctorWrites : List (List (ℕ × Expr))}
    (hlen : ctorWrites.length = ctors.length)
    (hwrites : ∀ (c : ℕ) (ctor : SmtConstructor), ctors[c]? = some ctor →
      ∃ ws, ctorWrites[c]? = some ws ∧
        d.fieldWrites c 0 (EnumBvDest.selectors n e ctor) = some ws)
    {slot : ℕ} {s : SmtSort} (hs : slotSorts[slot]? = some s) :
    ∃ v, d.testerSlot n ctors e ctorWrites slot = some v ∧ (∀ y ∈ v, y.sort = s) ∧
      ∀ {T : Theory} (ρ : T.Env) (c : ℕ) (ctor : SmtConstructor) (ws : List (ℕ × Expr)) (x : Expr),
        ctors[c]? = some ctor → constructorOf (e.eval ρ) = some ctor → ctorWrites[c]? = some ws →
          slotTerm ws slot s = some x → ∃ y, v = some y ∧ y.eval ρ = x.eval ρ := by
  have hlt : slot < d.layout.maxPayloadSlots :=
    hd.layout.slots ▸ (List.getElem?_eq_some_iff.1 hs).1
  obtain ⟨s', hs', hout⟩ := hd.outputSort hlt
  obtain rfl : s = s' := by rw [hs] at hs'; exact Option.some.inj hs'
  have hcolumn : ∀ v ∈ ctorWrites.map (written · slot), ∀ y ∈ v, y.sort = s := by
    intro v hv y hy
    obtain ⟨ws, hmem, rfl⟩ := List.mem_map.1 hv
    obtain ⟨c, hc⟩ := List.mem_iff_getElem?.1 hmem
    have hltc : c < ctors.length := hlen ▸ (List.getElem?_eq_some_iff.1 hc).1
    obtain ⟨ws', hget, hws'⟩ := hwrites c _ (List.getElem?_eq_getElem hltc)
    obtain rfl : ws = ws' := by rw [hc] at hget; exact Option.some.inj hget
    have hsort := sort_written hd (List.getElem?_eq_getElem hltc) hws' hy
    rw [hs] at hsort
    exact (Option.some.inj hsort).symm
  rw [EnumBvDest.testerSlot, hout]
  simp only [Option.bind_eq_bind, Option.bind_some, Option.pure_def]
  by_cases hany : (ctorWrites.map (written · slot)).any Option.isSome = true
  · rw [if_pos hany]
    have hbase : ((sortDefaultExpr s).getD (.var (d.pendingName slot) s)).sort = s := by
      cases hdflt : sortDefaultExpr s with
      | none => rfl
      | some dflt => exact sort_sortDefaultExpr hdflt
    have hchain : ∀ p ∈ ctors.zip (ctorWrites.map (written · slot)), ∀ v, p.2 = some v →
        v.sort = ((sortDefaultExpr s).getD (.var (d.pendingName slot) s)).sort := by
      intro p hp v hv
      rw [hbase]
      exact hcolumn p.2 (List.of_mem_zip hp).2 v hv
    refine ⟨_, rfl, ?_, ?_⟩
    · rintro y ⟨⟩
      rw [sort_testerChain hchain, hbase]
    · intro T ρ c ctor ws x hc hctor hws hx
      refine ⟨_, rfl, ?_⟩
      have hzip : (ctor, written ws slot) ∈ ctors.zip (ctorWrites.map (written · slot)) :=
        List.mem_of_getElem? (i := c)
          (List.getElem?_zip_eq_some.2 ⟨hc, by simp [hws]⟩)
      rw [eval_testerChain hchain hctor ?_ hzip]
      · rw [slotTerm] at hx
        cases hw : written ws slot with
        | some v =>
          rw [hw, Option.some_or] at hx
          rw [Option.some.inj hx, Option.getD_some]
        | none =>
          rw [hw, Option.none_or] at hx
          rw [hx, Option.getD_none, Option.getD_some]
      · rw [← Function.comp_def SmtConstructor.name, ← List.map_map,
          List.map_fst_zip (by simp [hlen])]
        exact hnames.ctorNames
  · rw [if_neg hany]
    refine ⟨_, rfl, fun y hy => sort_sortDefaultExpr hy, ?_⟩
    intro T ρ c ctor ws x hc hctor hws hx
    -- no constructor writes the slot
    have hnone : written ws slot = none := by
      by_contra hsome
      refine hany (List.any_eq_true.2 ⟨written ws slot, List.mem_map.2 ⟨ws, ?_, rfl⟩, ?_⟩)
      · exact List.mem_of_getElem? hws
      · exact Option.isSome_iff_ne_none.2 hsome
    exact ⟨x, by rw [slotTerm, hnone, Option.none_or] at hx; exact hx, rfl⟩

/-- The tag names the constructor of the result's value. -/
theorem exists_testerTag {e : Expr} :
    ∃ tag, d.testerTag n ctors e = some tag ∧ tag.sort = d.layout.tagSort ∧
      ∀ {T : Theory} (ρ : T.Env) (c : ℕ) (ctor : SmtConstructor), ctors[c]? = some ctor →
        constructorOf (e.eval ρ) = some ctor →
          tag.eval ρ = (enumBvConstructorTag d.layout c).eval ρ := by
  have htwo := hd.layout.two_le
  have hcount := hd.layout.count
  by_cases h2 : d.layout.numConstructors = 2
  · have hget : ctors[1]? = some ctors[1] := List.getElem?_eq_getElem htwo
    refine ⟨.isConstructor e n ctors[1].name, ?_, ?_, ?_⟩
    · simp [EnumBvDest.testerTag, h2, hget]
    · simp [EnumBvLayout.tagSort, h2, Op.resultSort]
    · intro T ρ c ctor hc hctor
      rw [enumBvConstructorTag, if_pos h2]
      refine eval_eq_of_holds_iff rfl rfl ?_
      rw [holds_tester hctor, holds_boolConst, beq_iff_eq]
      constructor
      · exact index_eq_of_name hnames.ctorNames hc hget
      · rintro rfl
        rw [hc] at hget
        rw [Option.some.inj hget]
  · have h0 : d.layout.numConstructors ≠ 0 := by omega
    let lastIdx := d.layout.numConstructors - 1
    let tag (i : ℕ) : Expr := .bitVecConst (BitVec.ofNat d.layout.tagBits i)
    let l := (ctors.take lastIdx).zipIdx.map fun (ctor, ctorIdx) => (ctor, some (tag ctorIdx))
    have hmem : ∀ p ∈ l, ∃ i ctor, i < lastIdx ∧ ctors[i]? = some ctor ∧
        p = (ctor, some (tag i)) := by
      intro p hp
      obtain ⟨⟨ctor, i⟩, hi, rfl⟩ := List.mem_map.1 hp
      have hget := List.mk_mem_zipIdx_iff_getElem?.1 hi
      rw [List.getElem?_take] at hget
      split_ifs at hget with hlt
      exact ⟨i, ctor, hlt, hget, rfl⟩
    have hsorts : ∀ p ∈ l, ∀ v, p.2 = some v → v.sort = (tag lastIdx).sort := by
      intro p hp v hv
      obtain ⟨i, ctor, -, -, rfl⟩ := hmem p hp
      cases hv
      rfl
    refine ⟨EnumBvDest.testerChain n e (tag lastIdx) l, ?_, ?_, ?_⟩
    · rw [EnumBvDest.testerTag, if_neg h2, if_neg h0]
    · rw [sort_testerChain hsorts, EnumBvLayout.tagSort, if_neg h2]
      rfl
    · intro T ρ c ctor hc hctor
      rw [enumBvConstructorTag, if_neg h2]
      have hlt := (List.getElem?_eq_some_iff.1 hc).1
      by_cases hlast : c < lastIdx
      · refine eval_testerChain hsorts hctor ?_ (v := some (tag c)) ?_
        · have hfst : l.map (·.1.name) = (ctors.take lastIdx).map SmtConstructor.name := by
            rw [List.map_map]
            conv_rhs => rw [← List.zipIdx_map_fst 0 (ctors.take lastIdx), List.map_map]
            rfl
          rw [hfst, List.map_take]
          exact hnames.ctorNames.sublist (List.take_sublist _ _)
        · exact List.mem_map.2 ⟨(ctor, c), List.mk_mem_zipIdx_iff_getElem?.2
            (by rw [List.getElem?_take_of_lt hlast, hc]), rfl⟩
      · obtain rfl : c = lastIdx := by omega
        refine eval_testerChain_base hsorts hctor fun p hp heq => ?_
        obtain ⟨i, ctor', hi, hget, rfl⟩ := hmem p hp
        exact hi.ne (index_eq_of_name hnames.ctorNames hget hc heq)

/-- The values by testers and selectors. -/
theorem exists_testerValues (e : Expr) :
    ∃ values, d.testerValues n ctors e = some values ∧
      ∀ {T : Theory} (ρ : T.Env), Denotes d ctors slotSorts n ρ e values := by
  obtain ⟨tag, htag, htagSort, htagEval⟩ := exists_testerTag (n := n) hd hnames (e := e)
  obtain ⟨ctorWrites, hctorWrites, hlen, hwrites⟩ := exists_ctorWrites (n := n) hd e
  obtain ⟨slots, hslots⟩ : ∃ slots, (List.range d.layout.maxPayloadSlots).mapM
      (d.testerSlot n ctors e ctorWrites) = some slots := by
    refine exists_mapM fun slot hslot => ?_
    obtain ⟨s, hs, -⟩ := hd.outputSort (List.mem_range.1 hslot)
    obtain ⟨v, hv, -⟩ := exists_testerSlot hd hnames hlen hwrites hs
    exact ⟨v, hv⟩
  have hslot : ∀ (slot : ℕ) (s : SmtSort), slotSorts[slot]? = some s →
      ∃ v, d.testerSlot n ctors e ctorWrites slot = some v ∧ slots[slot]? = some v := by
    intro slot s hs
    have hlt : slot < d.layout.maxPayloadSlots :=
      hd.layout.slots ▸ (List.getElem?_eq_some_iff.1 hs).1
    exact exists_of_mapM hslots (List.getElem?_range hlt)
  refine ⟨some tag :: slots, ?_, fun ρ => ⟨.cons ?_ ?_, ?_, ?_⟩⟩
  · simp [EnumBvDest.testerValues, htag, hctorWrites, hslots]
  · rintro y ⟨⟩
    exact htagSort
  · refine forall₂_of_getElem? (by rw [length_of_mapM hslots, List.length_range,
      hd.layout.slots]) fun slot v s hv hs => ?_
    obtain ⟨v', hv', hget⟩ := hslot slot s hs
    obtain rfl : v = v' := by rw [hv] at hget; exact Option.some.inj hget
    obtain ⟨v', hv'', hsort, -⟩ := exists_testerSlot hd hnames hlen hwrites (e := e) hs
    obtain rfl : v = v' := by rw [hv'] at hv''; exact Option.some.inj hv''
    exact hsort
  · exact fun c ctor hc hctor => ⟨tag, rfl, htagEval ρ c ctor hc hctor⟩
  · intro c ctor ws hc hctor hws slot s x hs hx
    obtain ⟨ws', hget, hws'⟩ := hwrites c ctor hc
    obtain rfl : ws = ws' := by rw [hws] at hws'; exact Option.some.inj hws'
    obtain ⟨v, hv, hslotGet⟩ := hslot slot s hs
    obtain ⟨v', hv', -, heval⟩ := exists_testerSlot hd hnames hlen hwrites (e := e) hs
    obtain rfl : v = v' := by rw [hv] at hv'; exact Option.some.inj hv'
    obtain ⟨y, rfl, hy⟩ := heval ρ c ctor ws x hc hctor hget hx
    exact ⟨y, by rw [Nat.add_comm, List.getElem?_cons_succ, hslotGet], hy⟩

end Testers

end Flatten

end TrustMc
