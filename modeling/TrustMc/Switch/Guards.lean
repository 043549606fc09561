import TrustMc.Smt.Eval

/-!
# The two encodings of `SwitchInt`

A `SwitchInt` terminator is encoded by guards over its discriminant term. Per block, every
case and the default emit one guarded rule (`codegenSwitchint`). Inside a composed
fragment, the arms that leave the fragment emit guarded exit rules and the guard of the
in-fragment successor is conjoined to the rest of the path (`composedArms`).

* A case value is a `u128`, so a `BitVec 128`; blocks are their indices.
* An arm is a target with an optional guard, no guard meaning an unguarded rule.
-/

namespace TrustMc

namespace Switch

/-- `rustc_public::mir::SwitchTargets`. -/
structure SwitchTargets where
  /-- The explicit cases with their target blocks. -/
  branches : List (BitVec 128 × ℕ)
  /-- The default target block. -/
  otherwise : ℕ

/-- The case values, in order. -/
def SwitchTargets.caseVals (targets : SwitchTargets) : List (BitVec 128) :=
  targets.branches.map Prod.fst

/-- The low `width` bits. -/
def mask (width : ℕ) : BitVec 128 := (1#128 <<< width) - 1#128

/-- The low `width` bits sign-extended to 128 bits. -/
def signExtended (width : ℕ) (maskedVal : BitVec 128) : BitVec 128 :=
  if maskedVal &&& (1#128 <<< (width - 1)) ≠ 0#128 then maskedVal ||| ~~~mask width
  else maskedVal

/-- The `u128` constant of a bit-vector sort. -/
def bitvecConst (value : BitVec 128) (width : ℕ) : Expr := .bitVecConst (value.setWidth width)

/-- The index a byte-array discriminant is read at. -/
def arrayIndex : SmtSort → Option Expr
  | .bitvec w => some (.bitVecConst 0#w)
  | .int => some (.intConst 0)
  | _ => none

/-- `switchint_array_sort_guard`: the first element against the truncated case value. -/
def switchintArraySortGuard (discr : Expr) (caseVal : BitVec 128) : Option Expr := do
  let (index, element) ← discr.sort.arraySort
  let width ← element.bitvecWidth
  let indexExpr ← arrayIndex index
  let masked := if width < 128 then caseVal &&& mask width else caseVal
  some ((discr.select indexExpr).eq (bitvecConst masked width))

/-- `switchint_case_guard`. -/
def switchintCaseGuard (discr : Expr) (caseVal : BitVec 128) : Option Expr :=
  match discr.sort with
  | .bool =>
    if caseVal = 0#128 then some discr.not
    else if caseVal = 1#128 then some discr
    else some (.boolConst false)
  | .bitvec width =>
    if width = 0 then some (.boolConst false)
    else if width < 128 then
      let masked := caseVal &&& mask width
      -- a value that is neither zero- nor sign-extended overflows the width
      if masked ≠ caseVal ∧ signExtended width masked ≠ caseVal then some (.boolConst false)
      else some (discr.eq (bitvecConst masked width))
    else some (discr.eq (bitvecConst caseVal width))
  | .int => some (discr.eq (.intConst caseVal.toNat))
  | _ => switchintArraySortGuard discr caseVal

/-- `u128::try_from` on a constant. -/
def constValue : Op → Option (BitVec 128)
  | .bitVecConst _ x => if x.toNat < 2 ^ 128 then some (BitVec.ofNat 128 x.toNat) else none
  | .intConst z => if 0 ≤ z ∧ z < 2 ^ 128 then some (BitVec.ofInt 128 z) else none
  | _ => none

/-- `finite_switchint_values`. -/
def finiteSwitchintValues (e : Expr) (depth : ℕ) : Option (List (BitVec 128)) :=
  if depth > 8 then none
  else if e.sort.isBool then some [0#128, 1#128]
  else
    match e with
    | .app .ite [_, a, b] => do
      let values ← finiteSwitchintValues a (depth + 1)
      let values' ← finiteSwitchintValues b (depth + 1)
      some (values'.foldl (fun vs v => if v ∈ vs then vs else vs ++ [v]) values)
    | .app op _ => (constValue op).map fun v => [v]
    | _ => none

/-- `normalize_switchint_case_for_sort`. -/
def normalizeSwitchintCaseForSort (discr : Expr) (caseVal : BitVec 128) :
    Option (BitVec 128) :=
  match discr.sort with
  | .bool => if caseVal = 0#128 ∨ caseVal = 1#128 then some caseVal else none
  | .bitvec width =>
    if width = 0 then none
    else if width < 128 then
      let masked := caseVal &&& mask width
      if masked ≠ caseVal ∧ signExtended width masked ≠ caseVal then none else some masked
    else some caseVal
  | .int => some caseVal
  | _ => none

/-- `switchint_cases_cover_expr`. -/
def switchintCasesCoverExpr (discr : Expr) (caseVals : List (BitVec 128)) : Bool :=
  match finiteSwitchintValues discr 0 with
  | none => false
  | some values =>
    !values.isEmpty &&
      values.all fun v => v ∈ caseVals.filterMap (normalizeSwitchintCaseForSort discr)

/-- The conjunction of a non-empty list, from the left. -/
def reduceAnd : List Expr → Option Expr
  | [] => none
  | g :: gs => some (gs.foldl (fun acc g => .and [acc, g]) g)

/-- `switchint_otherwise_guard`. -/
def switchintOtherwiseGuard (discr : Expr) (caseVals : List (BitVec 128)) : Option Expr :=
  if switchintCasesCoverExpr discr caseVals then some (.boolConst false)
  else reduceAnd ((caseVals.filterMap (switchintCaseGuard discr)).map .not)

/-- `switchint_guard_for_target`: the guard of the first arm naming the block. -/
def switchintGuardForTarget (discr : Expr) (targets : SwitchTargets) (targetBb : ℕ) :
    Option Expr :=
  match targets.branches.find? (·.2 == targetBb) with
  | some (caseVal, _) => switchintCaseGuard discr caseVal
  | none =>
    if targets.otherwise = targetBb then switchintOtherwiseGuard discr targets.caseVals else none

/-- A target block with an optional guard. -/
abbrev Arm : Type := ℕ × Option Expr

/-- `emit_intermediate_switchint_exits`: the guarded rules of the arms leaving the fragment. -/
def intermediateSwitchintExits (discr : Expr) (targets : SwitchTargets) (inFragment : ℕ) :
    List Arm :=
  (targets.branches.filter (·.2 != inFragment)).filterMap
      (fun (c, t) => (switchintCaseGuard discr c).map fun g => (t, some g)) ++
    if targets.otherwise ≠ inFragment then
      ((switchintOtherwiseGuard discr targets.caseVals).map
        fun g => (targets.otherwise, some g)).toList
    else []

/-- The `SwitchInt` arm of `generate_composed_rules`: the exit rules, and the in-fragment
successor with the guard conjoined to the rest of the path. -/
def composedArms (discr : Expr) (targets : SwitchTargets) (inFragment : ℕ) : List Arm :=
  intermediateSwitchintExits discr targets inFragment ++
    [(inFragment, switchintGuardForTarget discr targets inFragment)]

/-- `codegen_switchint` on a translated discriminant: the guarded rules of a block on its
own, or `none` where it falls back to the unguarded over-approximation. -/
def codegenSwitchint (discr : Expr) (targets : SwitchTargets) : Option (List Arm) := do
  let guards ← targets.branches.mapM fun (c, t) =>
    (switchintCaseGuard discr c).map fun g => ((t, some g) : Arm)
  some (guards ++ [(targets.otherwise, switchintOtherwiseGuard discr targets.caseVals)])

end Switch

end TrustMc
