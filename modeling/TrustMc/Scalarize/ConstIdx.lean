import TrustMc.Columns.DeadScalars
import TrustMc.ConstProp.Propagate

/-!
# Constant indices

An array can be replaced by scalars if it is read and written at constant bit-vector indices
only. `tryExtractConstIdx` computes the value and the width of such an index; sums are not
reduced, so that two indices of one value may be told apart. `decomposeStoreChain` takes a
chain of stores at constant indices apart.
-/

namespace TrustMc

namespace Scalarize

open DeadScalars

/-- `ConstIdx`. The values are those of bit-vector constants, which are in range, and sums of
them. -/
structure ConstIdx where
  /-- The value. -/
  value : ℕ
  /-- The width. -/
  width : ℕ
  deriving DecidableEq

/-- The order of indices: by value, then by width. -/
def ConstIdx.Before (a b : ConstIdx) : Prop :=
  a.value < b.value ∨ a.value = b.value ∧ a.width ≤ b.width

instance : DecidableRel ConstIdx.Before :=
  fun _ _ => inferInstanceAs (Decidable (_ ∨ _ ∧ _))

/-- `hex_label`. -/
def ConstIdx.hexLabel (idx : ConstIdx) : String :=
  "0x" ++ String.ofList (Nat.toDigits 16 idx.value) ++ "_bv" ++ toString idx.width

/-- The constant as a term, of which `Expr::bitvec_const` takes the value modulo the width. -/
def ConstIdx.toExpr (idx : ConstIdx) : Expr := ConstProp.bitvecConst idx.value idx.width

/-- `try_extract_const_idx`. -/
def tryExtractConstIdx : Expr → Option ConstIdx
  | .app (.bitVecConst width value) _ => some ⟨value.toNat, width⟩
  | .app .bvConcat [high, low] => do
    let h ← tryExtractConstIdx high
    let l ← tryExtractConstIdx low
    pure ⟨h.value <<< l.width ||| l.value, h.width + l.width⟩
  | .app (.bvExtract high low) [inner] => do
    let base ← tryExtractConstIdx inner
    pure ⟨base.value >>> low &&& (2 ^ (high - low + 1) - 1), high - low + 1⟩
  | .app (.bvBin .add) [lhs, rhs] => do
    let l ← tryExtractConstIdx lhs
    let r ← tryExtractConstIdx rhs
    if l.width ≠ r.width then none else pure ⟨l.value + r.value, l.width⟩
  | e =>
    match ConstProp.tryEvalToConst e with
    | some (.app (.bitVecConst width value) _) => some ⟨value.toNat, width⟩
    | _ => none

/-- The base that stands for a constant array. -/
def constArrayBase : String := "__const_array__"

/-- `decompose_store_chain`: the name of the base and the stores, the innermost first. -/
def decomposeStoreChain : Expr → Option (String × List (ConstIdx × Expr))
  | .var name _ => some (name, [])
  | .store array index value => do
    let idx ← tryExtractConstIdx index
    let (base, pairs) ← decomposeStoreChain array
    pure (base, pairs ++ [(idx, value)])
  | .app (.constArray _) _ => some (constArrayBase, [])
  | _ => none

/-- `const_array_default_for_store_chain`. -/
def constArrayDefaultForStoreChain : Expr → Option Expr
  | .app (.constArray _) [value] => some value
  | .store array _ _ => constArrayDefaultForStoreChain array
  | _ => none

/-- The value that a chain stores last at an index. -/
def storedValue (stores : List (ConstIdx × Expr)) (idx : ConstIdx) : Option Expr :=
  (stores.reverse.find? (·.1 == idx)).map Prod.snd

/-- The name of a variable term. -/
def asVarName : Expr → Option String
  | .var name _ => some name
  | _ => none

/-- `expr_mentions_var`. -/
def exprMentionsVar (e : Expr) (target : String) : Bool := decide (target ∈ e.varNames)

/-- The pattern `Store { .. }`. -/
def isStore : Expr → Bool
  | .app .store _ => true
  | _ => false

/-- The pattern `ConstArray { .. }`. -/
def isConstArray : Expr → Bool
  | .app (.constArray _) _ => true
  | _ => false

end Scalarize

end TrustMc
