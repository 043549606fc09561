import TrustMc.Budget.Walk
import TrustMc.Smt.Expr

/-!
# Substitution and simplification in the straight-line prover

The straight-line prover carries path facts along symbolic frames, substitutes frame
values into a rule's constraints and folds the result. All walkers visit nodes under a
node and a depth budget and bail when either is exhausted, so they are `Budget.Walk`s; the
extra argument `fuel` only bounds the nesting of calls.

* The memo tables of the source are left out. The one of substitution is in
  `TrustMc.Straightline.SubstMemo`.
* Folding uses `u128` arithmetic, written on `ℕ` with the overflow explicit.
* Helpers take the recursive call `rec` (at a depth) as an argument; `simplifyWithFacts`
  ties the knot.
-/

namespace TrustMc

namespace Straightline

open Budget

/-! ### Path facts -/

/-- `PathFacts`: what a path established. -/
structure PathFacts where
  /-- Terms known to differ. -/
  disequalities : List (Expr × Expr)
  /-- `(e, bound, width)`: `e <u bound`. -/
  unsignedUpperBounds : List (Expr × ℕ × ℕ)
  /-- `(e, bound, width)`: `bound ≤u e`. -/
  unsignedLowerBounds : List (Expr × ℕ × ℕ)
  deriving DecidableEq

/-- `PathFacts::default`. -/
def PathFacts.none : PathFacts := ⟨[], [], []⟩

namespace PathFacts

/-- `are_disequal`. -/
def areDisequal (facts : PathFacts) (lhs rhs : Expr) : Bool :=
  (facts.disequalities.any fun (a, b) => (a == lhs && b == rhs) || (a == rhs && b == lhs)) ||
    match lhs, rhs with
    | .app .bv2Int [l], .app .bv2Int [r] =>
      l.sort == r.sort && l.sort.isBitvec && facts.areDisequal l r
    | _, _ => false

/-- `add_disequality`. -/
def addDisequality (facts : PathFacts) (lhs rhs : Expr) : PathFacts :=
  if lhs = rhs ∨ facts.areDisequal lhs rhs = true then facts
  else { facts with disequalities := facts.disequalities ++ [(lhs, rhs)] }

/-- Tightens the first entry for the term and width, or adds one. -/
def tighten (pick : ℕ → ℕ → ℕ) (e : Expr) (bound width : ℕ) :
    List (Expr × ℕ × ℕ) → List (Expr × ℕ × ℕ)
  | [] => [(e, bound, width)]
  | (e', b, w) :: rest =>
    if e' = e ∧ w = width then (e', pick b bound, w) :: rest
    else (e', b, w) :: tighten pick e bound width rest

/-- `add_unsigned_upper_bound`. -/
def addUnsignedUpperBound (facts : PathFacts) (e : Expr) (bound width : ℕ) : PathFacts :=
  { facts with unsignedUpperBounds := tighten min e bound width facts.unsignedUpperBounds }

/-- `add_unsigned_lower_bound`. -/
def addUnsignedLowerBound (facts : PathFacts) (e : Expr) (bound width : ℕ) : PathFacts :=
  { facts with unsignedLowerBounds := tighten max e bound width facts.unsignedLowerBounds }

/-- `bounds_contradict`. -/
def boundsContradict (facts : PathFacts) : Bool :=
  facts.unsignedLowerBounds.any fun (e, lower, w) =>
    facts.unsignedUpperBounds.any fun (e', upper, w') =>
      e' == e && w' == w && decide (upper ≤ lower)

/-- `unsigned_upper_bound`: the least bound recorded for the term. -/
def unsignedUpperBound (facts : PathFacts) (e : Expr) : Option (ℕ × ℕ) :=
  (facts.unsignedUpperBounds.filter (·.1 == e)).foldl
    (fun best (_, b, w) =>
      match best with
      | some (b', w') => if b < b' then some (b, w) else some (b', w')
      | Option.none => some (b, w)) Option.none

end PathFacts

/-! ### Constants -/

/-- `bv_mask`. -/
def bvMask (width : ℕ) : ℕ :=
  if width = 0 then 0 else if 128 ≤ width then 2 ^ 128 - 1 else 2 ^ width - 1

/-- `bv_const_u128`: value and width of a constant of at most 128 bits. -/
def bvConstU128 : Expr → Option (ℕ × ℕ)
  | .app (.bitVecConst w x) _ => if 128 < w then Option.none else some (x.toNat &&& bvMask w, w)
  | _ => Option.none

/-- `Expr::bitvec_const` of a `u128`. -/
def mkBitvec (value width : ℕ) : Expr := .bitVecConst (BitVec.ofNat width value)

/-- The folding of a binary bit-vector function on `u128` values, where it has one. -/
def foldBvBin (l r w : ℕ) : BvBin → Option ℕ
  | .add => some (((l + r) % 2 ^ 128) &&& bvMask w)
  | .sub => some (((2 ^ 128 + l - r) % 2 ^ 128) &&& bvMask w)
  | .and => some (l &&& r)
  | .or => some (l ||| r)
  | .xor => some (l ^^^ r)
  | .urem => if r ≠ 0 then some (l % r) else Option.none
  | .mul => if l * r < 2 ^ 128 then some ((l * r) &&& bvMask w) else Option.none
  | _ => Option.none

/-- `UnsignedCmp`. -/
inductive UnsignedCmp
  | lt | le | gt | ge
  deriving DecidableEq

namespace UnsignedCmp

/-- `negated`. -/
def negated : UnsignedCmp → UnsignedCmp
  | lt => ge
  | le => gt
  | gt => le
  | ge => lt

/-- `swapped`. -/
def swapped : UnsignedCmp → UnsignedCmp
  | lt => gt
  | le => ge
  | gt => lt
  | ge => le

/-- The comparison it folds. -/
def toBvCmp : UnsignedCmp → BvCmp
  | lt => .ult
  | le => .ule
  | gt => .ugt
  | ge => .uge

/-- Its value on constants. -/
def fold (l r : ℕ) : UnsignedCmp → Bool
  | lt => l < r
  | le => l ≤ r
  | gt => r < l
  | ge => r ≤ l

end UnsignedCmp

/-- `signed_bv_order`. -/
def signedBvOrder (l r w : ℕ) : ℤ :=
  let negative := fun x : ℕ => decide (x &&& 2 ^ (w - 1) ≠ 0)
  if negative l && !negative r then -1
  else if !negative l && negative r then 1
  else if l < r then -1
  else if r < l then 1
  else 0

/-- The folding of a signed comparison, from the order of its operands. -/
def foldSigned (order : ℤ) : BvCmp → Option Bool
  | .sge => some (decide (0 ≤ order))
  | .sgt => some (decide (0 < order))
  | .sle => some (decide (order ≤ 0))
  | .slt => some (decide (order < 0))
  | _ => Option.none

/-- Orients a comparison with exactly one constant to `term CMP constant`. -/
def orient (lhs rhs : Expr) (kind : UnsignedCmp) : Option (Expr × ℕ × UnsignedCmp) :=
  match bvConstU128 lhs, bvConstU128 rhs with
  | Option.none, some (c, _) => some (lhs, c, kind)
  | some (c, _), Option.none => some (rhs, c, kind.swapped)
  | _, _ => Option.none

/-- `unsigned_bound_decides_cmp`. -/
def unsignedBoundDecidesCmp (facts : PathFacts) (lhs rhs : Expr) (kind : UnsignedCmp) :
    Option Bool := do
  let width ← lhs.sort.bitvecWidth
  let (e, constant, kind) ← orient lhs rhs kind
  let (bound, boundWidth) ← facts.unsignedUpperBound e
  if boundWidth ≠ width ∨ bound = 0 then Option.none
  else
    let maxVal := bound - 1
    match kind with
    | .lt => if maxVal < constant then some true else Option.none
    | .le => if maxVal ≤ constant then some true else Option.none
    | .gt => if maxVal ≤ constant then some false else Option.none
    | .ge => if maxVal < constant then some false else Option.none

/-- `unsigned_mul_fits_width`. -/
def unsignedMulFitsWidth (l r w : ℕ) : Bool :=
  decide (l * r < 2 ^ 128) && decide (l * r ≤ bvMask w)

/-- `one_const_one_expr`. -/
def oneConstOneExpr (lhs rhs : Expr) : Option (ℕ × Expr) :=
  match bvConstU128 lhs with
  | some (v, _) => some (v, rhs)
  | Option.none => (bvConstU128 rhs).map fun (v, _) => (v, lhs)

/-- `unsigned_bound_proves_mul_no_overflow`. -/
def unsignedBoundProvesMulNoOverflow (facts : PathFacts) (variable_ : Expr)
    (constant width : ℕ) : Bool :=
  if constant = 0 then true
  else
    match facts.unsignedUpperBound variable_ with
    | Option.none => false
    | some (exclusiveBound, boundWidth) =>
      if boundWidth ≠ width then false
      else unsignedMulFitsWidth (exclusiveBound - 1) constant width

/-! ### Simplification

`rec d e` is the recursive call on `e` at depth `d`. -/

section Simplify

variable (maxDepth : ℕ) (facts : PathFacts) (rec : ℕ → Expr → Walk Expr)

/-- `simplify_bool_const_eq`. -/
def simplifyBoolConstEq (d : ℕ) (e constant : Expr) : Walk Expr :=
  match constant with
  | .app (.boolConst v) _ =>
    if !e.sort.isBool then Walk.bail
    else if v then pure e
    else rec d e.not
  | _ => Walk.bail

/-- `simplify_bool_bit_ite_eq`. -/
def simplifyBoolBitIteEq (d : ℕ) (iteExpr rhs : Expr) : Walk Expr :=
  match iteExpr with
  | .app .ite [c, a, b] => do
    let (thenValue, thenWidth) ← Walk.ofOption (bvConstU128 a)
    let (elseValue, elseWidth) ← Walk.ofOption (bvConstU128 b)
    let (rhsValue, rhsWidth) ← Walk.ofOption (bvConstU128 rhs)
    if thenWidth ≠ elseWidth ∨ thenWidth ≠ rhsWidth then Walk.bail
    else
      let c ← rec d c
      if (thenValue, elseValue, rhsValue) = (1, 0, 1) ∨
          (thenValue, elseValue, rhsValue) = (0, 1, 0) then pure c
      else if (thenValue, elseValue, rhsValue) = (1, 0, 0) ∨
          (thenValue, elseValue, rhsValue) = (0, 1, 1) then rec d c.not
      else if (thenValue, elseValue) = (1, 0) ∨ (thenValue, elseValue) = (0, 1) then
        pure (.boolConst false)
      else Walk.bail
  | _ => Walk.bail

/-- The comparison of two terms that no special case decided. -/
def residualEq (lhs rhs : Expr) : Walk Expr :=
  match lhs, rhs with
  | .app (.boolConst a) _, .app (.boolConst b) _ => pure (.boolConst (a == b))
  | .app (.bitVecConst w x) _, .app (.bitVecConst w' x') _ =>
    if w ≠ w' then Walk.bail else pure (.boolConst (x.toNat == x'.toNat))
  | _, _ => Walk.ofOption (tryApp .eq [lhs, rhs])

/-- `simplify_eq_with_facts`. -/
def simplifyEqWithFacts (d : ℕ) (lhs rhs : Expr) : Walk Expr := do
  let lhs ← rec d lhs
  let rhs ← rec d rhs
  if lhs = rhs then pure (.boolConst true)
  else if facts.areDisequal lhs rhs then pure (.boolConst false)
  else
    match ← Walk.attempt (simplifyBoolConstEq rec d lhs rhs) with
    | some e => pure e
    | Option.none =>
    match ← Walk.attempt (simplifyBoolConstEq rec d rhs lhs) with
    | some e => pure e
    | Option.none =>
    match ← Walk.attempt (simplifyBoolBitIteEq rec d lhs rhs) with
    | some e => pure e
    | Option.none =>
    match ← Walk.attempt (simplifyBoolBitIteEq rec d rhs lhs) with
    | some e => pure e
    | Option.none => residualEq lhs rhs

/-- `simplify_bool_ite`. -/
def simplifyBoolIte (d : ℕ) (c a b : Expr) : Walk Expr :=
  match a, b with
  | .app (.boolConst true) _, .app (.boolConst false) _ => pure c
  | .app (.boolConst false) _, .app (.boolConst true) _ => rec d c.not
  | .app (.boolConst false) _, _ => do rec d (← Walk.ofOption (tryApp .and [c.not, b]))
  | .app (.boolConst true) _, _ => do rec d (← Walk.ofOption (tryApp .or [c, b]))
  | _, .app (.boolConst false) _ => do rec d (← Walk.ofOption (tryApp .and [c, a]))
  | _, .app (.boolConst true) _ => do rec d (← Walk.ofOption (tryApp .or [c.not, a]))
  | _, _ => Walk.ofOption (tryApp .ite [c, a, b])

/-- `simplify_ite_with_facts`, on a condition that is simplified already. -/
def simplifyIteWithFacts (d : ℕ) (c a b : Expr) : Walk Expr := do
  let a ← rec d a
  let b ← rec d b
  if a = b then pure a
  else if a.sort.isBool && b.sort.isBool then simplifyBoolIte rec d c a b
  else Walk.ofOption (tryApp .ite [c, a, b])

/-- The loop of `simplify_bool_nary`: the children kept, or `none` once a child decides. -/
def boolNaryLoop (isAnd : Bool) (d : ℕ) : List Expr → List Expr → Walk (Option (List Expr))
  | [], kept => pure (some kept)
  | child :: rest, kept => do
    match ← rec d child with
    | .app (.boolConst v) args =>
      if v ≠ isAnd then pure Option.none
      else
        let _ := args
        boolNaryLoop isAnd d rest kept
    | .app .and nested =>
      boolNaryLoop isAnd d rest (kept ++ if isAnd then nested else [.app .and nested])
    | .app .or nested =>
      boolNaryLoop isAnd d rest (kept ++ if isAnd then [.app .or nested] else nested)
    | child => boolNaryLoop isAnd d rest (kept ++ [child])

/-- `simplify_bool_nary`. -/
def simplifyBoolNary (isAnd : Bool) (d : ℕ) (children : List Expr) : Walk Expr := do
  match ← boolNaryLoop rec isAnd d children [] with
  | Option.none => pure (.boolConst !isAnd)
  | some [] => pure (.boolConst isAnd)
  | some [e] => pure e
  | some kept => Walk.ofOption (tryApp (if isAnd then .and else .or) kept)

/-- `simplify_bv_binop`. -/
def simplifyBvBinop (d : ℕ) (f : BvBin) (lhs rhs : Expr) : Walk Expr := do
  let lhs ← rec d lhs
  let rhs ← rec d rhs
  if lhs.sort ≠ rhs.sort ∨ lhs.sort.isBitvec = false then Walk.bail
  else
    match bvConstU128 lhs, bvConstU128 rhs with
    | some (l, lw), some (r, rw) =>
      if lw ≠ rw then Walk.bail
      else
        match foldBvBin l r lw f with
        | some v => pure (mkBitvec v lw)
        | Option.none => Walk.ofOption (tryApp (.bvBin f) [lhs, rhs])
    | _, _ => Walk.ofOption (tryApp (.bvBin f) [lhs, rhs])

/-- `simplify_bv_cmp`. -/
def simplifyBvCmp (d : ℕ) (kind : UnsignedCmp) (lhs rhs : Expr) : Walk Expr := do
  let lhs ← rec d lhs
  let rhs ← rec d rhs
  if lhs.sort ≠ rhs.sort ∨ lhs.sort.isBitvec = false then Walk.bail
  else
    match bvConstU128 lhs, bvConstU128 rhs with
    | some (l, lw), some (r, rw) =>
      if lw ≠ rw then Walk.bail else pure (.boolConst (kind.fold l r))
    | _, _ =>
      match unsignedBoundDecidesCmp facts lhs rhs kind with
      | some b => pure (.boolConst b)
      | Option.none => Walk.ofOption (tryApp (.bvCmp kind.toBvCmp) [lhs, rhs])

/-- `simplify_bv_signed_cmp`. -/
def simplifyBvSignedCmp (d : ℕ) (f : BvCmp) (lhs rhs : Expr) : Walk Expr := do
  let lhs ← rec d lhs
  let rhs ← rec d rhs
  if lhs.sort ≠ rhs.sort ∨ lhs.sort.isBitvec = false then Walk.bail
  else
    match bvConstU128 lhs, bvConstU128 rhs with
    | some (l, lw), some (r, rw) =>
      if lw ≠ rw ∨ lw = 0 then Walk.bail
      else do pure (.boolConst (← Walk.ofOption (foldSigned (signedBvOrder l r lw) f)))
    | _, _ => Walk.ofOption (tryApp (.bvCmp f) [lhs, rhs])

/-- `simplify_bv_concat`. -/
def simplifyBvConcat (d : ℕ) (lhs rhs : Expr) : Walk Expr := do
  let lhs ← rec d lhs
  let rhs ← rec d rhs
  match bvConstU128 lhs, bvConstU128 rhs with
  | some (l, lw), some (r, rw) =>
    if 128 < lw + rw then Walk.bail
    else pure (mkBitvec (((l <<< rw) % 2 ^ 128) ||| r) (lw + rw))
  | _, _ => Walk.ofOption (tryApp .bvConcat [lhs, rhs])

/-- `simplify_bv_zero_extend`. -/
def simplifyBvZeroExtend (d : ℕ) (e : Expr) (extraBits : ℕ) : Walk Expr := do
  let e ← rec d e
  let inputWidth ← Walk.ofOption e.sort.bitvecWidth
  if 128 < inputWidth + extraBits then Walk.ofOption (tryApp (.bvZeroExtend extraBits) [e])
  else
    match bvConstU128 e with
    | some (v, _) => pure (mkBitvec v (inputWidth + extraBits))
    | Option.none => Walk.ofOption (tryApp (.bvZeroExtend extraBits) [e])

/-- `simplify_bv_extract`. -/
def simplifyBvExtract (d : ℕ) (e : Expr) (high low : ℕ) : Walk Expr := do
  let e ← rec d e
  let width ← Walk.ofOption e.sort.bitvecWidth
  if high < low ∨ width ≤ high ∨ 128 ≤ high then Walk.bail
  else
    match bvConstU128 e with
    | Option.none => Walk.ofOption (tryApp (.bvExtract high low) [e])
    | some (v, _) => pure (mkBitvec ((v >>> low) &&& bvMask (high - low + 1)) (high - low + 1))

/-- `simplify_bv_mul_no_overflow_unsigned`. -/
def simplifyBvMulNoOverflowUnsigned (d : ℕ) (lhs rhs : Expr) : Walk Expr := do
  let lhs ← rec d lhs
  let rhs ← rec d rhs
  if lhs.sort ≠ rhs.sort then Walk.bail
  else
    let width ← Walk.ofOption lhs.sort.bitvecWidth
    let residual := Walk.ofOption (tryApp (.bvCheck .mulNoOverflowUnsigned) [lhs, rhs])
    if width = 0 ∨ 128 < width then residual
    else
      match bvConstU128 lhs, bvConstU128 rhs with
      | some (l, lw), some (r, rw) =>
        if lw ≠ rw then Walk.bail else pure (.boolConst (unsignedMulFitsWidth l r width))
      | _, _ =>
        match oneConstOneExpr lhs rhs with
        | some (constant, variable_) =>
          if unsignedBoundProvesMulNoOverflow facts variable_ constant width then
            pure (.boolConst true)
          else residual
        | Option.none => residual

/-- `select_from_simplified`. -/
def selectFromSimplified (d : ℕ) (array index : Expr) : Walk Expr := do
  Walk.enter maxDepth d
  match array with
  | .app (.constArray _) [v] => pure v
  | .app .store [base, storeIndex, v] =>
    if (← simplifyEqWithFacts facts rec (d + 1) storeIndex index) = .boolConst true then pure v
    else if facts.areDisequal storeIndex index then selectFromSimplified (d + 1) base index
    -- where the facts do not tell the indices apart, the equality is simplified again
    else if (← simplifyEqWithFacts facts rec (d + 1) storeIndex index) = .boolConst false then
      selectFromSimplified (d + 1) base index
    else pure ((Expr.app .store [base, storeIndex, v]).select index)
  | array => pure (array.select index)

/-- `simplify_select`. -/
def simplifySelect (d : ℕ) (array index : Expr) : Walk Expr := do
  let array ← rec d array
  let index ← rec d index
  selectFromSimplified maxDepth facts rec d array index

/-- The argument a selector reads off a constructor application. -/
def selectedArg (ctor sel : String) (s : SmtSort) (args : List Expr) : Option (Option Expr) :=
  s.constructors.map fun cs => do
    let c ← cs.find? (·.name == ctor)
    let i ← c.fields.findIdx? (·.name == sel)
    args[i]?

/-- `simplify_datatype_selector`. -/
def simplifyDatatypeSelector (d : ℕ) (dt sel : String) (s : SmtSort) (target : Expr) :
    Walk Expr := do
  let selectedFrom ← rec d target
  let rebuilt := selectedFrom.fieldSelect dt sel s
  match selectedFrom with
  | .app (.datatypeConstructor ctorDt ctor ctorSort) args =>
    if ctorDt ≠ dt then Walk.bail
    else do
      let arg ← Walk.ofOption (selectedArg ctor sel ctorSort args)
      pure (arg.getD rebuilt)
  | .app .ite [c, a, b] =>
    -- the selector goes into both branches, if it can be built there
    match tryApp (.datatypeSelector dt sel s) [a], tryApp (.datatypeSelector dt sel s) [b] with
    | some a, some b => do
      let c ← rec d c
      let a ← rec d a
      let b ← rec d b
      rec d (← Walk.ofOption (tryApp .ite [c, a, b]))
    | _, _ => pure rebuilt
  | _ => pure rebuilt

/-- `simplify_datatype_tester`. -/
def simplifyDatatypeTester (d : ℕ) (dt ctor : String) : ℕ → Expr → Walk Expr
  | 0, _ => Walk.bail
  | fuel + 1, target => do
    match ← rec d target with
    | .app (.datatypeConstructor ctorDt ctorName s) args =>
      if ctorDt ≠ dt then Walk.bail
      else
        let _ := (s, args)
        pure (.boolConst (ctorName == ctor))
    | .app .ite [c, a, b] => do
      let c ← rec d c
      let a ← simplifyDatatypeTester d dt ctor fuel a
      let b ← simplifyDatatypeTester d dt ctor fuel b
      rec d (← Walk.ofOption (tryApp .ite [c, a, b]))
    | tested => Walk.ofOption (tryApp (.datatypeTester dt ctor) [tested])

/-- `simplify_rebuilt_children`. -/
def simplifyRebuiltChildren (d : ℕ) : Expr → Walk Expr
  | .var n s => pure (.var n s)
  | .app op args => do pure (.app op (← args.mapM (rec d)))
  | .quant q vs b => do pure (.quant q vs (← rec d b))

/-- The match of `simplify_with_facts_uncached`. -/
def simplifyNode (fuel d : ℕ) (e : Expr) : Walk Expr :=
  match e with
  | .app .not [inner] => do
    match ← rec d inner with
    | .app (.boolConst v) _ => pure (.boolConst !v)
    | .app .not [double] => rec d double
    | inner => Walk.ofOption (tryApp .not [inner])
  | .app .eq [lhs, rhs] => simplifyEqWithFacts facts rec d lhs rhs
  | .app .and children => simplifyBoolNary rec true d children
  | .app .or children => simplifyBoolNary rec false d children
  | .app .ite [c, a, b] => do
    match ← rec d c with
    | .app (.boolConst true) _ => rec d a
    | .app (.boolConst false) _ => rec d b
    | c => simplifyIteWithFacts rec d c a b
  | .app (.bvBin f) [lhs, rhs] =>
    match f with
    | .add | .sub | .mul | .and | .or | .xor | .urem => simplifyBvBinop rec d f lhs rhs
    | _ => simplifyRebuiltChildren rec d (.app (.bvBin f) [lhs, rhs])
  | .app .bvConcat [lhs, rhs] => simplifyBvConcat rec d lhs rhs
  | .app (.bvExtract high low) [e] => simplifyBvExtract rec d e high low
  | .app (.bvZeroExtend extraBits) [e] => simplifyBvZeroExtend rec d e extraBits
  | .app (.bvCmp f) [lhs, rhs] =>
    match f with
    | .uge => simplifyBvCmp facts rec d .ge lhs rhs
    | .ugt => simplifyBvCmp facts rec d .gt lhs rhs
    | .ule => simplifyBvCmp facts rec d .le lhs rhs
    | .ult => simplifyBvCmp facts rec d .lt lhs rhs
    | f => simplifyBvSignedCmp rec d f lhs rhs
  | .app (.bvCheck .mulNoOverflowUnsigned) [lhs, rhs] =>
    simplifyBvMulNoOverflowUnsigned facts rec d lhs rhs
  | .app .select [array, index] => simplifySelect maxDepth facts rec d array index
  | .app .store [array, index, v] => do
    let array ← rec d array
    let index ← rec d index
    let v ← rec d v
    pure (array.store index v)
  | .app (.constArray index) [v] => do pure (.app (.constArray index) [← rec d v])
  | .app (.datatypeSelector dt sel s) [target] => simplifyDatatypeSelector rec d dt sel s target
  | .app (.datatypeTester dt ctor) [target] => simplifyDatatypeTester rec d dt ctor fuel target
  | e => simplifyRebuiltChildren rec d e

end Simplify

/-- `simplify_with_facts`, at a depth. -/
def simplifyWithFacts (maxDepth : ℕ) (facts : PathFacts) : ℕ → ℕ → Expr → Walk Expr
  | 0, _, _ => Walk.bail
  | fuel + 1, d, e => do
    Walk.enter maxDepth d
    simplifyNode maxDepth facts (simplifyWithFacts maxDepth facts fuel) fuel (d + 1) e

/-! ### Substitution -/

/-- The environment: a value for some names. -/
abbrev SymEnv : Type := List (String × Expr)

/-- `env.insert(name, value)`. -/
def SymEnv.insert (env : SymEnv) (name : String) (value : Expr) : SymEnv :=
  match env with
  | [] => [(name, value)]
  | (n, v) :: rest =>
    if n = name then (n, value) :: rest else (n, v) :: SymEnv.insert rest name value

/-- `substitute_inner`: the environment to a fixpoint, leaving a name alone while it is
being resolved. -/
def substituteInner (maxDepth : ℕ) (env : SymEnv) : ℕ → ℕ → List String → Expr → Walk Expr
  | 0, _, _, _ => Walk.bail
  | fuel + 1, d, resolving, e => do
    Walk.enter maxDepth d
    match e with
    | .var name s =>
      match env.lookup name with
      | Option.none => pure (.var name s)
      | some replacement =>
        if name ∈ resolving then pure (.var name s)
        else do
          let resolved ← substituteInner maxDepth env fuel (d + 1) (name :: resolving) replacement
          if resolved.sort ≠ s then Walk.bail else pure resolved
    | .app op args => do
      pure (.app op (← args.mapM (substituteInner maxDepth env fuel (d + 1) resolving)))
    | .quant q vs b => do
      pure (.quant q vs (← substituteInner maxDepth env fuel (d + 1) resolving b))

end Straightline

end TrustMc
