import TrustMc.ConstProp.Eval

/-!
# Substitution of known constants

`substituteVars known e` replaces the free variables of `e` that have a known constant and
folds the operators whose arguments became constant.

* Substitution goes through the arguments of an application first; `foldApp` then applies the
  folding of its operator to the new arguments.
* Where new arguments have other sorts than the old ones, a fold falls back to the original
  term, as a rebuilt one would be ill-sorted.
-/

namespace TrustMc

namespace ConstProp

/-- The map from variable names to their constants. -/
abbrev Known : Type := List (String × Expr)

/-- `known.insert(name, constant)`. -/
def Known.insert (known : Known) (name : String) (constant : Expr) : Known :=
  (name, constant) :: known.filter fun p => p.1 ≠ name

/-- `known.contains_key(name)`. -/
def Known.containsKey (known : Known) (name : String) : Bool := (known.lookup name).isSome

/-- `filter_bound_vars`. -/
def filterBoundVars (known : Known) (vars : List (String × SmtSort)) : Known :=
  known.filter fun p => p.1 ∉ vars.map Prod.fst

/-! ### Folding -/

/-- The `Not` arm of `substitute_vars_inner`. -/
def foldNot (inner : Expr) : Expr :=
  match inner with
  | .app (.boolConst b) _ => .boolConst !b
  | inner =>
    match tryEvalToBool inner with
    | some b => .boolConst !b
    | none => inner.not

/-- The `BvExtract` arm of `substitute_vars_inner`. -/
def foldBvExtract (high low : ℕ) (e inner : Expr) : Expr :=
  let original := Expr.app (.bvExtract high low) [e]
  match inner with
  | .app (.bitVecConst w x) _ => (foldExtract high low x.toNat w).getD original
  | inner =>
    if inner.sort.bitvecWidth.any fun width => low ≤ high ∧ high < width then
      .app (.bvExtract high low) [inner]
    else original

/-- `substitute_vars_bv_binary`, on the substituted operands. -/
def foldBvBinary (op : Op) (a b : Expr) : Expr := (evalBvBinaryConst op a b).getD (.app op [a, b])

/-- The `Eq` arm of `substitute_vars_compound`. -/
def foldEq (a b : Expr) : Expr :=
  if isScalarConstant a ∧ isScalarConstant b then .boolConst (a = b)
  else if a = b then .boolConst true
  else a.eq b

/-- The loops of `fold_and` and `fold_or`: what is left, unless some child is `stop`. -/
def foldChildren (stop : Bool) : List Expr → Option (List Expr)
  | [] => some []
  | sub :: rest =>
    match sub with
    | .app (.boolConst b) _ => if b = stop then none else foldChildren stop rest
    | sub =>
      match tryEvalToBool sub with
      | some b => if b = stop then none else foldChildren stop rest
      | none => (foldChildren stop rest).map (sub :: ·)

/-- `fold_and` and `fold_or`, on the substituted children. -/
def foldNary (op : Op) (stop : Bool) (exprs : List Expr) : Expr :=
  match foldChildren stop exprs with
  | none => .boolConst stop
  | some [] => .boolConst !stop
  | some [e] => e
  | some filtered => .app op filtered

/-- The `Ite` arm of `substitute_vars_compound`. -/
def foldIte (cond thenExpr elseExpr : Expr) : Expr :=
  match cond with
  | .app (.boolConst true) _ => thenExpr
  | .app (.boolConst false) _ => elseExpr
  | cond =>
    if thenExpr = elseExpr then thenExpr
    else
      match tryEvalToBool cond with
      | some true => thenExpr
      | some false => elseExpr
      | none => Expr.ite cond thenExpr elseExpr

/-- `fold_select`. -/
def foldSelect (array index newArray newIndex : Expr) : Expr :=
  if newArray.sort ≠ array.sort ∨ newIndex.sort ≠ index.sort then array.select index
  else
    match newArray with
    | .app (.constArray _) [value] => value
    | newArray => (evalSelectStoreConst newArray newIndex).getD (newArray.select newIndex)

/-- Whether a store of `newValue` leaves the array as it is. -/
def isNoopStore (newArray newIndex newValue : Expr) : Bool :=
  (match newArray with
    | .app (.constArray _) [value] => value == newValue
    | _ => false) ||
  (match newValue with
    | .app .select [selectedArray, selectedIndex] =>
      selectedArray == newArray && selectedIndex == newIndex
    | _ => false)

/-- `fold_store`. -/
def foldStore (value newArray newIndex newValue : Expr) : Expr :=
  if isNoopStore newArray newIndex newValue then newArray
  else if newArray.sort.arraySort.any fun p => p.2 ≠ newValue.sort then
    newArray.store newIndex value
  else
    match newArray with
    | .app .store [innerArray, innerIndex, innerValue] =>
      if innerIndex = newIndex then innerArray.store newIndex newValue
      else ((innerArray.store innerIndex innerValue).store newIndex newValue)
    | newArray => newArray.store newIndex newValue

/-- `fold_dt_constructor`: an argument is replaced where it has the sort of its field. -/
def foldDtConstructor (dt c : String) (s : SmtSort) (args newArgs : List Expr) : Expr :=
  let original := Expr.datatypeConstructor dt c args s
  match s.constructors with
  | none => original
  | some cs =>
    match cs.find? (·.name == c) with
    | none => original
    | some ctor =>
      if ctor.fields.length ≠ args.length then original
      else
        let adjusted := ((args.zip newArgs).zip ctor.fields).map fun ((arg, newArg), field) =>
          if newArg.sort = field.sort then newArg else arg
        .datatypeConstructor dt c adjusted s

/-- The argument a selector reads off a constructor application by the field's name. -/
def betaSelect (selectorName : String) : Expr → Option Expr
  | .app (.datatypeConstructor _ c s) args => do
    let ctor ← (← s.constructors).find? (·.name == c)
    args[← ctor.fields.findIdx? (·.name == selectorName)]?
  | _ => none

/-- `fold_dt_selector`. -/
def foldDtSelector (dt selectorName : String) (s : SmtSort) (e inner : Expr) : Expr :=
  match betaSelect selectorName inner with
  | some arg => arg
  | none =>
    (tryApp (.datatypeSelector dt selectorName s) [inner]).getD (e.fieldSelect dt selectorName s)

/-- The `DatatypeTester` arm of `substitute_vars_dt_quant`. -/
def foldTester (dt c : String) (e inner : Expr) : Expr :=
  (tryApp (.datatypeTester dt c) [inner]).getD (e.isConstructor dt c)

/-- The arms of `substitute_vars_inner` on an application with substituted arguments. -/
def foldApp (op : Op) (args newArgs : List Expr) : Expr :=
  match op, args, newArgs with
  | .not, _, [inner] => foldNot inner
  | .bvExtract high low, [e], [inner] => foldBvExtract high low e inner
  | .bvBin f, _, [a, b] => foldBvBinary (.bvBin f) a b
  | .bvCmp f, _, [a, b] => foldBvBinary (.bvCmp f) a b
  | .bvCheck f, _, [a, b] => foldBvBinary (.bvCheck f) a b
  | .bvConcat, _, [a, b] => foldBvBinary .bvConcat a b
  | .eq, _, [a, b] => foldEq a b
  | .and, _, exprs => foldNary .and false exprs
  | .or, _, exprs => foldNary .or true exprs
  | .ite, _, [c, a, b] => foldIte c a b
  | .select, [array, index], [newArray, newIndex] => foldSelect array index newArray newIndex
  | .store, [_, _, value], [newArray, newIndex, newValue] =>
    foldStore value newArray newIndex newValue
  | .datatypeConstructor dt c s, args, newArgs => foldDtConstructor dt c s args newArgs
  | .datatypeSelector dt sel s, [e], [inner] => foldDtSelector dt sel s e inner
  | .datatypeTester dt c, [e], [inner] => foldTester dt c e inner
  | op, _, newArgs => .app op newArgs

/-! ### Substitution -/

mutual

/-- `substitute_vars_inner`. -/
def substituteVarsInner (known : Known) : Expr → Expr
  | .var name s => (known.lookup name).getD (.var name s)
  | .app op args => foldApp op args (substituteVarsList known args)
  | .quant q vars body => .quant q vars (substituteVarsInner (filterBoundVars known vars) body)

/-- `substitute_vars_inner` on a list of terms. -/
def substituteVarsList (known : Known) : List Expr → List Expr
  | [] => []
  | e :: es => substituteVarsInner known e :: substituteVarsList known es

end

@[simp]
theorem substituteVarsList_eq (known : Known) (es : List Expr) :
    substituteVarsList known es = es.map (substituteVarsInner known) := by
  induction es with
  | nil => rfl
  | cons e es ih => simp [substituteVarsList, ih]

/-- `substitute_vars`. -/
def substituteVars (e : Expr) (known : Known) : Expr :=
  if known.isEmpty then e else substituteVarsInner known e

end ConstProp

end TrustMc
