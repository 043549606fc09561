import TrustMc.Bmc.Terms

/-!
# The bounded encoding

The encoding of a function without cycles as one SMT query: blocks are visited in topological
order, every assignment defines a new version of its place, and a block whose incoming edges
disagree on a place defines a version that chooses between them.

* `AYCtx`: the constraints, the flags of the checks and the assumptions so far.
* `StatementCodegen`: the versions, the environment and the path condition at a point of the
  function, and the edges that wait for their targets.
* `codegenStatement`, `codegenTerminatorWithSuccessors`, `initializeBlockEntryEnv`,
  `recordOutgoingEdge`: the parts of a block.
* `codegenBlocks`, `finalizeCounterexampleQuery`: the query, which is satisfiable where a check
  fails.

Left out are the declarations of the variables, whose sorts are part of the variables here, and
the metadata of the reports.
-/

namespace TrustMc.Bmc

open LoopUnroll Arithmetic TrustMc.Expr

/-! ### States -/

structure Config where
  /-- `Sort::hash` of the sort of a place. -/
  hash : Place → BitVec 64
  assertionReachChecks : Bool
  unwindAssertBlocks : ℕ → Bool

/-- The latest entry of a place is the first. -/
abbrev Env : Type := List (Place × Expr)

structure IncomingEdge where
  /-- `none` is the condition that always holds. -/
  edgePredicate : Option Expr
  env : Env

structure AYCtx where
  constraints : List Expr
  propertyViolations : List Expr
  assumptionContext : Option Expr
  nameCounter : ℕ
  labelCounter : ℕ

structure StatementCodegen extends AYCtx where
  /-- The next version of a place. -/
  ssaVersion : Place → ℕ
  currentEnv : Env
  currentPathCondition : Option Expr
  blockPathConditions : ℕ → Option (Option Expr)
  incomingEdges : ℕ → List IncomingEdge

/-- `StatementCodegen::new` in a fresh context. -/
def StatementCodegen.new : StatementCodegen where
  constraints := []
  propertyViolations := []
  assumptionContext := none
  nameCounter := 0
  labelCounter := 0
  ssaVersion := fun _ => 0
  currentEnv := []
  currentPathCondition := none
  blockPathConditions := fun _ => none
  incomingEdges := fun _ => []

/-- The conjunction with a condition that may be absent. -/
def conj (guard : Option Expr) (e : Expr) : Expr :=
  match guard with
  | none => e
  | some g => .and [g, e]

/-- The conjunction of two conditions. -/
def conjGuards : Option Expr → Option Expr → Option Expr
  | none, cond => cond
  | pc, none => pc
  | some path, some branch => some (.and [path, branch])

namespace Function

variable (f : Function)

/-- `infer_sort_from_place`. -/
def placeSort (p : Place) : SmtSort :=
  match f.placeTy p with
  | some t => t.sort
  | none => .bitvec 32

def operandTy : Operand → Option ScalarTy
  | .place p => f.placeTy p
  | .const s => some s.ty
  | .fnDef _ => none

def rvalueTy : Rvalue → Option ScalarTy
  | .use o | .unaryOp _ o => f.operandTy o
  | .binaryOp op l _ => (f.operandTy l).map (resultTy op)
  | .checkedBinaryOp .. => none
  | .cast _ t => some (.int t)

/-- The type that the operands of a binary operator are cast to. -/
def binopOperandTy (op : BinOp) (l r : Operand) : Option ScalarTy :=
  match f.rvalueTy (.binaryOp op l r) with
  | some .bool => f.operandTy l
  | ty => ty

def operandSignedness (o : Operand) : Option Bool := (f.operandTy o).map ScalarTy.signed

def isSignedIntegerOp (l r : Operand) : Option Bool :=
  match f.operandSignedness l, f.operandSignedness r with
  | some a, some b => if a = b then some a else none
  | some a, none | none, some a => some a
  | none, none => none

end Function

namespace StatementCodegen

variable (f : Function) (config : Config)

def var (s : Symbol) (sort : SmtSort) : Expr := .var (s.name f.name config.hash) sort

def assert (S : StatementCodegen) (e : Expr) : StatementCodegen :=
  { S with constraints := S.constraints ++ [e] }

def envLookup (S : StatementCodegen) (p : Place) : Option Expr := S.currentEnv.lookup p

def envUpdate (S : StatementCodegen) (p : Place) (e : Expr) : StatementCodegen :=
  { S with currentEnv := (p, e) :: S.currentEnv }

/-! ### Checks and assumptions -/

/-- `record_property_violation_with_guard`. -/
def recordPropertyViolationWithGuard (S : StatementCodegen) (violation : Expr) (label : Label)
    (guard : Option Expr) : StatementCodegen :=
  let checkIdx := S.labelCounter
  let pred := var f config (.violation label checkIdx) .bool
  let S₁ := { S.assert (.eq pred (conj S.assumptionContext violation)) with
    labelCounter := checkIdx + 1
    propertyViolations := S.propertyViolations ++ [pred] }
  let suppressReachFlag := !config.assertionReachChecks || label == .unwindAssert
  match if suppressReachFlag then none else conjGuards S.assumptionContext guard with
  | none => S₁
  | some reach => S₁.assert (.eq (var f config (.reach label checkIdx) .bool) reach)

/-- `record_violation_guarded`. -/
def recordViolationGuarded (S : StatementCodegen) (violation : Expr) (label : Label) :
    StatementCodegen :=
  S.recordPropertyViolationWithGuard f config (conj S.currentPathCondition violation) label
    S.currentPathCondition

/-- `add_ordered_assumption`. -/
def addOrderedAssumption (S : StatementCodegen) (constraint : Expr) : StatementCodegen :=
  let pred := var f config (.assumeCtx S.nameCounter) .bool
  { S.assert (.eq pred (conj S.assumptionContext constraint)) with
    nameCounter := S.nameCounter + 1
    assumptionContext := some pred }

/-- The assumption of a condition at a point: it holds where the point is reached. -/
def assume (S : StatementCodegen) (cond : Expr) : StatementCodegen :=
  S.addOrderedAssumption f config
    (match S.currentPathCondition with
    | none => cond
    | some pc => .implies pc cond)

/-! ### Operands and right-hand sides -/

/-- A place that was not written yet stands for its version zero. -/
def codegenPlace (S : StatementCodegen) (p : Place) : Expr × StatementCodegen :=
  match S.envLookup p with
  | some e => (e, S)
  | none =>
    let e := var f config (.ssa p (S.ssaVersion p - 1)) (f.placeSort p)
    (e, { S with ssaVersion := Function.update S.ssaVersion p (max (S.ssaVersion p) 1) }.envUpdate
      p e)

def codegenOperand (S : StatementCodegen) : Operand → Expr × StatementCodegen
  | .place p => S.codegenPlace f config p
  | .const s => (s.toExpr, S)
  | .fnDef _ => (.boolConst true, S)

def codegenCast (S : StatementCodegen) (o : Operand) (target : ScalarTy) :
    Expr × StatementCodegen :=
  let (e, S) := S.codegenOperand f config o
  (castTerm e ((f.operandSignedness o).getD false) target.sort, S)

def emitOverflowCheck (S : StatementCodegen) (op : BinOp) (l r : Expr) (isSigned : Bool) :
    StatementCodegen :=
  match overflowCheck op l r isSigned with
  | some (noOverflow, label) => S.recordViolationGuarded f config (.not noOverflow) label
  | none => S

def emitDivisionByZeroCheck (S : StatementCodegen) (divisor : Expr) (label : Label) :
    StatementCodegen :=
  match divisor.sort.bitvecWidth with
  | some w => S.recordViolationGuarded f config (.eq divisor (.bitVecConst 0#w)) label
  | none => S

def emitNegOverflowCheck (S : StatementCodegen) (e : Expr) : StatementCodegen :=
  S.recordViolationGuarded f config (.not (.app .bvNegNoOverflow [e])) .overflowCheckNeg

/-- `signedness_fallback_for_binop`, for operands whose signedness is not known. -/
def signednessFallbackForBinop : BinOp → Bool
  | .div | .rem | .shr | .shrUnchecked | .bitXor | .bitAnd | .bitOr | .eq | .ne => false
  | _ => true

/-- The checks that come with a binary operator. -/
def emitBinopChecks (S : StatementCodegen) (op : BinOp) (l r : Expr) (isSigned : Option Bool) :
    StatementCodegen :=
  let S :=
    if isDivision op then
      S.emitDivisionByZeroCheck f config r (if op = .rem then .modByZeroCheck else .divByZeroCheck)
    else S
  let S :=
    if isDivision op && isSigned == some true then S.emitOverflowCheck f config op l r true else S
  if isUnchecked op then S.emitOverflowCheck f config op l r (isSigned.getD true) else S

def codegenRvalue (S : StatementCodegen) : Rvalue → Expr × StatementCodegen
  | .use o => S.codegenOperand f config o
  | .binaryOp op l r =>
    let operandTy := f.binopOperandTy op l r
    let (lhs, S) :=
      match operandTy with
      | some ty => S.codegenCast f config l ty
      | none => S.codegenOperand f config l
    let (rhs, S) :=
      match operandTy with
      | some ty => S.codegenCast f config r ty
      | none => S.codegenOperand f config r
    let isSigned := f.isSignedIntegerOp l r
    (codegenBinopTyped op lhs rhs (isSigned.getD (signednessFallbackForBinop op)),
      S.emitBinopChecks f config op lhs rhs isSigned)
  -- assigned by `codegen_assign_checked_binary_op`
  | .checkedBinaryOp .. => (.boolConst true, S)
  | .unaryOp op o =>
    let (e, S) := S.codegenOperand f config o
    let S :=
      if op = .neg ∧ f.operandSignedness o = some true then S.emitNegOverflowCheck f config e
      else S
    (codegenUnop op e, S)
  | .cast o t => S.codegenCast f config o (.int t)

/-! ### Assignments -/

/-- `next_ssa_version`. -/
def nextSsaVersion (S : StatementCodegen) (p : Place) : ℕ × StatementCodegen :=
  (S.ssaVersion p,
    { S with ssaVersion := Function.update S.ssaVersion p (S.ssaVersion p + 1) })

/-- The definition of a version: off the path, a place keeps the value that it had. -/
def assertSsaDef (S : StatementCodegen) (lhs rhs : Expr) (p : Place) : StatementCodegen :=
  match S.currentPathCondition with
  | none => S.assert (.eq lhs rhs)
  | some pc =>
    let previous := (S.envLookup p).getD (var f config (.init p) rhs.sort)
    S.assert (.eq lhs (.ite pc rhs previous))

/-- A version is defined and becomes the value of its place. -/
def bindVersion (S : StatementCodegen) (p : Place) (version : ℕ) (rhs : Expr) :
    StatementCodegen :=
  let lhs := var f config (.ssa p version) rhs.sort
  (S.assertSsaDef f config lhs rhs p).envUpdate p lhs

/-- `codegen_assign_checked_binary_op`. -/
def codegenAssignCheckedBinaryOp (S : StatementCodegen) (l : ℕ) (op : BinOp) (a b : Operand) :
    StatementCodegen :=
  let isSigned := (f.isSignedIntegerOp a b).getD true
  let (lhs, S) := S.codegenOperand f config a
  let (rhs, S) := S.codegenOperand f config b
  match overflowCheck op lhs rhs isSigned with
  | none => S
  | some (noOverflow, _) =>
    let (version, S) := S.nextSsaVersion (.field l 0)
    let S := S.bindVersion f config (.field l 0) version (codegenBinopTyped op lhs rhs isSigned)
    let (version, S) := S.nextSsaVersion (.field l 1)
    S.bindVersion f config (.field l 1) version (.not noOverflow)

/-- The version is taken before the right-hand side is translated. -/
def codegenAssign (S : StatementCodegen) (l : ℕ) (rhs : Rvalue) : StatementCodegen :=
  match rhs with
  | .checkedBinaryOp op a b => S.codegenAssignCheckedBinaryOp f config l op a b
  | _ =>
    let (version, S) := S.nextSsaVersion (.bare l)
    let (e, S) := S.codegenRvalue f config rhs
    S.bindVersion f config (.bare l) version e

def codegenStatement (S : StatementCodegen) : Statement → StatementCodegen
  | .assign l rhs => S.codegenAssign f config l rhs
  | .nop => S

/-! ### Terminators -/

/-- `codegen_kani_any_raw`. -/
def codegenKaniAnyRaw (S : StatementCodegen) (destination : Place) : StatementCodegen :=
  let (_, S) := S.nextSsaVersion destination
  { S with nameCounter := S.nameCounter + 1 }.envUpdate destination
    (var f config (.any S.nameCounter) (f.placeSort destination))

def codegenKaniAssume (S : StatementCodegen) : List Operand → StatementCodegen
  | [] => S
  | cond :: _ =>
    let (e, S) := S.codegenOperand f config cond
    S.assume f config e

def codegenKaniAssert (S : StatementCodegen) : List Operand → StatementCodegen
  | [] => S.recordViolationGuarded f config (.boolConst true) .kaniAssertNoArgs
  | cond :: _ =>
    let (e, S) := S.codegenOperand f config cond
    S.recordViolationGuarded f config (.not e) .kaniAssert

/-- `try_codegen_kani_call`. -/
def codegenHook (S : StatementCodegen) (hook : Hook) (args : List Operand) (destination : Place) :
    StatementCodegen :=
  match hook with
  | .anyRaw => S.codegenKaniAnyRaw f config destination
  | .assume => S.codegenKaniAssume f config args
  -- what follows a failed assertion is not reached
  | .assert | .safetyCheck =>
    (S.codegenKaniAssert f config args).codegenKaniAssume f config args
  | .check | .safetyCheckNoAssume => S.codegenKaniAssert f config args
  | .panic => S.recordViolationGuarded f config (.boolConst true) .panic
  | .panicStub => S.recordViolationGuarded f config (.boolConst true) .panicStub
  | .unsupportedCheck => S.recordViolationGuarded f config (.boolConst true) .unsupportedCheck
  | .initContracts => S

def assertLabelForMessage : AssertMessage → Label
  | .boundsCheck => .boundsCheck
  | .divisionByZero => .divByZeroCheck
  | .remainderByZero => .modByZeroCheck
  | .overflow .. => .overflowCheck
  | .overflowNeg => .overflowCheckNeg
  | .nullPointerDereference => .rawPtrDerefNull
  | .misalignedPointerDereference => .rawPtrDerefMisaligned
  | .invalidEnumConstruction => .enumCheck
  | .resumedAfterReturn | .resumedAfterDrop | .resumedAfterPanic => .coroutineCheck

/-- The condition of one branch; the bits of the value are compared. -/
def caseCond (discr : Expr) (value : ℕ) : Expr :=
  match discr.sort.bitvecWidth with
  | some width => .eq discr (.bitVecConst (BitVec.ofNat width value))
  | none =>
    match value with
    | 0 => .not discr
    | 1 => discr
    | _ => .boolConst false

/-- The negations of the branches, one after the other. -/
def otherwiseCond (conds : List Expr) : Option Expr :=
  match conds with
  | [] => none
  | c :: cs => some (cs.foldl (fun acc c => .and [acc, .not c]) (.not c))

def codegenSwitchintAll (discr : Expr) (branches : List (ℕ × ℕ)) (otherwise : ℕ) :
    List (ℕ × Option Expr) :=
  (branches.map fun (value, target) => (target, some (caseCond discr value))) ++
    [(otherwise, otherwiseCond (branches.map fun b => caseCond discr b.1))]

/-- The successors of a block with the conditions of the edges. -/
def codegenTerminatorWithSuccessors (S : StatementCodegen) (bb : ℕ) :
    TerminatorKind scalarMir → List (ℕ × Option Expr) × StatementCodegen
  | .goto target | .drop _ target _ => ([(target, none)], S)
  | .switchInt discr branches otherwise =>
    let (e, S) := S.codegenOperand f config discr
    (codegenSwitchintAll e branches otherwise, S)
  | .return | .resume | .abort => ([], S)
  | .unreachable =>
    ([], S.recordViolationGuarded f config (.boolConst true)
      (if config.unwindAssertBlocks bb then .unwindAssert else .unreachable))
  | .assert cond expected msg target _ =>
    match msg with
    | .overflow op l r =>
      let (lhs, S) := S.codegenOperand f config l
      let (rhs, S) := S.codegenOperand f config r
      let S := S.emitOverflowCheck f config op lhs rhs ((f.isSignedIntegerOp l r).getD true)
      let (c, S) := S.codegenOperand f config cond
      ([(target, some (if expected then c else .not c))], S)
    | msg =>
      let (c, S) := S.codegenOperand f config cond
      let assertion := if expected then c else .not c
      ([(target, some assertion)],
        S.recordViolationGuarded f config (.not assertion) (assertLabelForMessage msg))
  | .call (.fnDef hook) args destination target _ =>
    ((target.map fun t => (t, none)).toList, S.codegenHook f config hook args destination)
  -- other calls and assembly are not modelled
  | .call .. | .inlineAsm .. => ([], S)

/-! ### Edges -/

/-- The disjunction of two predicates; it always holds where one of them does. -/
def orEdge : Option Expr → Option Expr → Option Expr
  | some a, some b => some (.or [a, b])
  | _, _ => none

/-- The disjunction of the predicates. -/
def orEdgePredicates (conds : List (Option Expr)) : Option Expr :=
  conds.foldl orEdge (some (.boolConst false))

/-- The value of the first edge that is taken; the last one is taken where no other is. -/
def iteChain (first : Option Expr × Expr) : List (Option Expr × Expr) → Expr
  | [] => first.2
  | next :: rest => .ite (first.1.getD (.boolConst true)) first.2 (iteChain next rest)

/-- The edges that have a value for the place. -/
def phiVals (p : Place) (incoming : List IncomingEdge) : List (Option Expr × Expr) :=
  incoming.filterMap fun edge => (edge.env.lookup p).map fun v => (edge.edgePredicate, v)

/-- Some edge has no value for the place. -/
def missingEdge (p : Place) (incoming : List IncomingEdge) : Bool :=
  incoming.any fun edge => (edge.env.lookup p).isNone

/-- The condition under which a place has a value at the entry. -/
def phiGuard (S : StatementCodegen) (p : Place) (incoming : List IncomingEdge) : Option Expr :=
  if missingEdge p incoming then orEdgePredicates ((phiVals p incoming).map Prod.fst)
  else S.currentPathCondition

/-- A value under a condition. -/
def guardedValue (guard : Option Expr) (value other : Expr) : Expr :=
  match guard with
  | none => value
  | some guard => .ite guard value other

def computePhiForVar (S : StatementCodegen) (p : Place) (incoming : List IncomingEdge) :
    Option (Expr × StatementCodegen) :=
  match phiVals p incoming with
  | [] => none
  | first :: rest =>
    if !missingEdge p incoming && rest.all (fun v => v.2 == first.2) then some (first.2, S)
    else
      let phi := var f config (.ssa p (S.ssaVersion p)) first.2.sort
      let chain := iteChain first rest
      let value := guardedValue (S.phiGuard p incoming) chain (var f config (.init p) chain.sort)
      some (phi, (S.nextSsaVersion p).2.assert (.eq phi value))

/-- The places that some edge has a value for, in the order of their names. -/
def phiPlaces (incoming : List IncomingEdge) : List Place :=
  ((incoming.flatMap fun edge => edge.env.map Prod.fst).dedup).mergeSort
    fun p q => decide (ssaBaseName f.name p ≤ ssaBaseName f.name q)

def mergeEnvs (incoming : List IncomingEdge) (S : StatementCodegen) :
    List Place → Env × StatementCodegen
  | [] => ([], S)
  | p :: places =>
    match S.computePhiForVar f config p incoming with
    | none => mergeEnvs incoming S places
    | some (e, S) =>
      let (env, S) := mergeEnvs incoming S places
      ((p, e) :: env, S)

def initializeBlockEntryEnv (S : StatementCodegen) (bb : ℕ) : StatementCodegen :=
  if bb = 0 then { S with currentPathCondition := none, currentEnv := [] }
  else
    let incoming := S.incomingEdges bb
    let S := { S with
      currentPathCondition := (S.blockPathConditions bb).join
      incomingEdges := Function.update S.incomingEdges bb [] }
    match incoming with
    | [] => { S with currentEnv := [] }
    | [edge] => { S with currentEnv := edge.env }
    | _ =>
      let (env, S) := mergeEnvs f config incoming S (phiPlaces f incoming)
      { S with currentEnv := env }

/-- The disjunction of the conditions to get to a block. -/
def disjGuards : Option (Option Expr) → Option Expr → Option Expr
  | none, new => new
  | some (some e), some n => some (.or [e, n])
  | some _, _ => none

def updateBlockPathCondition (S : StatementCodegen) (bb : ℕ) (branchCond : Option Expr) :
    StatementCodegen :=
  { S with
    blockPathConditions := Function.update S.blockPathConditions bb
      (some (disjGuards (S.blockPathConditions bb) (conjGuards S.currentPathCondition branchCond))) }

def recordOutgoingEdge (S : StatementCodegen) (target : ℕ) (edgeCond : Option Expr) :
    StatementCodegen :=
  { S with
    incomingEdges := Function.update S.incomingEdges target
      (S.incomingEdges target ++
        [IncomingEdge.mk (conjGuards S.currentPathCondition edgeCond) S.currentEnv]) }
    |>.updateBlockPathCondition target edgeCond

/-! ### Functions -/

def codegenBlock (S : StatementCodegen) (bb : ℕ) : StatementCodegen :=
  match f.body.blocks[bb]? with
  | none => S
  | some block =>
    let S := S.initializeBlockEntryEnv f config bb
    let S := block.statements.foldl (codegenStatement f config) S
    let (successors, S) := S.codegenTerminatorWithSuccessors f config bb block.terminator.kind
    successors.foldl (fun S succ => S.recordOutgoingEdge succ.1 succ.2) S

def codegenBlocks (S : StatementCodegen) (order : List ℕ) : StatementCodegen :=
  order.foldl (codegenBlock f config) S

/-- `emit_assume_final_flag`. -/
def emitAssumeFinalFlag (S : StatementCodegen) : StatementCodegen :=
  match S.assumptionContext with
  | none => S
  | some ctx => S.assert (.eq (var f config .assumeFinal .bool) ctx)

/-- `Iterator::reduce` by disjunction, `false` where there is no check. -/
def anyViolation : List Expr → Expr
  | [] => .boolConst false
  | v :: vs => vs.foldl (fun acc v => .or [acc, v]) v

def finalizeCounterexampleQuery (S : StatementCodegen) : StatementCodegen :=
  let S := S.emitAssumeFinalFlag f config
  S.assert (anyViolation S.propertyViolations)

end StatementCodegen

end TrustMc.Bmc
