import TrustMc.Arithmetic.Values
import TrustMc.LoopUnroll.Cfg

/-!
# Functions on scalars

The functions that the bounded encoding is modelled on, and what they do. A local is a Boolean,
an integer or the pair of a checked operation; a place is a local or a field of a pair. The
callees are the hooks of the library.

* `Function.stepBlock` runs one block. `Stop` says how a run ends: a check failed, an assumption
  does not hold, the function returned, or the MIR was malformed.
* `Function.Reachable` are the blocks with their stores that runs get to, whatever the values are
  that `kani::any` yields; `Function.Fails` says that some run fails a check.

Shifts, the three-way comparison and pointer offsets are left out.
-/

namespace Machine

deriving instance DecidableEq for IntTy

end Machine

namespace TrustMc.Bmc

open Machine LoopUnroll Arithmetic

/-! ### Values -/

inductive ScalarTy
  | bool
  | int (t : IntTy)
  deriving DecidableEq

inductive Scalar
  | bool (b : Bool)
  | int (t : IntTy) (v : BitVec t.width)

def Scalar.ty : Scalar → ScalarTy
  | bool _ => .bool
  | int t _ => .int t

inductive LocalTy
  | scalar (t : ScalarTy)
  /-- The result of a checked operation, and whether it overflowed. -/
  | checkedPair (t : IntTy)
  deriving DecidableEq

inductive Place
  | bare (l : ℕ)
  | field (l i : ℕ)
  deriving DecidableEq

/-- The hooks of the library that are modelled. -/
inductive Hook
  | anyRaw
  | assume
  | assert
  | check
  | safetyCheck
  | safetyCheckNoAssume
  | panic
  | panicStub
  | unsupportedCheck
  | initContracts
  deriving DecidableEq

/-- Copies and moves are read alike. -/
inductive Operand
  | place (p : Place)
  | const (s : Scalar)
  | fnDef (h : Hook)

inductive Rvalue
  | use (o : Operand)
  | binaryOp (op : BinOp) (l r : Operand)
  | checkedBinaryOp (op : BinOp) (l r : Operand)
  | unaryOp (op : UnOp) (o : Operand)
  | cast (o : Operand) (t : IntTy)

inductive Statement
  | assign (lhs : ℕ) (rhs : Rvalue)
  /-- Storage markers and the other statements without effect. -/
  | nop

inductive AssertMessage
  | boundsCheck
  | divisionByZero
  | remainderByZero
  | overflow (op : BinOp) (l r : Operand)
  | overflowNeg
  | nullPointerDereference
  | misalignedPointerDereference
  | invalidEnumConstruction
  | resumedAfterReturn
  | resumedAfterDrop
  | resumedAfterPanic

abbrev scalarMir : Mir where
  Operand := Operand
  Place := Place
  AssertMessage := AssertMessage
  InlineAsm := Unit
  Statement := Statement
  Span := Unit

structure Function where
  name : String
  locals : List LocalTy
  body : Body scalarMir

/-! ### Runs -/

/-- How a run ends. -/
inductive Stop
  | failed
  | blocked
  | returned
  /-- A place is read before it is written, or the MIR is malformed in another way. -/
  | wrong
  deriving DecidableEq

abbrev Store : Type := Place → Option Scalar

/-- The value of `kani::any`, at each type. -/
structure Input where
  bool : Bool
  int : (t : IntTy) → BitVec t.width

def Input.at (input : Input) : ScalarTy → Scalar
  | .bool => .bool input.bool
  | .int t => .int t (input.int t)

def evalOperand (σ : Store) : Operand → Except Stop Scalar
  | .place p =>
    match σ p with
    | some s => .ok s
    | none => .error .wrong
  | .const s => .ok s
  | .fnDef _ => .error .wrong

def evalBool (σ : Store) (o : Operand) : Except Stop Bool :=
  match evalOperand σ o with
  | .ok (.bool b) => .ok b
  | .ok (.int ..) => .error .wrong
  | .error stop => .error stop

/-- The operators on Booleans. -/
def evalBoolOp (op : BinOp) (a b : Bool) : Except Stop Scalar :=
  match op with
  | .bitAnd => .ok (.bool (a && b))
  | .bitOr => .ok (.bool (a || b))
  | .bitXor => .ok (.bool (a ^^ b))
  | .eq => .ok (.bool (a == b))
  | .ne => .ok (.bool (a != b))
  | _ => .error .wrong

/-- The operators on integers; undefined behaviour is a failed check. -/
def evalIntOp (op : BinOp) (t : IntTy) (x y : ℤ) : Except Stop Scalar :=
  match op.mir t x y with
  | some (.int v) => .ok (.int t v)
  | some (.bool b) => .ok (.bool b)
  | some (.ordering _) => .error .wrong
  | none => .error .failed

def evalBinaryOp (op : BinOp) : Scalar → Scalar → Except Stop Scalar
  | .int t x, .int u y =>
    if u = t then evalIntOp op t (t.read x) (u.read y) else .error .wrong
  | .bool a, .bool b => evalBoolOp op a b
  | _, _ => .error .wrong

/-- Negating the smallest value is a failed check. -/
def evalUnaryOp (op : UnOp) : Scalar → Except Stop Scalar
  | .bool b => if op = .not then .ok (.bool !b) else .error .wrong
  | .int t x =>
    match op with
    | .not => .ok (.int t (~~~x))
    | .neg =>
      if t.signed = false then .error .wrong
      else if t.InRange (-t.read x) then .ok (.int t (t.wrap (-t.read x)))
      else .error .failed
    | .ptrMetadata => .error .wrong

def evalCast (t : IntTy) : Scalar → Scalar
  | .bool b => .int t (t.wrap (if b then 1 else 0))
  | .int u x => .int t (t.wrap (u.read x))

def evalRvalue (σ : Store) : Rvalue → Except Stop Scalar
  | .use o => evalOperand σ o
  | .binaryOp op l r => do evalBinaryOp op (← evalOperand σ l) (← evalOperand σ r)
  | .checkedBinaryOp .. => .error .wrong
  | .unaryOp op o => do evalUnaryOp op (← evalOperand σ o)
  | .cast o t => do return evalCast t (← evalOperand σ o)

/-- The exact result of an operator. -/
def exact (op : BinOp) (x y : ℤ) : Option ℤ :=
  match op with
  | .add | .addUnchecked => some (x + y)
  | .sub | .subUnchecked => some (x - y)
  | .mul | .mulUnchecked => some (x * y)
  -- the remainder overflows with the quotient
  | .div | .rem => some (x.tdiv y)
  | _ => none

/-- The type of two operands and the exact result of an operator on them. -/
def evalExact (σ : Store) (op : BinOp) (l r : Operand) : Except Stop (IntTy × ℤ) :=
  match evalOperand σ l, evalOperand σ r with
  | .ok (.int t x), .ok (.int u y) =>
    match exact op (t.read x) (u.read y) with
    | some z => if u = t then .ok (t, z) else .error .wrong
    | none => .error .wrong
  | _, _ => .error .wrong

def Store.set (σ : Store) (p : Place) (s : Scalar) : Store := Function.update σ p (some s)

def execStatement (σ : Store) : Statement → Except Stop Store
  | .assign l (.checkedBinaryOp op a b) => do
    let (t, z) ← evalExact σ op a b
    return (σ.set (.field l 0) (.int t (t.wrap z))).set (.field l 1)
      (.bool (decide (¬ t.InRange z)))
  | .assign l rhs => do return σ.set (.bare l) (← evalRvalue σ rhs)
  | .nop => .ok σ

/-- The target of a switch; the bits of the operand are compared. -/
def switchTarget (s : Scalar) (branches : List (ℕ × ℕ)) (otherwise : ℕ) : ℕ :=
  match s with
  | .bool b => ((branches.find? fun c => c.1 == b.toNat).map Prod.snd).getD otherwise
  | .int t v =>
    ((branches.find? fun c => BitVec.ofNat t.width c.1 == v).map Prod.snd).getD otherwise

/-- Goes on where a condition has the expected value, and stops elsewhere. -/
def require (stop : Stop) (ok : Bool) (σ : Store) : Except Stop Store :=
  if ok then .ok σ else .error stop

namespace Function

variable (f : Function)

def localTy (l : ℕ) : Option LocalTy := f.locals[l]?

def placeTy : Place → Option ScalarTy
  | .bare l =>
    match f.localTy l with
    | some (.scalar t) => some t
    | _ => none
  | .field l i =>
    match f.localTy l, i with
    | some (.checkedPair t), 0 => some (.int t)
    | some (.checkedPair _), 1 => some .bool
    | _, _ => none

/-- The effect of a hook. -/
def execHook (input : Input) (σ : Store) (hook : Hook) (args : List Operand) (destination : Place) :
    Except Stop Store :=
  match hook, args with
  | .anyRaw, _ =>
    match f.placeTy destination with
    | some t => .ok (σ.set destination (input.at t))
    | none => .error .wrong
  | .assume, cond :: _ => do require .blocked (← evalBool σ cond) σ
  | .assert, cond :: _ | .check, cond :: _ | .safetyCheck, cond :: _
  | .safetyCheckNoAssume, cond :: _ => do require .failed (← evalBool σ cond) σ
  | .panic, _ | .panicStub, _ | .unsupportedCheck, _ => .error .failed
  | .initContracts, _ => .ok σ
  | _, [] => .error .wrong

/-- The block that comes next. -/
def execTerminator (input : Input) (σ : Store) :
    TerminatorKind scalarMir → Except Stop (ℕ × Store)
  | .goto target | .drop _ target _ => .ok (target, σ)
  | .switchInt discr branches otherwise => do
    return (switchTarget (← evalOperand σ discr) branches otherwise, σ)
  | .return | .resume | .abort => .error .returned
  | .unreachable => .error .failed
  | .assert cond expected msg target _ => do
    let ok := (← evalBool σ cond) == expected
    match msg with
    | .overflow op l r =>
      -- the condition is that of the operation
      let (t, z) ← evalExact σ op l r
      if ok = decide (t.InRange z) then return (target, ← require .failed ok σ)
      else .error .wrong
    | _ => return (target, ← require .failed ok σ)
  | .call (.fnDef hook) args destination target _ => do
    let σ ← f.execHook input σ hook args destination
    match target with
    | some target => .ok (target, σ)
    | none => .error .returned
  | .call .. | .inlineAsm .. => .error .wrong

def stepBlock (input : Input) (bb : ℕ) (σ : Store) : Except Stop (ℕ × Store) :=
  match f.body.blocks[bb]? with
  | some block => do
    f.execTerminator input (← block.statements.foldlM execStatement σ) block.terminator.kind
  | none => .error .wrong

/-- The blocks that runs get to, and their stores. -/
inductive Reachable : ℕ → Store → Prop
  | start : Reachable 0 fun _ => none
  | step {bb bb' : ℕ} {σ σ' : Store} (input : Input) (h : Reachable bb σ)
      (hstep : f.stepBlock input bb σ = .ok (bb', σ')) : Reachable bb' σ'

/-- A run ends this way. -/
def Ends (stop : Stop) : Prop :=
  ∃ bb σ input, f.Reachable bb σ ∧ f.stepBlock input bb σ = .error stop

/-- Some run fails a check. -/
def Fails : Prop := f.Ends .failed

end Function

end TrustMc.Bmc
