import TrustMc.ConstTrip.Values
import TrustMc.LoopUnroll.Unroll

/-!
# The trip-count simulator

The model of `loop_unroll/const_trip.rs`. A body is simulated from its first block with a store of
the values that can be represented; at every header of a natural loop the simulation records how
many copies of the loop an unrolling needs for what it has seen. The greatest of these records that
are complete and not above a cap is the unwind depth that is derived.

A `HashMap` is a function. Of MIR data only what is read is kept.
-/

namespace TrustMc

namespace ConstTrip

open Machine
open Arithmetic (BinOp UnOp)
open LoopUnroll (Mir TerminatorKind Body Cfg findLoopHeaders candidates naturalLoop sortDedup)

/-! ### MIR data -/

/-- Types, as far as they are told apart. -/
inductive Ty
  | bool
  | int (t : IntTy)
  | other

/-- What reading a constant's allocation as a Boolean, as an integer and as an unsigned integer
gives. -/
structure Allocation where
  readBool : Option Bool
  readInt : Option ℤ
  readUint : Option ℕ

/-- A constant; one that is not evaluated has no allocation. -/
structure ConstOperand where
  ty : Ty
  alloc : Option Allocation

inductive ProjectionElem
  | deref
  | field (idx : ℕ)
  | other
  deriving DecidableEq

structure Place where
  «local» : ℕ
  projection : List ProjectionElem

inductive Operand
  | copy (place : Place)
  | move (place : Place)
  | constant (c : ConstOperand)

inductive CastKind
  | intToInt
  | other

inductive AdtKind
  | struct
  | enum
  | union
  deriving DecidableEq

inductive AggregateKind
  | tuple
  | adt (kind : AdtKind) (activeField : Option ℕ)
  | other

inductive Rvalue
  | use (op : Operand)
  | binaryOp (op : BinOp) (a b : Operand)
  | checkedBinaryOp (op : BinOp) (a b : Operand)
  | unaryOp (op : UnOp) (a : Operand)
  | cast (kind : CastKind) (op : Operand) (ty : Ty)
  | aggregate (kind : AggregateKind) (ops : List Operand)
  | ref (place : Place)
  | addressOf (place : Place)
  | copyForDeref (place : Place)
  | other

inductive StatementKind
  | assign (place : Place) (rvalue : Rvalue)
  | setDiscriminant (place : Place)
  | deinit (place : Place)
  | storageLive (l : ℕ)
  | storageDead (l : ℕ)
  | intrinsic
  /-- Statements that do nothing when they are executed. -/
  | nop

abbrev mir : Mir where
  Operand := Operand
  Place := Place
  AssertMessage := Unit
  InlineAsm := Unit
  Statement := StatementKind
  Span := Unit

/-- A body and its locals. -/
structure MirBody where
  body : Body mir
  /-- `body.locals().len()`. -/
  localCount : ℕ
  /-- The locals whose type is a union. -/
  isUnion : ℕ → Bool

/-! ### The store -/

/-- A local, optionally one field. -/
abbrev Slot : Type := ℕ × Option ℕ

/-- `place_slot`. -/
def placeSlot (place : Place) : Option Slot :=
  match place.projection with
  | [] => some (place.local, none)
  | [.field idx] => some (place.local, some idx)
  | _ => none

/-- The abstract store; what is absent is not known. -/
abbrev Store : Type := Slot → Option Val

namespace Store

/-- `Store::get`. -/
def get (vals : Store) (place : Place) (poisoned : ℕ → Bool) : Option Val :=
  (placeSlot place).bind fun slot => if poisoned slot.1 then none else vals slot

/-- `kill_local`. -/
def killLocal (vals : Store) (l : ℕ) : Store := fun slot => if slot.1 = l then none else vals slot

/-- `insert`, or `remove` of what is not known. -/
def set (vals : Store) (slot : Slot) (val : Option Val) : Store := Function.update vals slot val

/-- `Store::write`. -/
def write (vals : Store) (place : Place) (val : Option Val) : Store :=
  match placeSlot place with
  | some (l, none) => (vals.killLocal l).set (l, none) val
  | some (l, some idx) => (vals.set (l, none) none).set (l, some idx) val
  | none => vals.killLocal place.local

end Store

/-- `aggregate_is_field_addressable`. -/
def aggregateIsFieldAddressable : AggregateKind → Bool
  | .tuple => true
  | .adt kind activeField => kind == .struct && activeField.isNone
  | .other => false

/-! ### Locals with an address -/

/-- The statement makes the values of the local untrusted. -/
def poisons (l : ℕ) : StatementKind → Bool
  | .assign dest rvalue =>
    (dest.local == l && dest.projection.contains .deref) ||
      match rvalue with
      | .ref place | .addressOf place | .copyForDeref place => place.local == l
      | _ => false
  | _ => false

/-- `poisoned_locals`; a local out of range counts as poisoned. -/
def poisonedLocals (b : MirBody) (l : ℕ) : Bool :=
  decide (b.localCount ≤ l) || b.body.blocks.any fun block => block.statements.any (poisons l)

/-! ### Statements -/

/-- `const_val`. -/
def constVal (c : ConstOperand) : Option Val :=
  c.alloc.bind fun alloc =>
    match c.ty with
    | .bool => alloc.readBool.map .bool
    | .int t =>
      if t.signed then alloc.readInt.map fun v => .int t (t.wrap v)
      else alloc.readUint.map fun v : ℕ => .int t (t.wrap v)
    | .other => none

section Simulator

variable (poisoned : ℕ → Bool) (store : Store)

/-- `Simulator::operand`. -/
def operand : Operand → Option Val
  | .constant c => constVal c
  | .copy place | .move place => store.get place poisoned

/-- `Simulator::rvalue`. -/
def rvalue : Rvalue → Option Val
  | .use op => operand poisoned store op
  | .binaryOp op a b => do evalBinop op (← operand poisoned store a) (← operand poisoned store b)
  | .unaryOp op a => (operand poisoned store a).bind (evalUnop op)
  | .cast .intToInt op (.int t) => (operand poisoned store op).map (evalCast t)
  | _ => none

/-- The fields of an aggregate, from the field `idx` on. Its operands are evaluated in turn, in the
store as it is then. -/
def insertFields (l : ℕ) : ℕ → List Operand → Store → Store
  | _, [], store => store
  | idx, op :: ops, store =>
    insertFields l (idx + 1) ops <|
      match operand poisoned store op with
      | some v => store.set (l, some idx) (some v)
      | none => store

/-- `Simulator::assign`. -/
def assign (place : Place) (rv : Rvalue) : Store :=
  match rv, placeSlot place with
  | .checkedBinaryOp op a b, some (l, none) =>
    let value := do evalBinop op (← operand poisoned store a) (← operand poisoned store b)
    match value with
    | some v =>
      ((store.killLocal l).set (l, some 0) (some v)).set (l, some 1) (some (.bool false))
    | none => store.killLocal l
  | .aggregate kind ops, some (l, none) =>
    if aggregateIsFieldAddressable kind then insertFields poisoned l 0 ops (store.killLocal l)
    else store.write place (rvalue poisoned store rv)
  | rv, _ => store.write place (rvalue poisoned store rv)

/-- `Simulator::statement`. -/
def statement (stmt : StatementKind) : Store :=
  match stmt with
  | .assign place rv => assign poisoned store place rv
  | .setDiscriminant place => store.killLocal place.local
  | .storageLive l | .storageDead l => store.killLocal l
  | .deinit _ | .intrinsic | .nop => store

/-! ### Terminators -/

/-- Where the simulation goes on, and with which store. -/
inductive Next
  | goto (bb : ℕ) (store : Store)
  | completed
  | bailed

/-- The first case that matches, after it is truncated to the width. -/
def switchTarget (v : Val) (branches : List (ℕ × ℕ)) (otherwise : ℕ) : ℕ :=
  let (bits, width) := v.switchBits
  ((branches.find? fun p => truncate p.1 width == bits).map Prod.snd).getD otherwise

/-- The end of a block. -/
def terminator : TerminatorKind mir → Next
  | .goto target => .goto target store
  | .switchInt discr branches otherwise =>
    match operand poisoned store discr with
    | none => .bailed
    | some val => .goto (switchTarget val branches otherwise) store
  | .assert _ _ _ target _ => .goto target store
  | .drop place target _ => .goto target (store.killLocal place.local)
  | .call _ _ destination target _ =>
    match target with
    | some target => .goto target (store.write destination none)
    | none => .completed
  | .return | .unreachable | .resume | .abort => .completed
  | .inlineAsm _ _ _ => .bailed

end Simulator

/-! ### The simulation -/

def MAX_SIM_STEPS : ℕ := 200000

def CONST_TRIP_DEPTH_CAP : ℕ := 64

/-- The membership tests of the loops, by header. -/
abbrev Loops : Type := ℕ → Option (ℕ → Bool)

/-- What the simulation keeps; a block that is about to be executed. -/
structure SimState where
  bb : ℕ
  prev : Option ℕ
  store : Store
  maxRun : ℕ → Option ℕ
  curRun : ℕ → Option ℕ

/-- `max_run.entry(bb).or_insert(0)`, raised to a value. -/
def raise (maxRun : ℕ → Option ℕ) (bb n : ℕ) : ℕ → Option ℕ :=
  Function.update maxRun bb (some (max ((maxRun bb).getD 0) n))

/-- A header arrival. -/
def arrive (loops : Loops) (st : SimState) : SimState :=
  match loops st.bb with
  | none => st
  | some inLoop =>
    let run := if st.prev.any inLoop then (st.curRun st.bb).getD 0 + 1 else 0
    { st with
      curRun := Function.update st.curRun st.bb (some run)
      maxRun := raise st.maxRun st.bb run }

/-- An edge that leaves a header for a block of its loop. -/
def depart (loops : Loops) (st : SimState) (next : ℕ) : ℕ → Option ℕ :=
  match loops st.bb with
  | none => st.maxRun
  | some inLoop =>
    if inLoop next then raise st.maxRun st.bb ((st.curRun st.bb).getD 0 + 1) else st.maxRun

inductive SimOutcome
  | completed
  /-- The loops the simulation was inside. -/
  | bailed (inside : ℕ → Bool)

structure TripCounts where
  maxRun : ℕ → Option ℕ
  outcome : SimOutcome

/-- `inside_now`. -/
def insideNow (loops : Loops) (bb header : ℕ) : Bool := (loops header).any fun inLoop => inLoop bb

/-- One block: the next state, or the end. -/
def simStep (b : MirBody) (loops : Loops) (st : SimState) : SimState ⊕ TripCounts :=
  let st := arrive loops st
  match b.body.blocks[st.bb]? with
  | none => .inr ⟨st.maxRun, .bailed (insideNow loops st.bb)⟩
  | some block =>
    let poisoned := poisonedLocals b
    let store := block.statements.foldl (statement poisoned) st.store
    match terminator poisoned store block.terminator.kind with
    | .completed => .inr ⟨st.maxRun, .completed⟩
    | .bailed => .inr ⟨st.maxRun, .bailed (insideNow loops st.bb)⟩
    | .goto next store =>
      if b.body.blocks.length ≤ next then .inr ⟨st.maxRun, .bailed (insideNow loops st.bb)⟩
      else
        .inl ⟨next, some st.bb, store, depart loops st next, st.curRun⟩

/-- The rounds that are left. -/
def simRounds (b : MirBody) (loops : Loops) : ℕ → SimState → TripCounts
  | 0, st => ⟨st.maxRun, .bailed (insideNow loops st.bb)⟩
  | left + 1, st =>
    match simStep b loops st with
    | .inl st => simRounds b loops left st
    | .inr counts => counts

/-- Before the first block. -/
def SimState.start : SimState := ⟨0, none, fun _ => none, fun _ => none, fun _ => none⟩

/-- `simulate`. -/
def simulate (b : MirBody) (loops : Loops) : TripCounts := simRounds b loops MAX_SIM_STEPS .start

/-! ### The depth -/

/-- The natural loops of the headers. -/
def loopsOf (cfg : Cfg) (headers : ℕ → List ℕ) : Loops := fun header =>
  if headers header = [] then none
  else some (naturalLoop cfg header (sortDedup (headers header))).inLoop

/-- `incomplete.contains(header)`. -/
def SimOutcome.incomplete : SimOutcome → ℕ → Bool
  | .completed, _ => false
  | .bailed inside, header => inside header

/-- What a header's count is worth. -/
def TripCounts.derivedRun (counts : TripCounts) (header : ℕ) : Option ℕ :=
  (counts.maxRun header).bind fun run =>
    if counts.outcome.incomplete header || run == 0 then none
    else if CONST_TRIP_DEPTH_CAP < run then none
    else some run

/-- `derive_const_trip_unroll_depth`. -/
def deriveConstTripUnrollDepth (b : MirBody) : Option ℕ :=
  let cfg := Cfg.fromBody b.body
  if cfg.isAcyclic then none
  else
    match findLoopHeaders cfg with
    | .error _ => none
    | .ok headers =>
      if candidates cfg headers = [] then none
      else
        let counts := simulate b (loopsOf cfg headers)
        ((List.range cfg.size).filterMap counts.derivedRun).foldl
          (fun derived run => some (max (derived.getD 0) run)) none

end ConstTrip

end TrustMc
