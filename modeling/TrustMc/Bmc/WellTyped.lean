import TrustMc.Bmc.Encode
import TrustMc.LoopUnroll.Projection

/-!
# Well-formed functions

What the compiler promises of MIR, on the functions of the model.

* `Function.WellTyped`: operators, switches, assertions and hooks are used at their types.
* `Function.DefinitelyInitialized`: on every path, a place is assigned before it is read.
* `Function.StoreTyped`: the values of a store are of the types of the places.
-/

namespace TrustMc.Bmc

open Machine LoopUnroll Arithmetic

/-! ### Types -/

namespace Function

variable (f : Function)

def typedRvalue : Rvalue → Bool
  | .use o | .cast o _ => (f.operandTy o).isSome
  | .binaryOp op l r =>
    match f.operandTy l with
    | some t => f.operandTy r == some t && opOn op t
    | none => false
  | .unaryOp op o =>
    match f.operandTy o with
    | some .bool => op == .not
    | some (.int t) => op == .not || op == .neg && t.signed
    | none => false
  | .checkedBinaryOp .. => false

def typedStatement : Statement → Bool
  | .assign l (.checkedBinaryOp op a b) =>
    match f.localTy l with
    | some (.checkedPair t) =>
      f.operandTy a == some (.int t) && f.operandTy b == some (.int t) &&
        (op == .add || op == .sub || op == .mul)
    | _ => false
  | .assign l rhs =>
    match f.localTy l with
    | some (.scalar t) => f.rvalueTy rhs == some t && f.typedRvalue rhs
    | _ => false
  | .nop => true

/-- The bits that the values of a switch are compared by. -/
def switchBits : ScalarTy → ℕ → ℕ
  | .bool, v => v
  | .int t, v => v % 2 ^ t.width

def typedMessage : AssertMessage → Bool
  | .overflow op l r =>
    match f.operandTy l with
    | some (.int t) =>
      f.operandTy r == some (.int t) &&
        (op == .add || op == .sub || op == .mul || isDivision op && t.signed)
    | _ => false
  | _ => true

def typedHook (hook : Hook) (args : List Operand) (destination : Place) : Bool :=
  match hook with
  | .anyRaw =>
    match destination with
    | .bare l =>
      match f.localTy l with
      | some (.scalar _) => true
      | _ => false
    | .field .. => false
  | .assume | .assert | .check | .safetyCheck | .safetyCheckNoAssume =>
    args.head?.all fun cond => f.operandTy cond == some .bool
  | _ => true

def typedTerminator : TerminatorKind scalarMir → Bool
  | .switchInt discr branches _ =>
    match f.operandTy discr with
    | some t => decide (branches.map fun b => switchBits t b.1).Nodup
    | none => false
  | .assert cond _ msg _ _ => f.operandTy cond == some .bool && f.typedMessage msg
  | .call (.fnDef hook) args destination _ _ => f.typedHook hook args destination
  | .call .. | .inlineAsm .. => false
  | _ => true

def WellTyped : Prop :=
  ∀ block ∈ f.body.blocks, (∀ s ∈ block.statements, f.typedStatement s = true) ∧
    f.typedTerminator block.terminator.kind = true

instance : Decidable f.WellTyped := inferInstanceAs (Decidable (∀ _ ∈ _, _))

end Function

/-! ### Initialisation -/

def Operand.reads : Operand → List Place
  | .place p => [p]
  | .const _ | .fnDef _ => []

def Rvalue.reads : Rvalue → List Place
  | .use o | .unaryOp _ o | .cast o _ => o.reads
  | .binaryOp _ l r | .checkedBinaryOp _ l r => l.reads ++ r.reads

def Statement.reads : Statement → List Place
  | .assign _ rhs => rhs.reads
  | .nop => []

def Statement.writes : Statement → List Place
  | .assign l (.checkedBinaryOp ..) => [.field l 0, .field l 1]
  | .assign l _ => [.bare l]
  | .nop => []

def AssertMessage.reads : AssertMessage → List Place
  | .overflow _ l r => l.reads ++ r.reads
  | _ => []

/-- The places that a terminator reads. -/
def termReads : TerminatorKind scalarMir → List Place
  | .switchInt discr _ _ => discr.reads
  | .assert cond _ msg _ _ => msg.reads ++ cond.reads
  | .call (.fnDef .anyRaw) _ _ _ _ => []
  | .call _ args _ _ _ => args.flatMap Operand.reads
  | _ => []

/-- The places that a terminator writes. -/
def termWrites : TerminatorKind scalarMir → List Place
  | .call (.fnDef .anyRaw) _ destination _ _ => [destination]
  | _ => []

/-- The places that are assigned after the statements. -/
def assignedAfter (A : Place → Prop) (stmts : List Statement) (p : Place) : Prop :=
  A p ∨ ∃ s ∈ stmts, p ∈ s.writes

/-- Every statement reads what is assigned before it. -/
def ReadsWithin (A : Place → Prop) : List Statement → Prop
  | [] => True
  | s :: stmts => (∀ p ∈ s.reads, A p) ∧ ReadsWithin (assignedAfter A [s]) stmts

namespace Function

variable (f : Function)

/-- The places that are assigned along a path to a block. -/
inductive Assigns : ℕ → (Place → Prop) → Prop
  | start : Assigns 0 fun _ => False
  | step {bb bb' : ℕ} {A : Place → Prop} {block : BasicBlock scalarMir} (h : Assigns bb A)
      (hblock : f.body.blocks[bb]? = some block) (htarget : bb' ∈ block.terminator.kind.targets) :
      Assigns bb' fun p =>
        assignedAfter A block.statements p ∨ p ∈ termWrites block.terminator.kind

/-- **Definite initialisation**: whatever path leads to a block, the places that it reads are
assigned. -/
def DefinitelyInitialized : Prop :=
  ∀ bb A block, f.Assigns bb A → f.body.blocks[bb]? = some block →
    ReadsWithin A block.statements ∧
      ∀ p ∈ termReads block.terminator.kind, assignedAfter A block.statements p

/-! ### Typed stores -/

/-- The values of a store are of the types of their places. -/
def StoreTyped (σ : Store) : Prop := ∀ p s, σ p = some s → f.placeTy p = some s.ty

variable {f} {σ σ' : Store} {s : Scalar} {p : Place} {o : Operand} {t : ScalarTy}

theorem StoreTyped.empty : f.StoreTyped fun _ => none := fun p s h => by cases h

theorem StoreTyped.set (h : f.StoreTyped σ) (hp : f.placeTy p = some s.ty) :
    f.StoreTyped (σ.set p s) := by
  intro q s' hq
  rcases eq_or_ne q p with rfl | hne
  · obtain rfl : s = s' := by simpa [Store.set] using hq
    exact hp
  · exact h q s' (by simpa [Store.set, hne] using hq)

theorem StoreTyped.operand (h : f.StoreTyped σ) (ho : evalOperand σ o = .ok s) :
    f.operandTy o = some s.ty := by
  cases o with
  | place p =>
    simp only [evalOperand] at ho
    split at ho
    · rename_i s' hp
      cases ho
      exact h p s hp
    · cases ho
  | const c =>
    cases ho
    rfl
  | fnDef hook => cases ho

/-- The type of a result, where there is one. -/
theorem ty_evalBinaryOp {op : BinOp} {a b c : Scalar} (hop : opOn op a.ty = true)
    (h : evalBinaryOp op a b = .ok c) : c.ty = resultTy op a.ty := by
  cases a with
  | bool v =>
    cases b with
    | int u y => cases h
    | bool w =>
      cases op <;> simp only [evalBinaryOp, evalBoolOp, reduceCtorEq, Except.ok.injEq] at h <;>
        subst h <;> simp [resultTy, Scalar.ty]
  | int t x =>
    cases b with
    | bool w => cases h
    | int u y =>
      simp only [evalBinaryOp] at h
      split_ifs at h
      unfold evalIntOp at h
      split at h
      case h_3 => cases h
      case h_4 => cases h
      case h_1 v hv =>
        cases h
        cases op <;> simp only [BinOp.mir, unchecked, Option.ite_none_left_eq_some,
          Option.ite_none_right_eq_some, Option.some.injEq, reduceCtorEq] at hv <;>
          simp [resultTy, Scalar.ty]
      case h_2 v hv =>
        cases h
        cases op <;> simp only [BinOp.mir, unchecked, Option.ite_none_left_eq_some,
          Option.ite_none_right_eq_some, Option.some.injEq, reduceCtorEq, and_false] at hv <;>
          simp [resultTy, Scalar.ty]

theorem ty_evalUnaryOp {op : UnOp} {a c : Scalar} (h : evalUnaryOp op a = .ok c) :
    c.ty = a.ty := by
  cases a with
  | bool v =>
    simp only [evalUnaryOp] at h
    split_ifs at h
    cases h
    rfl
  | int t x =>
    cases op <;> simp only [evalUnaryOp] at h
    · cases h
      rfl
    · split_ifs at h
      cases h
      rfl
    · cases h

theorem ty_evalCast (t : IntTy) (s : Scalar) : (evalCast t s).ty = .int t := by
  cases s <;> rfl

theorem StoreTyped.rvalue (h : f.StoreTyped σ) {rhs : Rvalue} (htyped : f.typedRvalue rhs = true)
    (hs : evalRvalue σ rhs = .ok s) : f.rvalueTy rhs = some s.ty := by
  cases rhs with
  | use o => exact h.operand hs
  | cast o t =>
    cases ho : evalOperand σ o with
    | error stop => simp [evalRvalue, ho, bind, Except.bind] at hs
    | ok a =>
      simp only [evalRvalue, ho, bind, Except.bind, pure, Except.pure, Except.ok.injEq] at hs
      rw [← hs, rvalueTy, ty_evalCast]
  | checkedBinaryOp op l r => cases hs
  | unaryOp op o =>
    cases ho : evalOperand σ o with
    | error stop => simp [evalRvalue, ho, bind, Except.bind] at hs
    | ok a =>
      simp only [evalRvalue, ho, bind, Except.bind] at hs
      rw [rvalueTy, h.operand ho, ty_evalUnaryOp hs]
  | binaryOp op l r =>
    cases ho : evalOperand σ l with
    | error stop => simp [evalRvalue, ho, bind, Except.bind] at hs
    | ok a =>
      cases hr : evalOperand σ r with
      | error stop => simp [evalRvalue, ho, hr, bind, Except.bind] at hs
      | ok b =>
        simp only [evalRvalue, ho, hr, bind, Except.bind] at hs
        have hop : opOn op a.ty = true := by
          simp only [typedRvalue, h.operand ho, Bool.and_eq_true] at htyped
          exact htyped.2
        rw [rvalueTy, h.operand ho, Option.map_some, ty_evalBinaryOp hop hs]

theorem placeTy_bare {l : ℕ} (h : f.localTy l = some (.scalar t)) :
    f.placeTy (.bare l) = some t := by
  simp [placeTy, h]

theorem placeTy_field_zero {l : ℕ} {i : IntTy} (h : f.localTy l = some (.checkedPair i)) :
    f.placeTy (.field l 0) = some (.int i) := by
  simp [placeTy, h]

theorem placeTy_field_one {l : ℕ} {i : IntTy} (h : f.localTy l = some (.checkedPair i)) :
    f.placeTy (.field l 1) = some .bool := by
  simp [placeTy, h]

end Function

end TrustMc.Bmc
