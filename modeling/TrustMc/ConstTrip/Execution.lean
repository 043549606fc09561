import TrustMc.ConstTrip.Simulator

/-!
# What the simulator knows is true

Executions of a body: the memory holds Booleans and integers in locals and their fields, and
anything else as what it is not. Whatever the simulator does not look at may come out in any way,
but a local changes only where it is named, or where its address has been taken.

* `Agrees`: what the store has is in the memory, as far as it is initialised.
* `agrees_blockStep`: a block that is executed keeps this, and goes on where the simulation does.
* `Execution.follows`: an execution follows the blocks of the simulation as long as this decides
  the branches.

A write to a field of a union, and an aggregate that reads what it is assigned to, are left out
(`MirBody.Plain`).
-/

namespace TrustMc

namespace ConstTrip

open Machine
open Arithmetic (BinOp UnOp)
open LoopUnroll (TerminatorKind)

/-! ### Memory -/

/-- What is in a local or in a field. -/
inductive Content
  | uninit
  | scalar (v : Val)
  /-- A composite value, a pointer, a float, an enum. -/
  | other

/-- A value, with the fields of a composite one. -/
structure Value where
  whole : Content
  fields : ℕ → Content

/-- The locals. -/
abbrev Memory : Type := ℕ → Value

/-- What is in a slot. -/
def Memory.at (m : Memory) : Slot → Content
  | (l, none) => (m l).whole
  | (l, some idx) => (m l).fields idx

/-- The memory with some of it deinitialised, as by moving out of it. -/
def Weaker (m m' : Memory) : Prop := ∀ slot, m'.at slot = m.at slot ∨ m'.at slot = .uninit

/-- The address of the local is taken somewhere. -/
def AddressTaken (b : MirBody) (l : ℕ) : Prop :=
  ∃ block ∈ b.body.blocks, ∃ dest place, place.local = l ∧ .deref ∉ place.projection ∧
    (.assign dest (.ref place) ∈ block.statements ∨
      .assign dest (.addressOf place) ∈ block.statements)

/-- What writes through pointers change. -/
def Aliased (b : MirBody) (m m' : Memory) : Prop := ∀ l, ¬ AddressTaken b l → m' l = m l

/-- Only the local changes. -/
def OnlyAt (l : ℕ) (m m' : Memory) : Prop := ∀ l', l' ≠ l → m' l' = m l'

/-- The place has the value, which is initialised. -/
def Reads (m : Memory) (place : Place) (v : Value) : Prop :=
  match placeSlot place with
  | some (l, none) => v = m l ∧ v.whole ≠ .uninit
  | some (l, some idx) => v.whole = (m l).fields idx ∧ v.whole ≠ .uninit
  | none => True

/-- The value is written to the place. The fields of a union share their bytes. -/
def Writes (b : MirBody) (m : Memory) (place : Place) (v : Value) (m' : Memory) : Prop :=
  match placeSlot place with
  | some (l, none) => m' = Function.update m l v
  | some (l, some idx) => OnlyAt l m m' ∧ (m' l).fields idx = v.whole ∧
      (b.isUnion l = false → ∀ idx', idx' ≠ idx → (m' l).fields idx' = (m l).fields idx')
  | none => if .deref ∈ place.projection then Aliased b m m' else OnlyAt place.local m m'

/-! ### Evaluation -/

/-- The value of a constant is what its allocation reads as at its type. -/
def ConstantValue (c : ConstOperand) (v : Value) : Prop :=
  ∀ alloc, c.alloc = some alloc →
    match c.ty with
    | .bool => ∀ x, alloc.readBool = some x → v.whole = .scalar (.bool x)
    | .int t =>
      (t.signed = true → ∀ z, alloc.readInt = some z → v.whole = .scalar (.int t (t.wrap z))) ∧
        (t.signed = false → ∀ n : ℕ, alloc.readUint = some n →
          v.whole = .scalar (.int t (t.wrap n)))
    | .other => True

def EvalOperand (m : Memory) : Operand → Value → Prop
  | .copy place | .move place => Reads m place
  | .constant c => ConstantValue c

/-- The result of an operator, where it is one on Booleans and integers. -/
def Value.IsResult (v : Value) : Option Val → Prop
  | some r => v.whole = .scalar r
  | none => v.whole = .other

/-- What the rvalue evaluates to; there is no value where that is undefined behaviour. -/
def EvalRvalue (m : Memory) : Rvalue → Value → Prop
  | .use op, v => EvalOperand m op v
  | .binaryOp op a b, v => ∃ x y, EvalOperand m a x ∧ EvalOperand m b y ∧
      ∀ p q, x.whole = .scalar p → y.whole = .scalar q →
        ∃ r, mirBinop op p q = some r ∧ v.IsResult r
  | .checkedBinaryOp op a b, v => ∃ x y, EvalOperand m a x ∧ EvalOperand m b y ∧
      ∀ p q, x.whole = .scalar p → y.whole = .scalar q →
        ∃ r flag, mirChecked op p q = some (r, flag) ∧ v.fields 0 = .scalar r ∧
          v.fields 1 = .scalar (.bool flag)
  | .unaryOp op a, v => ∃ x, EvalOperand m a x ∧
      ∀ p, x.whole = .scalar p → ∃ r, mirUnop op p = some r ∧ v.IsResult r
  | .cast .intToInt op (.int t), v => ∃ x, EvalOperand m op x ∧
      ∀ p, x.whole = .scalar p → v.whole = .scalar (mirCast t p)
  | .aggregate .tuple ops, v | .aggregate (.adt .struct _) ops, v =>
      ∃ xs, List.Forall₂ (EvalOperand m) ops xs ∧ ∀ idx x, xs[idx]? = some x →
        v.fields idx = x.whole
  | _, _ => True

/-- The case is the value, as far as the bits of the value go; a Boolean has eight. -/
def CaseOf : Val → ℕ → Prop
  | .bool b, case => case % 2 ^ 8 = b.toNat
  | .int t bits, case => BitVec.ofNat t.width case = bits

instance : ∀ (v : Val) (case : ℕ), Decidable (CaseOf v case)
  | .bool _, _ => inferInstanceAs (Decidable (_ = _))
  | .int _ _, _ => inferInstanceAs (Decidable (_ = _))

/-- The switch goes to the block of the first case that is the value. -/
def SwitchesTo (v : Val) (branches : List (ℕ × ℕ)) (otherwise bb : ℕ) : Prop :=
  match branches.find? fun p => CaseOf v p.1 with
  | some p => bb = p.2
  | none => bb = otherwise

/-! ### Executions -/

section Steps

variable (b : MirBody)

def StatementStep (m : Memory) : StatementKind → Memory → Prop
  | .assign place rv, m' => ∃ v m₁, EvalRvalue m rv v ∧ Weaker m m₁ ∧ Writes b m₁ place v m'
  | .setDiscriminant place, m' =>
    if .deref ∈ place.projection then Aliased b m m' else OnlyAt place.local m m'
  | .deinit place, m' =>
    if .deref ∈ place.projection then Aliased b m m' else Weaker m m'
  | .storageLive l, m' | .storageDead l, m' => OnlyAt l m m'
  | .intrinsic, m' => Aliased b m m'
  | .nop, m' => m' = m

def StatementsStep : Memory → List StatementKind → Memory → Prop
  | m, [], m' => m' = m
  | m, stmt :: stmts, m' => ∃ m₁, StatementStep b m stmt m₁ ∧ StatementsStep m₁ stmts m'

/-- A terminator that does not trap goes on with a block. -/
def TerminatorStep (m : Memory) : TerminatorKind mir → ℕ → Memory → Prop
  | .goto target, bb, m' => bb = target ∧ m' = m
  | .switchInt discr branches otherwise, bb, m' => ∃ x, EvalOperand m discr x ∧ Weaker m m' ∧
      ∀ p, x.whole = .scalar p → SwitchesTo p branches otherwise bb
  | .assert cond expected _ target _, bb, m' => bb = target ∧ ∃ x, EvalOperand m cond x ∧
      (∀ p, x.whole = .scalar p → p = .bool expected) ∧ Weaker m m'
  | .drop place target _, bb, m' => bb = target ∧
      ∀ l, l ≠ place.local → ¬ AddressTaken b l → m' l = m l
  | .call _ _ destination target _, bb, m' => target = some bb ∧
      ∃ m₁ m₂ v, Weaker m m₁ ∧ Aliased b m₁ m₂ ∧ Writes b m₂ destination v m'
  | .inlineAsm _ destination _, bb, _ => destination = some bb
  | .return, _, _ | .unreachable, _, _ | .resume, _, _ | .abort, _, _ => False

/-- A block is executed. -/
def BlockStep (c c' : ℕ × Memory) : Prop :=
  ∃ block m, b.body.blocks[c.1]? = some block ∧ StatementsStep b c.2 block.statements m ∧
    TerminatorStep b m block.terminator.kind c'.1 c'.2

/-- The first `n` blocks of a run, from any memory. -/
structure Execution (n : ℕ) (c : ℕ → ℕ × Memory) : Prop where
  start : (c 0).1 = 0
  step : ∀ i < n, BlockStep b (c i) (c (i + 1))

end Steps

/-- No field of a union is written on its own, and no aggregate reads what it is assigned to. -/
structure MirBody.Plain (b : MirBody) : Prop where
  union_assign : ∀ block ∈ b.body.blocks, ∀ place rv, .assign place rv ∈ block.statements →
    ∀ l idx, placeSlot place = some (l, some idx) → b.isUnion l = false
  union_call : ∀ block ∈ b.body.blocks, ∀ func args destination target unwind,
    block.terminator.kind = .call func args destination target unwind →
      ∀ l idx, placeSlot destination = some (l, some idx) → b.isUnion l = false
  aggregate : ∀ block ∈ b.body.blocks, ∀ place kind ops,
    .assign place (.aggregate kind ops) ∈ block.statements →
      ∀ op ∈ ops, ∀ place', op = .copy place' ∨ op = .move place' → place'.local ≠ place.local

/-! ### Agreement -/

/-- What the store has is in the memory, as far as it is initialised. -/
def Agrees (b : MirBody) (store : Store) (m : Memory) : Prop :=
  ∀ slot v, poisonedLocals b slot.1 = false → store slot = some v →
    m.at slot = .scalar v ∨ m.at slot = .uninit

section Agreement

variable {b : MirBody} {store : Store} {m m' : Memory}

theorem poisonedLocals_of_addressTaken {l : ℕ} (h : AddressTaken b l) :
    poisonedLocals b l = true := by
  obtain ⟨block, hblock, dest, place, rfl, -, hstmt⟩ := h
  rw [poisonedLocals, Bool.or_eq_true, List.any_eq_true]
  refine .inr ⟨block, hblock, List.any_eq_true.2 ?_⟩
  rcases hstmt with hstmt | hstmt
  all_goals exact ⟨_, hstmt, by simp [poisons]⟩

theorem Aliased.eq (h : Aliased b m m') {l : ℕ} (hl : poisonedLocals b l = false) : m' l = m l :=
  h l fun htaken => by simp [poisonedLocals_of_addressTaken htaken] at hl

theorem Memory.at_eq {slot : Slot} (h : m' slot.1 = m slot.1) : m'.at slot = m.at slot := by
  obtain ⟨l, _ | idx⟩ := slot
  · exact congrArg Value.whole h
  · exact congrFun (congrArg Value.fields h) idx

namespace Agrees

theorem weaken (h : Agrees b store m) (hm : Weaker m m') : Agrees b store m' := by
  intro slot v hslot hv
  rcases hm slot with heq | huninit
  · rw [heq]
    exact h slot v hslot hv
  · exact .inr huninit

theorem aliased (h : Agrees b store m) (hm : Aliased b m m') : Agrees b store m' := by
  intro slot v hslot hv
  rw [Memory.at_eq (hm.eq hslot)]
  exact h slot v hslot hv

/-- A local that is forgotten may change. -/
theorem killLocal (h : Agrees b store m) {l : ℕ}
    (hm : ∀ l', l' ≠ l → poisonedLocals b l' = false → m' l' = m l') :
    Agrees b (store.killLocal l) m' := by
  intro slot v hslot hv
  rw [Store.killLocal] at hv
  split_ifs at hv with hl
  rw [Memory.at_eq (hm slot.1 hl hslot)]
  exact h slot v hslot hv

/-- A slot that is written is known. -/
theorem set (h : Agrees b store m) {slot : Slot} {val : Option Val}
    (hval : ∀ v, val = some v → m.at slot = .scalar v) : Agrees b (store.set slot val) m := by
  intro slot' v hslot hv
  by_cases heq : slot' = slot
  · subst heq
    rw [Store.set, Function.update_self] at hv
    exact .inl (hval v hv)
  · rw [Store.set, Function.update_of_ne heq] at hv
    exact h slot' v hslot hv

end Agrees

/-- What is written to a place is known of it, and what may have changed with it is forgotten. -/
theorem Agrees.write (h : Agrees b store m) {place : Place} {v : Value} {val : Option Val}
    (hm : Writes b m place v m') (hval : ∀ w, val = some w → v.whole = .scalar w)
    (hunion : ∀ l idx, placeSlot place = some (l, some idx) → b.isUnion l = false) :
    Agrees b (store.write place val) m' := by
  rw [Writes] at hm
  rw [Store.write]
  cases hslot : placeSlot place with
  | none =>
    rw [hslot] at hm
    refine h.killLocal fun l hl hpoisoned => ?_
    dsimp only at hm
    split_ifs at hm
    · exact hm.eq hpoisoned
    · exact hm l hl
  | some slot =>
    rw [hslot] at hm
    obtain ⟨l, _ | idx⟩ := slot
    · obtain rfl := hm
      refine (h.killLocal fun l' hl _ => Function.update_of_ne hl _ _).set fun w hw => ?_
      rw [Memory.at, Function.update_self]
      exact hval w hw
    · obtain ⟨honly, hfield, hfields⟩ := hm
      have hforget : Agrees b ((store.set (l, none) none).set (l, some idx) none) m' := by
        rintro ⟨l', idx'⟩ w hslot' hw
        by_cases hl : l' = l
        · subst hl
          -- another field of the local
          cases idx' with
          | none => simp [Store.set] at hw
          | some idx' =>
            by_cases hidx : idx' = idx
            · simp [Store.set, hidx] at hw
            · have hother := hfields (hunion _ _ hslot) idx' hidx
              have hat : m'.at (l', some idx') = m.at (l', some idx') := hother
              rw [hat]
              exact h _ w hslot' (by simpa [Store.set, hidx] using hw)
        · rw [Memory.at_eq (honly l' hl)]
          exact h _ w hslot' (by simpa [Store.set, hl] using hw)
      have hset : (store.set (l, none) none).set (l, some idx) val =
          ((store.set (l, none) none).set (l, some idx) none).set (l, some idx) val :=
        (Function.update_idem _ _ _).symm
      dsimp only
      rw [hset]
      exact hforget.set fun w hw => hfield.trans (hval w hw)

theorem constVal_sound {c : ConstOperand} {v : Val} {x : Value} (hv : constVal c = some v)
    (hx : ConstantValue c x) : x.whole = .scalar v := by
  obtain ⟨alloc, halloc, hv⟩ := Option.bind_eq_some_iff.1 hv
  have hx := hx alloc halloc
  cases hty : c.ty with
  | bool =>
    rw [hty] at hv hx
    obtain ⟨y, hy, rfl⟩ := Option.map_eq_some_iff.1 hv
    exact hx y hy
  | int t =>
    rw [hty] at hv hx
    dsimp only at hv
    split_ifs at hv with hs
    · obtain ⟨z, hz, rfl⟩ := Option.map_eq_some_iff.1 hv
      exact hx.1 hs z hz
    · obtain ⟨n, hn, rfl⟩ := Option.map_eq_some_iff.1 hv
      exact hx.2 (by simpa using hs) n hn
  | other =>
    rw [hty] at hv
    cases hv

theorem get_sound (h : Agrees b store m) {place : Place} {v : Val} {x : Value}
    (hv : store.get place (poisonedLocals b) = some v) (hx : Reads m place x) :
    x.whole = .scalar v := by
  obtain ⟨slot, hslot, hv⟩ := Option.bind_eq_some_iff.1 hv
  obtain ⟨hpoisoned, hv⟩ := Option.ite_none_left_eq_some.1 hv
  have hat := h slot v (by simpa using hpoisoned) hv
  rw [Reads, hslot] at hx
  obtain ⟨l, _ | idx⟩ := slot
  · obtain ⟨rfl, hinit⟩ := hx
    exact hat.resolve_right hinit
  · obtain ⟨hwhole, hinit⟩ := hx
    rw [hwhole] at hinit ⊢
    exact hat.resolve_right hinit

theorem operand_sound (h : Agrees b store m) {op : Operand} {v : Val} {x : Value}
    (hv : operand (poisonedLocals b) store op = some v) (hx : EvalOperand m op x) :
    x.whole = .scalar v := by
  cases op with
  | copy place => exact get_sound h hv hx
  | move place => exact get_sound h hv hx
  | constant c => exact constVal_sound hv hx

/-- **What is computed is right.** -/
theorem rvalue_sound (h : Agrees b store m) {rv : Rvalue} {v : Val} {x : Value}
    (hv : rvalue (poisonedLocals b) store rv = some v) (hx : EvalRvalue m rv x) :
    x.whole = .scalar v := by
  cases rv
  case use op => exact operand_sound h hv hx
  case binaryOp op a c =>
    obtain ⟨p, hp, hv⟩ := Option.bind_eq_some_iff.1 hv
    obtain ⟨q, hq, hv⟩ := Option.bind_eq_some_iff.1 hv
    obtain ⟨y, z, hy, hz, hresult⟩ := hx
    obtain ⟨r, hr, hx⟩ := hresult p q (operand_sound h hp hy) (operand_sound h hq hz)
    obtain rfl := evalBinop_sound hv hr
    exact hx
  case unaryOp op a =>
    obtain ⟨p, hp, hv⟩ := Option.bind_eq_some_iff.1 hv
    obtain ⟨y, hy, hresult⟩ := hx
    obtain ⟨r, hr, hx⟩ := hresult p (operand_sound h hp hy)
    obtain rfl := evalUnop_sound hv hr
    exact hx
  case cast kind op ty =>
    cases kind with
    | other => cases hv
    | intToInt =>
      cases ty with
      | bool => cases hv
      | other => cases hv
      | int t =>
        obtain ⟨p, hp, rfl⟩ := Option.map_eq_some_iff.1 hv
        obtain ⟨y, hy, hresult⟩ := hx
        rw [evalCast_eq]
        exact hresult p (operand_sound h hp hy)
  all_goals cases hv

/-! ### Statements -/

/-- An operand that does not read the local is what it was before the local changed. -/
theorem operand_congr {poisoned : ℕ → Bool} {store' : Store} {l : ℕ} {op : Operand}
    (hop : ∀ place, op = .copy place ∨ op = .move place → place.local ≠ l)
    (hstore : ∀ slot : Slot, slot.1 ≠ l → store' slot = store slot) :
    operand poisoned store' op = operand poisoned store op := by
  have hget : ∀ place : Place, place.local ≠ l →
      store'.get place poisoned = store.get place poisoned := by
    intro place hplace
    rw [Store.get, Store.get]
    refine Option.bind_congr fun slot hslot => ?_
    have hlocal : slot.1 = place.local := by
      rw [placeSlot] at hslot
      split at hslot
      · exact congrArg Prod.fst (Option.some.inj hslot).symm
      · exact congrArg Prod.fst (Option.some.inj hslot).symm
      · cases hslot
    rw [hstore slot (hlocal ▸ hplace)]
  cases op with
  | copy place => exact hget place (hop place (.inl rfl))
  | move place => exact hget place (hop place (.inr rfl))
  | constant c => rfl

/-- The fields of an aggregate are the values of its operands. -/
theorem agrees_insertFields {l : ℕ} {ops : List Operand} {xs : List Value}
    (hm : Agrees b store m)
    (hops : ∀ op ∈ ops, ∀ place, op = .copy place ∨ op = .move place → place.local ≠ l)
    (hxs : List.Forall₂ (EvalOperand m) ops xs) {store' : Store}
    (hstore : ∀ slot : Slot, slot.1 ≠ l → store' slot = store slot) {idx : ℕ}
    (hfields : ∀ i x, xs[i]? = some x → (m' l).fields (idx + i) = x.whole)
    (h : Agrees b store' m') :
    Agrees b (insertFields (poisonedLocals b) l idx ops store') m' := by
  induction hxs generalizing idx store' with
  | nil => exact h
  | @cons op x ops xs hx _ ih =>
    have hop := hops op List.mem_cons_self
    have hcongr : operand (poisonedLocals b) store' op = operand (poisonedLocals b) store op :=
      operand_congr hop hstore
    rw [insertFields, hcongr]
    refine ih (fun op' hop' => hops op' (List.mem_cons_of_mem _ hop')) ?_ (fun i y hy => ?_) ?_
    · intro slot hslot
      rw [← hstore slot hslot]
      cases operand (poisonedLocals b) store op with
      | none => rfl
      | some v =>
        exact Function.update_of_ne (fun heq => hslot (congrArg Prod.fst heq)) _ _
    · rw [Nat.add_assoc, Nat.add_comm 1]
      exact hfields (i + 1) y hy
    · cases hv : operand (poisonedLocals b) store op with
      | none => exact h
      | some v =>
        refine h.set fun w hw => ?_
        obtain rfl := Option.some.inj hw
        exact (hfields 0 x rfl).trans (operand_sound hm hv hx)

/-- The pair of a checked operation, whose flag is not set. -/
theorem agrees_checked (h : Agrees b store m) {l : ℕ} {op : BinOp} {a c : Operand} {x : Value}
    (hx : EvalRvalue m (.checkedBinaryOp op a c) x)
    (hforget : Agrees b (store.killLocal l) (Function.update m' l x)) :
    Agrees b (assign (poisonedLocals b) store ⟨l, []⟩ (.checkedBinaryOp op a c))
      (Function.update m' l x) := by
  rw [assign.eq_def]
  dsimp only [placeSlot]
  split
  · rename_i v hv
    obtain ⟨p, hp, hv⟩ := Option.bind_eq_some_iff.1 hv
    obtain ⟨q, hq, hv⟩ := Option.bind_eq_some_iff.1 hv
    obtain ⟨y, z, hy, hz, hresult⟩ := hx
    obtain ⟨r, flag, hr, hfst, hsnd⟩ :=
      hresult p q (operand_sound h hp hy) (operand_sound h hq hz)
    obtain ⟨rfl, rfl⟩ := Prod.mk.inj ((evalBinop_checked hv hr).symm)
    have hfield : ∀ idx, Memory.at (Function.update m' l x) (l, some idx) = x.fields idx := by
      intro idx
      rw [Memory.at, Function.update_self]
    refine (hforget.set fun w hw => ?_).set fun w hw => ?_
    · obtain rfl := Option.some.inj hw
      exact (hfield 0).trans hfst
    · obtain rfl := Option.some.inj hw
      exact (hfield 1).trans hsnd
  · exact hforget

/-- An assignment keeps the agreement. -/
theorem agrees_assign (h : Agrees b store m) {place : Place} {rv : Rvalue}
    (hm : StatementStep b m (.assign place rv) m')
    (hunion : ∀ l idx, placeSlot place = some (l, some idx) → b.isUnion l = false)
    (haggregate : ∀ kind ops, rv = .aggregate kind ops → ∀ op ∈ ops, ∀ place',
      op = .copy place' ∨ op = .move place' → place'.local ≠ place.local) :
    Agrees b (assign (poisonedLocals b) store place rv) m' := by
  obtain ⟨x, m₁, hx, hweak, hwrites⟩ := hm
  have hplain : Agrees b (store.write place (rvalue (poisonedLocals b) store rv)) m' :=
    (h.weaken hweak).write hwrites (fun v hv => rvalue_sound h hv hx) hunion
  obtain ⟨l, proj⟩ := place
  rcases proj with _ | ⟨elem, proj⟩
  · -- a whole local
    have hm' : m' = Function.update m₁ l x := hwrites
    subst hm'
    have hforget : Agrees b (store.killLocal l) (Function.update m₁ l x) :=
      (h.weaken hweak).killLocal fun l' hl _ => Function.update_of_ne hl _ _
    cases rv
    case checkedBinaryOp op a c => exact agrees_checked h hx hforget
    case aggregate kind ops =>
      rw [assign.eq_def]
      dsimp only [placeSlot]
      split_ifs with hkind
      · have heval : ∃ xs, List.Forall₂ (EvalOperand m) ops xs ∧
            ∀ idx y, xs[idx]? = some y → x.fields idx = y.whole := by
          rcases kind with _ | ⟨_ | _ | _, active⟩ | _
          · exact hx
          · exact hx
          all_goals cases hkind
        obtain ⟨xs, hxs, hfields⟩ := heval
        refine agrees_insertFields h (haggregate kind ops rfl) hxs (fun slot hslot => ?_)
          (fun i y hy => ?_) hforget
        · exact if_neg hslot
        · rw [Nat.zero_add, Function.update_self]
          exact hfields i y hy
      · exact hplain
    all_goals exact hplain
  · -- a part of a local, or what it points to
    have hrest : assign (poisonedLocals b) store ⟨l, elem :: proj⟩ rv =
        store.write ⟨l, elem :: proj⟩ (rvalue (poisonedLocals b) store rv) := by
      have hslot : ∀ l', placeSlot ⟨l, elem :: proj⟩ ≠ some (l', none) := by
        intro l' hslot
        rw [placeSlot.eq_def] at hslot
        split at hslot
        · contradiction
        · cases hslot
        · cases hslot
      rw [assign.eq_def]
      split
      · exact absurd ‹_› (hslot _)
      · exact absurd ‹_› (hslot _)
      · rfl
    rw [hrest]
    exact hplain

/-- A statement keeps the agreement. -/
theorem agrees_statement (h : Agrees b store m) {stmt : StatementKind}
    (hm : StatementStep b m stmt m')
    (hunion : ∀ place rv, stmt = .assign place rv →
      ∀ l idx, placeSlot place = some (l, some idx) → b.isUnion l = false)
    (haggregate : ∀ place kind ops, stmt = .assign place (.aggregate kind ops) →
      ∀ op ∈ ops, ∀ place', op = .copy place' ∨ op = .move place' →
        place'.local ≠ place.local) :
    Agrees b (statement (poisonedLocals b) store stmt) m' := by
  cases stmt with
  | assign place rv =>
    exact agrees_assign h hm (hunion place rv rfl) fun kind ops hrv =>
      haggregate place kind ops (hrv ▸ rfl)
  | setDiscriminant place =>
    refine h.killLocal fun l hl hpoisoned => ?_
    rw [StatementStep] at hm
    split_ifs at hm
    · exact hm.eq hpoisoned
    · exact hm l hl
  | deinit place =>
    rw [StatementStep] at hm
    split_ifs at hm
    · exact h.aliased hm
    · exact h.weaken hm
  | storageLive l => exact h.killLocal fun l' hl _ => hm l' hl
  | storageDead l => exact h.killLocal fun l' hl _ => hm l' hl
  | intrinsic => exact h.aliased hm
  | nop =>
    obtain rfl := hm
    exact h

/-- The statements of a block keep the agreement. -/
theorem agrees_statements (hplain : b.Plain) {block : LoopUnroll.BasicBlock mir}
    (hblock : block ∈ b.body.blocks) {stmts : List StatementKind}
    (hstmts : stmts ⊆ block.statements) (h : Agrees b store m)
    (hm : StatementsStep b m stmts m') :
    Agrees b (stmts.foldl (statement (poisonedLocals b)) store) m' := by
  induction stmts generalizing store m with
  | nil =>
    obtain rfl := hm
    exact h
  | cons stmt stmts ih =>
    obtain ⟨m₁, hstep, hsteps⟩ := hm
    have hmem : stmt ∈ block.statements := hstmts List.mem_cons_self
    refine ih (fun s hs => hstmts (List.mem_cons_of_mem _ hs)) ?_ hsteps
    refine agrees_statement h hstep (fun place rv heq => ?_) fun place kind ops heq => ?_
    · exact hplain.union_assign block hblock place rv (heq ▸ hmem)
    · exact hplain.aggregate block hblock place kind ops (heq ▸ hmem)

/-! ### Blocks -/

theorem caseOf_iff {v : Val} {case : ℕ} :
    (truncate case v.switchBits.2 == v.switchBits.1) = decide (CaseOf v case) := by
  rw [Bool.eq_iff_iff, beq_iff_eq, decide_eq_true_iff]
  cases v with
  | bool x => rfl
  | int t bits =>
    rw [CaseOf, ← BitVec.toNat_inj, BitVec.toNat_ofNat]
    rfl

/-- The simulation takes the branch of the execution. -/
theorem SwitchesTo.eq {v : Val} {branches : List (ℕ × ℕ)} {otherwise bb : ℕ}
    (h : SwitchesTo v branches otherwise bb) : bb = switchTarget v branches otherwise := by
  have hfind : (branches.find? fun p => truncate p.1 v.switchBits.2 == v.switchBits.1) =
      branches.find? fun p => CaseOf v p.1 :=
    congrArg (branches.find? ·) (funext fun p => caseOf_iff)
  have htarget : switchTarget v branches otherwise =
      ((branches.find? fun p => truncate p.1 v.switchBits.2 == v.switchBits.1).map
        Prod.snd).getD otherwise := rfl
  rw [htarget, hfind]
  rw [SwitchesTo] at h
  split at h
  · rename_i p hp
    rw [hp]
    exact h
  · rename_i hp
    rw [hp]
    exact h

/-- A terminator that goes on does so as it does in the simulation. -/
theorem agrees_terminator (h : Agrees b store m) {kind : TerminatorKind mir} {bb next : ℕ}
    {store' : Store} (hnext : terminator (poisonedLocals b) store kind = .goto next store')
    (hm : TerminatorStep b m kind bb m')
    (hunion : ∀ func args destination target unwind,
      kind = .call func args destination target unwind →
        ∀ l idx, placeSlot destination = some (l, some idx) → b.isUnion l = false) :
    bb = next ∧ Agrees b store' m' := by
  cases kind with
  | goto target =>
    obtain ⟨rfl, rfl⟩ := hm
    obtain ⟨rfl, rfl⟩ := Next.goto.inj hnext
    exact ⟨rfl, h⟩
  | switchInt discr branches otherwise =>
    obtain ⟨x, hx, hweak, hswitch⟩ := hm
    rw [terminator] at hnext
    split at hnext
    · cases hnext
    · rename_i val hval
      obtain ⟨rfl, rfl⟩ := Next.goto.inj hnext
      exact ⟨(hswitch val (operand_sound h hval hx)).eq, h.weaken hweak⟩
  | assert cond expected msg target unwind =>
    obtain ⟨rfl, x, hx, -, hweak⟩ := hm
    obtain ⟨rfl, rfl⟩ := Next.goto.inj hnext
    exact ⟨rfl, h.weaken hweak⟩
  | drop place target unwind =>
    obtain ⟨rfl, hdrop⟩ := hm
    obtain ⟨rfl, rfl⟩ := Next.goto.inj hnext
    refine ⟨rfl, h.killLocal fun l hl hpoisoned => hdrop l hl fun htaken => ?_⟩
    rw [poisonedLocals_of_addressTaken htaken] at hpoisoned
    cases hpoisoned
  | call func args destination target unwind =>
    obtain ⟨rfl, m₁, m₂, v, hweak, haliased, hwrites⟩ := hm
    obtain ⟨rfl, rfl⟩ := Next.goto.inj hnext
    exact ⟨rfl, ((h.weaken hweak).aliased haliased).write hwrites (fun w hw => nomatch hw)
      (hunion func args destination _ unwind rfl)⟩
  | inlineAsm asm destination unwind => cases hnext
  | _ => exact hm.elim

@[simp]
theorem arrive_bb (loops : Loops) (st : SimState) : (arrive loops st).bb = st.bb := by
  rw [arrive]
  split <;> rfl

@[simp]
theorem arrive_store (loops : Loops) (st : SimState) : (arrive loops st).store = st.store := by
  rw [arrive]
  split <;> rfl

/-- What the simulation of a block that goes on does. -/
theorem simStep_inl {loops : Loops} {st st' : SimState} (h : simStep b loops st = .inl st') :
    ∃ block next store, b.body.blocks[st.bb]? = some block ∧
      terminator (poisonedLocals b)
        (block.statements.foldl (statement (poisonedLocals b)) st.store)
        block.terminator.kind = .goto next store ∧
      next < b.body.blocks.length ∧
      st' = ⟨next, some st.bb, store, depart loops (arrive loops st) next,
        (arrive loops st).curRun⟩ := by
  rw [simStep] at h
  dsimp only at h
  rw [arrive_bb, arrive_store] at h
  split at h
  · cases h
  · rename_i block hblock
    split at h
    · cases h
    · cases h
    · rename_i next store hnext
      split_ifs at h with hlen
      exact ⟨block, next, store, hblock, hnext, Nat.lt_of_not_le hlen, (Sum.inl.inj h).symm⟩

/-- **A block that is executed goes on where the simulation does, and keeps the agreement.** -/
theorem agrees_blockStep (hplain : b.Plain) {loops : Loops} {st st' : SimState}
    {c c' : ℕ × Memory} (hbb : c.1 = st.bb) (h : Agrees b st.store c.2)
    (hsim : simStep b loops st = .inl st') (hstep : BlockStep b c c') :
    c'.1 = st'.bb ∧ Agrees b st'.store c'.2 := by
  obtain ⟨block, m, hblock, hstmts, hterm⟩ := hstep
  obtain ⟨block', next, store', hblock', hnext, -, rfl⟩ := simStep_inl hsim
  rw [hbb, hblock'] at hblock
  obtain rfl := Option.some.inj hblock
  have hmem : block' ∈ b.body.blocks := List.mem_of_getElem? hblock'
  refine agrees_terminator (agrees_statements hplain hmem (List.Subset.refl _) h hstmts) hnext
    hterm ?_
  exact hplain.union_call block' hmem

end Agreement

/-! ### Runs -/

/-- The state of the simulation after some blocks. -/
def simAt (b : MirBody) (loops : Loops) : ℕ → Option SimState
  | 0 => some .start
  | n + 1 => (simAt b loops n).bind fun st => (simStep b loops st).getLeft?

theorem Execution.mono {b : MirBody} {n k : ℕ} {c : ℕ → ℕ × Memory} (h : Execution b n c)
    (hk : k ≤ n) : Execution b k c where
  start := h.start
  step := fun i hi => h.step i (Nat.lt_of_lt_of_le hi hk)

/-- **An execution follows the blocks of the simulation**, and what the store has is in the
memory. -/
theorem Execution.follows {b : MirBody} (hplain : b.Plain) {loops : Loops} {n : ℕ}
    {c : ℕ → ℕ × Memory} (h : Execution b n c) {st : SimState}
    (hst : simAt b loops n = some st) : (c n).1 = st.bb ∧ Agrees b st.store (c n).2 := by
  induction n generalizing st with
  | zero =>
    obtain rfl := Option.some.inj hst
    exact ⟨h.start, fun slot v _ hv => nomatch hv⟩
  | succ n ih =>
    obtain ⟨st₁, hst₁, hst⟩ := Option.bind_eq_some_iff.1 hst
    obtain ⟨hbb, hagrees⟩ := ih (h.mono (Nat.le_succ n)) hst₁
    exact agrees_blockStep hplain hbb hagrees (Sum.getLeft?_eq_some_iff.1 hst)
      (h.step n (Nat.lt_succ_self n))

end ConstTrip

end TrustMc
