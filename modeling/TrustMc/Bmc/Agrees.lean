import TrustMc.Bmc.Growth

/-!
# The encoding of a block and its run

Where an assignment of the variables meets the constraints and the encoded run gets to a point,
the environment there has the values of the store, and the rest of the block does what the
program does: it goes on with the store of the run, flags a failed check, or gives up its
assumptions.

* `StatementCodegen.Live`: the run is at this point, with this store.
* `codegenRvalue_spec`, `codegenStatement_spec`, `codegenStatements_spec`,
  `codegenTerminator_spec`: the parts of a block.

Each says together what the part does to the state (`Grows`) and to the run.
-/

namespace TrustMc.Bmc

open LoopUnroll Arithmetic Machine TrustMc.Expr

/-- What a run ends in or goes on with; of malformed programs nothing is said. -/
def Outcome {α : Type} (x : Except Stop α) (ok : α → Prop) (stop : Stop → Prop) : Prop :=
  match x with
  | .ok a => ok a
  | .error .wrong => True
  | .error s => stop s

namespace Outcome

variable {α β : Type} {x : Except Stop α} {ok ok' : α → Prop} {stop stop' : Stop → Prop}

theorem mono (h : Outcome x ok stop) (hok : ∀ a, ok a → ok' a) (hstop : ∀ s, stop s → stop' s) :
    Outcome x ok' stop' := by
  cases x with
  | ok a => exact hok a h
  | error s => cases s <;> first | trivial | exact hstop _ h

/-- One part after another. -/
theorem bind {k : α → Except Stop β} {post : β → Prop} (h : Outcome x ok stop)
    (hk : ∀ a, x = .ok a → ok a → Outcome (k a) post stop) : Outcome (x >>= k) post stop := by
  cases x with
  | ok a => exact hk a rfl h
  | error s => cases s <;> exact h

end Outcome

namespace StatementCodegen

variable {f : Function} {config : Config} {S S' S'' : StatementCodegen} {T : Theory} {ν : T.Env}
  {σ : Store} {s : Scalar} {t : ScalarTy} {o l r : Operand} {e : Expr} {op : BinOp}

variable (f) in
/-- The encoded run is here, with this store. -/
structure Live (ν : T.Env) (S : StatementCodegen) (σ : Store) : Prop where
  typed : f.StoreTyped σ
  active : Active ν S
  safe : ¬ Flagged ν S
  agrees : ∀ p s, σ p = some s → ∃ e, S.currentEnv.lookup p = some e ∧ e.eval ν = s.toVal

/-! ### Operands -/

section Operands

variable (f config) in
/-- The term of an operand. -/
def term (S : StatementCodegen) (o : Operand) : Expr := (S.codegenOperand f config o).1

/-- A place that has a value is read from the environment. -/
theorem codegenOperand_eq (h : ∀ p ∈ o.reads, S.currentEnv.Has p) :
    S.codegenOperand f config o = (S.term f config o, S) := by
  cases o with
  | place p =>
    obtain ⟨e, he⟩ := Option.isSome_iff_exists.1 (h p (by simp [Operand.reads]))
    simp [term, codegenOperand, codegenPlace, envLookup, he]
  | const s => rfl
  | fnDef hook => rfl

/-- The term depends on the environment only. -/
theorem term_congr (h : ∀ p ∈ o.reads, S.currentEnv.Has p) (henv : S'.currentEnv = S.currentEnv) :
    S'.term f config o = S.term f config o := by
  cases o with
  | place p =>
    obtain ⟨e, he⟩ := Option.isSome_iff_exists.1 (h p (by simp [Operand.reads]))
    simp [term, codegenOperand, codegenPlace, envLookup, he, henv]
  | const s => rfl
  | fnDef hook => rfl

theorem typed_term (h : S.Wf f config) (hreads : ∀ p ∈ o.reads, S.currentEnv.Has p)
    (ht : f.operandTy o = some t) : Typed (S.Known f config) (S.term f config o) t := by
  cases o with
  | place p =>
    obtain ⟨e, he⟩ := Option.isSome_iff_exists.1 (hreads p (by simp [Operand.reads]))
    have hterm : S.term f config (.place p) = e := by
      simp [term, codegenOperand, codegenPlace, envLookup, he]
    have hsort : f.placeSort p = t.sort := by
      rw [Function.placeSort, show f.placeTy p = some t from ht]
    rw [hterm]
    exact ⟨(h.env p e he).1.trans hsort, (h.env p e he).2⟩
  | const s =>
    cases ht
    exact ⟨sort_toExpr s, over_toExpr s⟩
  | fnDef hook => cases ht

variable (config) in
/-- The term of an operand has its value. -/
theorem Live.eval_term (h : Live f ν S σ) (ho : evalOperand σ o = .ok s) :
    (S.term f config o).eval ν = s.toVal := by
  cases o with
  | place p =>
    simp only [evalOperand] at ho
    split at ho
    · rename_i s' hp
      cases ho
      obtain ⟨e, he, heval⟩ := h.agrees p s hp
      simpa [term, codegenOperand, codegenPlace, envLookup, he] using heval
    · cases ho
  | const c =>
    cases ho
    exact eval_toExpr _
  | fnDef hook => cases ho

/-- Reading fails on malformed programs only. -/
theorem evalOperand_error {stop : Stop} (h : evalOperand σ o = .error stop) : stop = .wrong := by
  cases o with
  | place p =>
    simp only [evalOperand] at h
    split at h <;> cases h
    rfl
  | const c => cases h
  | fnDef hook =>
    cases h
    rfl

variable (config) in
theorem outcome_evalOperand (h : Live f ν S σ) (stop : Stop → Prop) :
    Outcome (evalOperand σ o) (fun s => (S.term f config o).eval ν = s.toVal) stop := by
  cases ho : evalOperand σ o with
  | ok s => exact h.eval_term config ho
  | error s => rw [evalOperand_error ho]; trivial

end Operands

/-! ### Checks -/

variable (f config) in
/-- Only checks are added, which fail under the condition. -/
structure Checks (S S' : StatementCodegen) (bad : (T : Theory) → T.Env → Prop) : Prop where
  grows : Grows f config S S'
  env : S'.currentEnv = S.currentEnv
  assumption : S'.assumptionContext = S.assumptionContext
  ssaVersion : S'.ssaVersion = S.ssaVersion
  nameCounter : S'.nameCounter = S.nameCounter
  flagged : ∀ {T : Theory} {ν : T.Env}, Meets ν S' →
    (Flagged ν S' ↔ Flagged ν S ∨ Active ν S ∧ bad T ν)

namespace Checks

variable {bad bad' : (T : Theory) → T.Env → Prop}

theorem refl (h : S.Wf f config) : Checks f config S S fun _ _ => False where
  grows := .refl h
  env := rfl
  assumption := rfl
  ssaVersion := rfl
  nameCounter := rfl
  flagged _ := by simp

theorem active_iff (h : Checks f config S S' bad) : Active ν S' ↔ Active ν S := by
  rw [Active, Active, Assumes, Assumes, h.grows.pathCondition, h.assumption]

theorem trans (h : Checks f config S S' bad) (h' : Checks f config S' S'' bad') :
    Checks f config S S'' fun T ν => bad T ν ∨ bad' T ν where
  grows := h.grows.trans h'.grows
  env := h'.env.trans h.env
  assumption := h'.assumption.trans h.assumption
  ssaVersion := h'.ssaVersion.trans h.ssaVersion
  nameCounter := h'.nameCounter.trans h.nameCounter
  flagged hν := by
    rw [h'.flagged hν, h.flagged (h'.grows.meets hν), h.active_iff, and_or_left, or_assoc]

theorem congr (h : Checks f config S S' bad) (hbad : ∀ T ν, bad T ν ↔ bad' T ν) :
    Checks f config S S' bad' :=
  { h with flagged := fun hν => by rw [h.flagged hν, hbad] }

/-- Where no check fails, the run goes on. -/
theorem live (h : Checks f config S S' bad) (hν : Meets ν S') (hS : Live f ν S σ)
    (hgood : ¬ bad T ν) : Live f ν S' σ where
  typed := hS.typed
  active := h.active_iff.2 hS.active
  safe hflag := ((h.flagged hν).1 hflag).elim hS.safe fun hbad => hgood hbad.2
  agrees p s hp := by
    rw [h.env]
    exact hS.agrees p s hp

/-- Where a check fails, it is flagged. -/
theorem flag (h : Checks f config S S' bad) (hν : Meets ν S') (hS : Live f ν S σ)
    (hbad : bad T ν) : Flagged ν S' := (h.flagged hν).2 (.inr ⟨hS.active, hbad⟩)

end Checks

theorem checks_recordViolationGuarded {violation : Expr} {label : Label} (h : S.Wf f config)
    (hsort : violation.sort = .bool) (hover : violation.Over (S.Known f config)) :
    Checks f config S (S.recordViolationGuarded f config violation label)
      fun _ ν => Holds ν violation := by
  refine ⟨grows_recordViolationGuarded h hsort hover, ?_, ?_, ?_, ?_, flagged_recordViolationGuarded⟩
  all_goals
    obtain ⟨reach, -, heq⟩ := recordPropertyViolationWithGuard_spec f config S
      (conj S.currentPathCondition violation) label S.currentPathCondition
    rw [recordViolationGuarded, heq]

/-- Checks do not read the versions. -/
theorem recordViolationGuarded_bump {violation : Expr} {label : Label} (p : Place) :
    (S.bump p).recordViolationGuarded f config violation label =
      (S.recordViolationGuarded f config violation label).bump p := by
  simp only [recordViolationGuarded, recordPropertyViolationWithGuard, bump, nextSsaVersion,
    StatementCodegen.assert]
  split <;> rfl

section Binop

variable {lhs rhs : Expr}

theorem isSignedIntegerOp_eq (hl : f.operandTy l = some t) (hr : f.operandTy r = some t) :
    f.isSignedIntegerOp l r = some t.signed := by
  simp [Function.isSignedIntegerOp, Function.operandSignedness, hl, hr]

/-- An overflow check fails where its condition does not hold. -/
def Overflows (op : BinOp) (lhs rhs : Expr) (signed : Bool) (ν : T.Env) : Prop :=
  ∃ c label, overflowCheck op lhs rhs signed = some (c, label) ∧ ¬ Holds ν c

theorem checks_emitOverflowCheck (h : S.Wf f config) (hl : Typed (S.Known f config) lhs t)
    (hr : Typed (S.Known f config) rhs t) (signed : Bool) :
    Checks f config S (S.emitOverflowCheck f config op lhs rhs signed)
      fun _ ν => Overflows op lhs rhs signed ν := by
  unfold emitOverflowCheck Overflows
  cases hc : overflowCheck op lhs rhs signed with
  | none => exact (Checks.refl h).congr fun T ν => by simp
  | some c =>
    obtain ⟨c, label⟩ := c
    have hover : c.Over (S.Known f config) :=
      (overflowCheck_spec (hl.1.trans hr.1.symm) hc).2 hl.2 hr.2
    exact (checks_recordViolationGuarded h rfl (by simpa using hover)).congr fun T ν => by simp

theorem checks_emitDivisionByZeroCheck {i : IntTy} (label : Label) (h : S.Wf f config)
    (hr : Typed (S.Known f config) rhs (.int i)) :
    Checks f config S (S.emitDivisionByZeroCheck f config rhs label)
      fun _ ν => Holds ν (.eq rhs (.bitVecConst 0#i.width)) := by
  have hwidth : rhs.sort.bitvecWidth = some i.width := by
    rw [hr.1]
    rfl
  unfold emitDivisionByZeroCheck
  rw [hwidth]
  exact checks_recordViolationGuarded h rfl (by simpa using hr.2)

theorem emitBinopChecks_bump (p : Place) (isSigned : Option Bool) :
    (S.bump p).emitBinopChecks f config op lhs rhs isSigned =
      (S.emitBinopChecks f config op lhs rhs isSigned).bump p := by
  have hoverflow : ∀ (S : StatementCodegen) (signed : Bool),
      (S.bump p).emitOverflowCheck f config op lhs rhs signed =
        (S.emitOverflowCheck f config op lhs rhs signed).bump p := by
    intro S signed
    unfold emitOverflowCheck
    split
    · exact recordViolationGuarded_bump p
    · rfl
  have hzero : ∀ (S : StatementCodegen) (label : Label),
      (S.bump p).emitDivisionByZeroCheck f config rhs label =
        (S.emitDivisionByZeroCheck f config rhs label).bump p := by
    intro S label
    unfold emitDivisionByZeroCheck
    split
    · exact recordViolationGuarded_bump p
    · rfl
  unfold emitBinopChecks
  split_ifs <;> simp only [hzero, hoverflow]

/-- The operators on Booleans need no checks. -/
theorem emitBinopChecks_bool (hop : opOn op .bool = true) (isSigned : Option Bool) :
    S.emitBinopChecks f config op lhs rhs isSigned = S := by
  cases op <;> first | rfl | cases hop

/-- Where a check of a binary operator fails. -/
def BinopFails (op : BinOp) (i : IntTy) (lhs rhs : Expr) (ν : T.Env) : Prop :=
  isDivision op = true ∧ Holds ν (.eq rhs (.bitVecConst 0#i.width)) ∨
    (isDivision op = true ∧ i.signed = true ∨ isUnchecked op = true) ∧
      Overflows op lhs rhs i.signed ν

theorem checks_emitBinopChecks {i : IntTy} (h : S.Wf f config)
    (hl : Typed (S.Known f config) lhs (.int i)) (hr : Typed (S.Known f config) rhs (.int i)) :
    Checks f config S (S.emitBinopChecks f config op lhs rhs (some i.signed))
      fun _ ν => BinopFails op i lhs rhs ν := by
  have hunchecked : isDivision op = true → isUnchecked op = false := by
    cases op <;> simp [isDivision, isUnchecked]
  unfold emitBinopChecks BinopFails
  by_cases hdiv : isDivision op = true
  · rw [if_pos hdiv, hunchecked hdiv, if_neg Bool.false_ne_true]
    have hzero := checks_emitDivisionByZeroCheck
      (if op = .rem then .modByZeroCheck else .divByZeroCheck) h hr
    have hknown := hzero.grows.extension.1
    cases hs : i.signed with
    | false =>
      rw [if_neg (by simp [hdiv])]
      exact hzero.congr fun T ν => by simp [hdiv]
    | true =>
      rw [if_pos (by simp [hdiv])]
      exact (hzero.trans (checks_emitOverflowCheck hzero.grows.wf (hl.mono hknown)
        (hr.mono hknown) true)).congr fun T ν => by simp [hdiv]
  · have hsigned : (isDivision op && some i.signed == some true) = false := by simp [hdiv]
    simp only [if_neg hdiv, hsigned, if_neg Bool.false_ne_true]
    by_cases hun : isUnchecked op = true
    · rw [if_pos hun]
      exact (checks_emitOverflowCheck h hl hr _).congr fun T ν => by simp [hdiv, hun]
    · rw [if_neg hun]
      exact (Checks.refl h).congr fun T ν => by simp [hdiv, hun]

/-- The operators that may overflow have a check. -/
theorem exists_overflowCheck {w : ℕ} (signed : Bool) (hl : lhs.sort = .bitvec w)
    (hr : rhs.sort = .bitvec w) (hop : isDivision op = true ∧ signed = true ∨
      isUnchecked op = true ∨ op = .add ∨ op = .sub ∨ op = .mul) :
    ∃ c label, overflowCheck op lhs rhs signed = some (c, label) := by
  rw [overflowCheck, coerceToMaxWidth_of_sort (hl.trans hr.symm)]
  cases op <;> simp [isDivision, isUnchecked, hl, SmtSort.bitvecWidth] at hop ⊢ <;>
    first | (subst hop; simp) | (cases signed <;> simp)

/-- The checks of an operator fail where it is not defined. -/
theorem binopFails_iff {i : IntTy} {x y : BitVec i.width} (hop : opOn op (.int i) = true)
    (hl : lhs.eval ν = (Scalar.int i x).toVal) (hr : rhs.eval ν = (Scalar.int i y).toVal) :
    BinopFails op i lhs rhs ν ↔ ¬ (op.mir i (i.read x) (i.read y)).isSome = true := by
  have hoverflow : isDivision op = true ∧ i.signed = true ∨ isUnchecked op = true →
      ∃ z c label, exact op (i.read x) (i.read y) = some z ∧
        overflowCheck op lhs rhs i.signed = some (c, label) := by
    intro hcase
    obtain ⟨c, label, hc⟩ := exists_overflowCheck i.signed (sort_of_toVal hl) (sort_of_toVal hr)
      (hcase.imp_right .inl)
    obtain ⟨z, hz⟩ : ∃ z, exact op (i.read x) (i.read y) = some z := by
      cases op <;> simp [isDivision, isUnchecked, exact] at hcase ⊢
    exact ⟨z, c, label, hz, hc⟩
  rw [isSome_mir hop, BinopFails, holds_eq_zero hr, not_and_or]
  refine or_congr (by simp) ?_
  constructor
  · rintro ⟨hcase, c, label, hc, hnot⟩ hrange
    obtain ⟨z, -, -, hz, -⟩ := hoverflow hcase
    exact hnot ((holds_overflowCheck hl hr hz hc).2 (hrange (hcase.imp_left And.left) z hz))
  · intro hrange
    simp only [not_forall] at hrange
    obtain ⟨hcase, z, hz, hnot⟩ := hrange
    have hsigned : isDivision op = true ∧ i.signed = true ∨ isUnchecked op = true := by
      refine hcase.imp_left fun hdiv => ⟨hdiv, ?_⟩
      by_contra hs
      exact hnot (inRange_exact_of_unsigned hdiv (by simpa using hs) hz)
    obtain ⟨z', c, label, hz', hc⟩ := hoverflow hsigned
    obtain rfl : z' = z := by simpa [hz] using hz'.symm
    exact ⟨hsigned, c, label, hc, fun hholds => hnot ((holds_overflowCheck hl hr hz hc).1 hholds)⟩

end Binop

/-! ### Right-hand sides -/

section Rvalues

variable {rhs : Rvalue} {bad : (T : Theory) → T.Env → Prop}

variable (f config) in
/-- What the translation of a right-hand side comes to: a term of its type and the checks that
come with it. -/
structure Translates (S S' : StatementCodegen) (rhs : Rvalue) (t : ScalarTy) (e : Expr)
    (bad : (T : Theory) → T.Env → Prop) : Prop where
  eq : S.codegenRvalue f config rhs = (e, S')
  /-- The version that is assigned is taken before. -/
  bump : ∀ p, (S.bump p).codegenRvalue f config rhs = (e, S'.bump p)
  typed : Typed (S.Known f config) e t
  checks : Checks f config S S' bad
  outcome : ∀ {T : Theory} {ν : T.Env} {σ : Store}, Live f ν S σ →
    Outcome (evalRvalue σ rhs) (fun s => ¬ bad T ν ∧ e.eval ν = s.toVal)
      fun stop => stop = .failed ∧ bad T ν

theorem currentEnv_bump (p : Place) : (S.bump p).currentEnv = S.currentEnv := rfl

theorem codegenOperand_bump (hreads : ∀ p ∈ o.reads, S.currentEnv.Has p) (p : Place) :
    (S.bump p).codegenOperand f config o = (S.term f config o, S.bump p) := by
  rw [codegenOperand_eq (by exact hreads), term_congr hreads (currentEnv_bump p)]

/-- The cast of an operand. -/
theorem codegenCast_eq (hreads : ∀ p ∈ o.reads, S.currentEnv.Has p)
    (ho : f.operandTy o = some t) (u : ScalarTy) :
    S.codegenCast f config o u = (castTerm (S.term f config o) t.signed u.sort, S) := by
  rw [codegenCast, codegenOperand_eq hreads, Function.operandSignedness, ho]
  rfl

theorem translates_use (h : S.Wf f config) (ho : f.operandTy o = some t)
    (hreads : ∀ p ∈ o.reads, S.currentEnv.Has p) :
    Translates f config S S (.use o) t (S.term f config o) fun _ _ => False where
  eq := codegenOperand_eq hreads
  bump := codegenOperand_bump hreads
  typed := typed_term h hreads ho
  checks := .refl h
  outcome hS := (outcome_evalOperand config hS _).mono (fun _ hs => ⟨not_false, hs⟩) fun _ => id

theorem translates_cast {u : IntTy} (h : S.Wf f config) (ho : f.operandTy o = some t)
    (hreads : ∀ p ∈ o.reads, S.currentEnv.Has p) :
    Translates f config S S (.cast o u) (.int u)
      (castTerm (S.term f config o) t.signed (ScalarTy.int u).sort) fun _ _ => False where
  eq := codegenCast_eq hreads ho _
  bump p := by
    rw [codegenRvalue, codegenCast_eq (by exact hreads) ho, term_congr hreads (currentEnv_bump p)]
  typed := by
    have hterm := typed_term h hreads ho
    exact ⟨sort_castTerm hterm.1 _, over_castTerm hterm.2 _ _⟩
  checks := .refl h
  outcome {T ν σ} hS := by
    refine (outcome_evalOperand config hS _).bind fun s hs heval => ?_
    obtain rfl : t = s.ty := by simpa [ho] using hS.typed.operand hs
    exact ⟨not_false, eval_castTerm heval u⟩

theorem typed_codegenUnop {uop : UnOp} (he : Typed (S.Known f config) e t)
    (h : uop = .neg → t ≠ .bool) : Typed (S.Known f config) (codegenUnop uop e) t :=
  ⟨sort_codegenUnop he.1 h, over_codegenUnop _ he.2⟩

theorem translates_not (h : S.Wf f config) (ho : f.operandTy o = some t)
    (hreads : ∀ p ∈ o.reads, S.currentEnv.Has p) :
    Translates f config S S (.unaryOp .not o) t (codegenUnop .not (S.term f config o))
      fun _ _ => False where
  eq := by simp [codegenRvalue, codegenOperand_eq hreads]
  bump p := by simp [codegenRvalue, codegenOperand_bump hreads]
  typed := typed_codegenUnop (typed_term h hreads ho) (by simp)
  checks := .refl h
  outcome {T ν σ} hS := by
    refine (outcome_evalOperand config hS _).bind fun s hs heval => ?_
    cases hc : evalUnaryOp .not s with
    | ok c => exact ⟨not_false, eval_codegenUnop heval hc⟩
    | error stop => cases s <;> cases hc

theorem translates_neg {i : IntTy} (h : S.Wf f config) (ho : f.operandTy o = some (.int i))
    (hsigned : i.signed = true) (hreads : ∀ p ∈ o.reads, S.currentEnv.Has p) :
    Translates f config S (S.emitNegOverflowCheck f config (S.term f config o)) (.unaryOp .neg o)
      (.int i) (codegenUnop .neg (S.term f config o))
      fun _ ν => ¬ Holds ν (.app .bvNegNoOverflow [S.term f config o]) where
  eq := by
    simp [codegenRvalue, codegenOperand_eq hreads, Function.operandSignedness, ho,
      ScalarTy.signed, hsigned]
  bump p := by
    simp [codegenRvalue, codegenOperand_bump hreads, Function.operandSignedness, ho,
      ScalarTy.signed, hsigned, emitNegOverflowCheck, recordViolationGuarded_bump]
  typed := typed_codegenUnop (typed_term h hreads ho) (by simp)
  checks := by
    refine (checks_recordViolationGuarded h rfl ?_).congr fun T ν => holds_not
    simpa using (typed_term h hreads ho).2
  outcome {T ν σ} hS := by
    refine (outcome_evalOperand config hS _).bind fun s hs heval => ?_
    have hty : ScalarTy.int i = s.ty := by simpa [ho] using hS.typed.operand hs
    cases s with
    | bool b => cases hty
    | int u x =>
      cases hty
      rw [holds_negNoOverflow hsigned heval]
      by_cases hrange : i.InRange (-i.read x)
      · have hc : evalUnaryOp .neg (.int i x) = .ok (.int i (i.wrap (-i.read x))) := by
          simp [evalUnaryOp, hsigned, hrange]
        rw [hc]
        exact ⟨not_not.2 hrange, eval_codegenUnop heval hc⟩
      · have hc : evalUnaryOp .neg (.int i x) = .error .failed := by
          simp [evalUnaryOp, hsigned, hrange]
        rw [hc]
        exact ⟨rfl, hrange⟩

/-- The condition under which a check of a binary operator fails, at a type. -/
def OperatorFails (op : BinOp) (t : ScalarTy) (lhs rhs : Expr) (ν : T.Env) : Prop :=
  ∃ i, t = .int i ∧ BinopFails op i lhs rhs ν

theorem checks_operator {lhs rhs : Expr} (h : S.Wf f config) (hop : opOn op t = true)
    (hl : Typed (S.Known f config) lhs t) (hr : Typed (S.Known f config) rhs t) :
    Checks f config S (S.emitBinopChecks f config op lhs rhs (some t.signed))
      fun _ ν => OperatorFails op t lhs rhs ν := by
  cases t with
  | bool =>
    rw [emitBinopChecks_bool hop]
    exact (Checks.refl h).congr fun T ν => by simp [OperatorFails]
  | int i =>
    exact (checks_emitBinopChecks h hl hr).congr fun T ν => by simp [OperatorFails]

/-- The operators on values: the result, or a failed check. -/
theorem outcome_evalBinaryOp {lhs rhs : Expr} {a b : Scalar} (hop : opOn op a.ty = true)
    (hl : lhs.eval ν = a.toVal) (hr : rhs.eval ν = b.toVal) (hty : b.ty = a.ty) :
    Outcome (evalBinaryOp op a b)
      (fun s => ¬ OperatorFails op a.ty lhs rhs ν ∧
        (codegenBinopTyped op lhs rhs a.ty.signed).eval ν = s.toVal)
      fun stop => stop = .failed ∧ OperatorFails op a.ty lhs rhs ν := by
  cases a with
  | bool v =>
    cases b with
    | int u y => cases hty
    | bool w =>
      cases hc : evalBinaryOp op (.bool v) (.bool w) with
      | ok c => exact ⟨by simp [OperatorFails, Scalar.ty], eval_codegenBinopTyped hl hr hop hc⟩
      | error stop =>
        obtain rfl : stop = .wrong := by
          cases op <;> cases hc <;> rfl
        trivial
  | int u x =>
    cases b with
    | bool w => cases hty
    | int u' y =>
      cases hty
      have hfails : OperatorFails op (.int u) lhs rhs ν ↔
          ¬ (op.mir u (u.read x) (u.read y)).isSome = true := by
        simpa [OperatorFails] using binopFails_iff hop hl hr
      have heval : evalBinaryOp op (.int u x) (.int u y) =
          evalIntOp op u (u.read x) (u.read y) := by
        simp only [evalBinaryOp, if_true]
      rcases evalIntOp_cases hop (u.read x) (u.read y) with ⟨⟨c, hok⟩, hsome⟩ | ⟨herror, hnone⟩
      · rw [heval, hok]
        exact ⟨fun h => hfails.1 h hsome, eval_codegenBinopTyped hl hr hop (heval.trans hok)⟩
      · rw [heval, herror]
        exact ⟨rfl, hfails.2 hnone⟩

theorem translates_binaryOp (h : S.Wf f config) (hl : f.operandTy l = some t)
    (hr : f.operandTy r = some t) (hop : opOn op t = true)
    (hreads : ∀ p ∈ l.reads ++ r.reads, S.currentEnv.Has p) :
    Translates f config S
      (S.emitBinopChecks f config op (S.term f config l) (S.term f config r) (some t.signed))
      (.binaryOp op l r) (resultTy op t)
      (codegenBinopTyped op (S.term f config l) (S.term f config r) t.signed)
      fun _ ν => OperatorFails op t (S.term f config l) (S.term f config r) ν := by
  have hreadsl : ∀ p ∈ l.reads, S.currentEnv.Has p := fun p hp =>
    hreads p (List.mem_append_left _ hp)
  have hreadsr : ∀ p ∈ r.reads, S.currentEnv.Has p := fun p hp =>
    hreads p (List.mem_append_right _ hp)
  have htl := typed_term h hreadsl hl
  have htr := typed_term h hreadsr hr
  -- the operands are cast to their own type
  have hty : f.binopOperandTy op l r = some t := by
    rw [Function.binopOperandTy, Function.rvalueTy, hl, Option.map_some, resultTy]
    split_ifs
    · rfl
    · cases t <;> rfl
  have hsigned := isSignedIntegerOp_eq hl hr
  have hterms : ∀ S' : StatementCodegen, S'.currentEnv = S.currentEnv →
      S'.codegenRvalue f config (.binaryOp op l r) =
        (codegenBinopTyped op (S.term f config l) (S.term f config r) t.signed,
          S'.emitBinopChecks f config op (S.term f config l) (S.term f config r)
            (some t.signed)) := by
    intro S' henv
    simp only [codegenRvalue, hty, hsigned, codegenCast_eq (S := S') (henv ▸ hreadsl) hl,
      codegenCast_eq (S := S') (henv ▸ hreadsr) hr, term_congr hreadsl henv,
      term_congr hreadsr henv, castTerm_self htl.1, castTerm_self htr.1, Option.getD_some]
  exact {
    eq := hterms S rfl
    bump := fun p => by rw [hterms (S.bump p) rfl, emitBinopChecks_bump]
    typed := ⟨sort_codegenBinopTyped htl.1 htr.1 hop,
      over_codegenBinopTyped (htl.1.trans htr.1.symm) hop htl.2 htr.2 _⟩
    checks := checks_operator h hop htl htr
    outcome := fun {T ν σ} hS => by
      refine (outcome_evalOperand config hS _).bind fun a ha hevala => ?_
      refine (outcome_evalOperand config hS _).bind fun b hb hevalb => ?_
      obtain rfl : t = a.ty := by simpa [hl] using hS.typed.operand ha
      have htyb : a.ty = b.ty := by simpa [hr] using hS.typed.operand hb
      exact outcome_evalBinaryOp hop hevala hevalb htyb.symm }

/-- **Right-hand sides.** -/
theorem codegenRvalue_spec (h : S.Wf f config) (hty : f.typedRvalue rhs = true)
    (ht : f.rvalueTy rhs = some t) (hreads : ∀ p ∈ rhs.reads, S.currentEnv.Has p) :
    ∃ e S' bad, Translates f config S S' rhs t e bad := by
  cases rhs with
  | use o => exact ⟨_, _, _, translates_use h ht hreads⟩
  | cast o u =>
    obtain ⟨t', ho⟩ := Option.isSome_iff_exists.1 hty
    cases ht
    exact ⟨_, _, _, translates_cast h ho hreads⟩
  | checkedBinaryOp op l r => cases hty
  | unaryOp op o =>
    have ho : f.operandTy o = some t := ht
    rw [Function.typedRvalue, ho] at hty
    cases op with
    | not => exact ⟨_, _, _, translates_not h ho hreads⟩
    | ptrMetadata => cases t <;> cases hty
    | neg =>
      cases t with
      | bool => cases hty
      | int i => exact ⟨_, _, _, translates_neg h ho (by simpa using hty) hreads⟩
  | binaryOp op l r =>
    cases hl : f.operandTy l with
    | none => simp [Function.typedRvalue, hl] at hty
    | some t' =>
      simp only [Function.typedRvalue, hl, Bool.and_eq_true, beq_iff_eq] at hty
      obtain rfl : resultTy op t' = t := by simpa [Function.rvalueTy, hl] using ht
      exact ⟨_, _, _, translates_binaryOp h hl hty.1 hty.2 hreads⟩

end Rvalues

end StatementCodegen

end TrustMc.Bmc
