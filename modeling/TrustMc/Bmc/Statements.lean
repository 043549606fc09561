import TrustMc.Bmc.Agrees

/-!
# Statements

The assignments of a block: every one of them defines versions of the places that it writes, and
the encoded run goes on with the store of the run or flags the check that fails.

`codegenStatements_spec`: the statements of a block.
-/

namespace TrustMc.Bmc

open LoopUnroll Arithmetic Machine Carriers Carriers.Val TrustMc.Expr

/-- A formula that holds under a condition has its truth value. -/
theorem eval_of_holds_iff {T : Theory} {ν : T.Env} {e : Expr} {p : Prop} [Decidable p]
    (hsort : e.sort = .bool) (h : Holds ν e ↔ p) :
    e.eval ν = (Scalar.bool (decide p)).toVal := by
  rw [← ofBool_toBool (v := e.eval ν) ((eval_sort e ν).trans hsort), Scalar.toVal, ofBool_inj,
    Bool.eq_iff_iff, decide_eq_true_eq]
  exact h

namespace StatementCodegen

variable {f : Function} {config : Config} {S S' S'' : StatementCodegen}
  {exec exec' : Store → Except Stop Store}

variable (f config) in
/-- A part of a block without assumptions: the places that it writes, and what it does to a
run. -/
structure Runs (S S' : StatementCodegen) (written : List Place)
    (exec : Store → Except Stop Store) : Prop where
  grows : Grows f config S S'
  nameCounter : S'.nameCounter = S.nameCounter
  writes : ∀ p ∈ written, S'.currentEnv.Has p
  outcome : ∀ {T : Theory} {ν : T.Env} {σ : Store}, Live f ν S σ → Meets ν S' →
    Outcome (exec σ) (Live f ν S') fun stop => stop = .failed ∧ Flagged ν S'

namespace Runs

variable {written written' : List Place}

theorem refl (h : S.Wf f config) : Runs f config S S [] .ok where
  grows := .refl h
  nameCounter := rfl
  writes := by simp
  outcome hS _ := hS

theorem trans (h : Runs f config S S' written exec) (h' : Runs f config S' S'' written' exec') :
    Runs f config S S'' (written ++ written') fun σ => exec σ >>= exec' where
  grows := h.grows.trans h'.grows
  nameCounter := h'.nameCounter.trans h.nameCounter
  writes p hp :=
    (List.mem_append.1 hp).elim (fun hp => h'.grows.places p (h.writes p hp)) (h'.writes p)
  outcome {T ν σ} hS hν := by
    have hfirst := h.outcome hS (h'.grows.meets hν)
    have hflag : ∀ stop : Stop, stop = .failed ∧ Flagged ν S' → stop = .failed ∧ Flagged ν S'' :=
      fun stop hstop => ⟨hstop.1, h'.grows.flagged hstop.2⟩
    exact (hfirst.mono (fun _ => id) hflag).bind fun σ' _ hσ => h'.outcome hσ hν

end Runs

section Assign

variable {p : Place} {e : Expr} {s : Scalar} {T : Theory} {ν : T.Env} {σ : Store} {l : ℕ}
  {rhs : Rvalue} {t : ScalarTy}

/-- The assigned place has the new value. -/
theorem Live.bindFresh (hS : Live f ν S σ) (h : S.Wf f config) (hp : f.placeTy p = some s.ty)
    (hover : e.Over (S.Known f config)) (hs : e.eval ν = s.toVal)
    (hν : Meets ν (S.bindFresh f config p e)) :
    Live f ν (S.bindFresh f config p e) (σ.set p s) := by
  have hsort : e.sort = f.placeSort p := by
    rw [sort_of_toVal hs, Function.placeSort, hp]
  have heval := (eval_bindFresh h hsort hover hν hS.active.1).trans hs
  have hgrows := grows_bindFresh h hsort hover
  obtain ⟨value, -, -, -, heq⟩ := bindFresh_spec h hsort hover
  refine ⟨hS.typed.set hp, ?_, ?_, ?_⟩
  · have hactive := hS.active
    rw [heq]
    exact hactive
  · have hsafe := hS.safe
    rw [heq]
    exact hsafe
  · intro q s' hq
    rw [currentEnv_bindFresh, Env.lookup_cons]
    rcases eq_or_ne q p with rfl | hne
    · obtain rfl : s = s' := by simpa [Store.set] using hq
      exact ⟨_, if_pos rfl, heval⟩
    · rw [if_neg hne]
      exact hS.agrees q s' (by simpa [Store.set, hne] using hq)

theorem nameCounter_bindFresh : (S.bindFresh f config p e).nameCounter = S.nameCounter := by
  simp only [StatementCodegen.bindFresh, bindVersion, assertSsaDef, bump, nextSsaVersion]
  split <;> rfl

/-- An assignment of a right-hand side that is translated. -/
theorem runs_bindFresh {bad : (T : Theory) → T.Env → Prop} (h : Translates f config S S' rhs t e bad)
    (hty : f.typedRvalue rhs = true) (ht : f.rvalueTy rhs = some t)
    (hp : f.placeTy (.bare l) = some t) :
    Runs f config S (S'.bindFresh f config (.bare l) e) [.bare l]
      fun σ => do return σ.set (.bare l) (← evalRvalue σ rhs) := by
  have htyped := h.typed.mono h.checks.grows.extension.1
  have hsort : e.sort = f.placeSort (.bare l) := by
    rw [htyped.1, Function.placeSort, hp]
  have hbind := grows_bindFresh h.checks.grows.wf hsort htyped.2
  refine ⟨h.checks.grows.trans hbind, nameCounter_bindFresh.trans h.checks.nameCounter, ?_, ?_⟩
  · intro p hp
    obtain rfl := List.mem_singleton.1 hp
    rw [currentEnv_bindFresh]
    exact Env.has_cons_self
  · intro T ν σ hS hν
    have hν' := hbind.meets hν
    have hflag : ∀ stop : Stop, stop = .failed ∧ bad T ν →
        stop = .failed ∧ Flagged ν (S'.bindFresh f config (.bare l) e) :=
      fun stop hstop => ⟨hstop.1, hbind.flagged (h.checks.flag hν' hS hstop.2)⟩
    refine ((h.outcome hS).mono (fun _ => id) hflag).bind fun s hs hgood => ?_
    obtain ⟨hgood, heval⟩ := hgood
    have hs : f.placeTy (.bare l) = some s.ty := by
      rw [hp, ← ht, hS.typed.rvalue hty hs]
    exact (h.checks.live hν' hS hgood).bindFresh h.checks.grows.wf hs htyped.2 heval hν

/-- The right-hand side is translated after its version is taken. -/
theorem codegenAssign_eq {bad : (T : Theory) → T.Env → Prop}
    (h : Translates f config S S' rhs t e bad) (hty : f.typedRvalue rhs = true) :
    S.codegenAssign f config l rhs = S'.bindFresh f config (.bare l) e := by
  have hassign : S.codegenAssign f config l rhs =
      ((S.bump (.bare l)).codegenRvalue f config rhs).2.bindVersion f config (.bare l)
        (S.ssaVersion (.bare l)) ((S.bump (.bare l)).codegenRvalue f config rhs).1 := by
    cases rhs with
    | checkedBinaryOp op a b => cases hty
    | _ => rfl
  rw [hassign, h.bump, StatementCodegen.bindFresh, h.checks.ssaVersion]

end Assign

/-! ### Checked operations -/

section Checked

variable {op : BinOp} {a b : Operand} {i : IntTy} {l : ℕ} {lhs rhs : Expr}

/-- The operators of checked operations. -/
def isChecked (op : BinOp) : Bool := op == .add || op == .sub || op == .mul

theorem isChecked_iff : isChecked op = true ↔ op = .add ∨ op = .sub ∨ op = .mul := by
  simp [isChecked, or_assoc]

/-- The wrapped result of a checked operation. -/
theorem evalBinaryOp_checked {x y : BitVec i.width} {z : ℤ} (hop : isChecked op = true)
    (hz : exact op (i.read x) (i.read y) = some z) :
    evalBinaryOp op (.int i x) (.int i y) = .ok (.int i (i.wrap z)) := by
  rcases isChecked_iff.1 hop with rfl | rfl | rfl <;> cases hz <;>
    simp [evalBinaryOp, evalIntOp, BinOp.mir]

theorem opOn_checked (hop : isChecked op = true) (i : IntTy) : opOn op (.int i) = true := by
  rcases isChecked_iff.1 hop with rfl | rfl | rfl <;> rfl

theorem resultTy_checked (hop : isChecked op = true) (t : ScalarTy) : resultTy op t = t := by
  rcases isChecked_iff.1 hop with rfl | rfl | rfl <;> simp [resultTy]

/-- The exact result of an operator on the values of its operands. -/
theorem outcome_evalExact {T : Theory} {ν : T.Env} {σ : Store} (hS : Live f ν S σ)
    (ha : f.operandTy a = some (.int i)) (stop : Stop → Prop) :
    Outcome (evalExact σ op a b) (fun r => r.1 = i ∧ ∃ x y : BitVec i.width,
      evalOperand σ a = .ok (.int i x) ∧ evalOperand σ b = .ok (.int i y) ∧
        exact op (i.read x) (i.read y) = some r.2) stop := by
  unfold evalExact
  split
  · rename_i t x u y hx hy
    have hty := hS.typed.operand hx
    obtain rfl : i = t := by simpa [ha, Scalar.ty] using hty
    split
    · rename_i z hz
      split_ifs with hu
      · subst hu
        exact ⟨rfl, x, y, hx, hy, hz⟩
      · trivial
    · trivial
  · trivial

/-- A checked operation writes the wrapped result and whether it overflowed. -/
theorem runs_codegenAssignCheckedBinaryOp (h : S.Wf f config) (hop : isChecked op = true)
    (hl : f.localTy l = some (.checkedPair i)) (ha : f.operandTy a = some (.int i))
    (hb : f.operandTy b = some (.int i)) (hreads : ∀ p ∈ a.reads ++ b.reads, S.currentEnv.Has p) :
    Runs f config S (S.codegenAssignCheckedBinaryOp f config l op a b) [.field l 0, .field l 1]
      fun σ => execStatement σ (.assign l (.checkedBinaryOp op a b)) := by
  have hreadsa : ∀ p ∈ a.reads, S.currentEnv.Has p := fun p hp =>
    hreads p (List.mem_append_left _ hp)
  have hreadsb : ∀ p ∈ b.reads, S.currentEnv.Has p := fun p hp =>
    hreads p (List.mem_append_right _ hp)
  have hta := typed_term h hreadsa ha
  have htb := typed_term h hreadsb hb
  have hsigned : f.isSignedIntegerOp a b = some i.signed := isSignedIntegerOp_eq ha hb
  obtain ⟨c, label, hc⟩ :=
    exists_overflowCheck i.signed hta.1 htb.1 (.inr (.inr (isChecked_iff.1 hop)))
  obtain ⟨-, hcover⟩ := overflowCheck_spec (hta.1.trans htb.1.symm) hc
  have hp0 := Function.placeTy_field_zero hl
  have hp1 := Function.placeTy_field_one hl
  set value := codegenBinopTyped op (S.term f config a) (S.term f config b) i.signed with hvalue
  have heq : S.codegenAssignCheckedBinaryOp f config l op a b =
      (S.bindFresh f config (.field l 0) value).bindFresh f config (.field l 1) (.not c) := by
    simp only [codegenAssignCheckedBinaryOp, hsigned, Option.getD_some,
      codegenOperand_eq hreadsa, codegenOperand_eq hreadsb, hc]
    rfl
  have hsort0 : value.sort = f.placeSort (.field l 0) := by
    rw [hvalue, show i.signed = (ScalarTy.int i).signed from rfl,
      sort_codegenBinopTyped hta.1 htb.1 (opOn_checked hop i), resultTy_checked hop,
      Function.placeSort, hp0]
  have hover0 : value.Over (S.Known f config) :=
    over_codegenBinopTyped (hta.1.trans htb.1.symm) (opOn_checked hop i) hta.2 htb.2 _
  have hgrows0 := grows_bindFresh h hsort0 hover0
  have hsort1 : (Expr.not c).sort = f.placeSort (.field l 1) := by
    rw [Function.placeSort, hp1]
    rfl
  have hover1 : (Expr.not c).Over
      ((S.bindFresh f config (.field l 0) value).Known f config) := by
    simpa using (hcover hta.2 htb.2).mono hgrows0.extension.1
  have hgrows1 := grows_bindFresh hgrows0.wf hsort1 hover1
  rw [heq]
  refine ⟨hgrows0.trans hgrows1, nameCounter_bindFresh.trans nameCounter_bindFresh, ?_, ?_⟩
  · intro p hp
    rw [currentEnv_bindFresh, currentEnv_bindFresh]
    simp only [List.mem_cons, List.not_mem_nil, or_false] at hp
    rcases hp with rfl | rfl
    · exact Env.has_cons_self.cons
    · exact Env.has_cons_self
  · intro T ν σ hS hν
    have hν0 := hgrows1.meets hν
    refine (outcome_evalExact hS ha _).bind ?_
    rintro ⟨_, z⟩ - ⟨rfl, x, y, hx, hy, hz⟩
    have hevala := hS.eval_term config hx
    have hevalb := hS.eval_term config hy
    have hfirst := hS.bindFresh h (s := .int _ (IntTy.wrap _ z)) hp0 hover0
      (eval_codegenBinopTyped hevala hevalb (opOn_checked hop _) (evalBinaryOp_checked hop hz)) hν0
    refine hfirst.bindFresh hgrows0.wf (s := .bool _) hp1 hover1
      (eval_of_holds_iff rfl ?_) hν
    rw [holds_not, holds_overflowCheck hevala hevalb hz hc]

end Checked

/-! ### Statements -/

section Block

variable {stmt : Statement} {stmts : List Statement}

/-- **Statements.** -/
theorem codegenStatement_spec (h : S.Wf f config) (hty : f.typedStatement stmt = true)
    (hreads : ∀ p ∈ stmt.reads, S.currentEnv.Has p) :
    Runs f config S (S.codegenStatement f config stmt) stmt.writes
      fun σ => execStatement σ stmt := by
  cases stmt with
  | nop => exact .refl h
  | assign l rhs =>
    by_cases hchecked : ∃ op a b, rhs = .checkedBinaryOp op a b
    · obtain ⟨op, a, b, rfl⟩ := hchecked
      simp only [Function.typedStatement] at hty
      split at hty
      · rename_i i hl
        simp only [Bool.and_eq_true, beq_iff_eq] at hty
        exact runs_codegenAssignCheckedBinaryOp h hty.2 hl hty.1.1 hty.1.2 hreads
      · cases hty
    · obtain ⟨t, hl, hrhs, htyped⟩ : ∃ t, f.localTy l = some (.scalar t) ∧
          f.rvalueTy rhs = some t ∧ f.typedRvalue rhs = true := by
        cases rhs with
        | checkedBinaryOp op a b => exact absurd ⟨op, a, b, rfl⟩ hchecked
        | _ =>
          simp only [Function.typedStatement] at hty
          split at hty
          · rename_i t hl
            simp only [Bool.and_eq_true, beq_iff_eq] at hty
            exact ⟨t, hl, hty⟩
          · cases hty
      obtain ⟨e, S', bad, htrans⟩ := codegenRvalue_spec h htyped hrhs hreads
      have hruns := runs_bindFresh htrans htyped hrhs (Function.placeTy_bare hl)
      rw [codegenStatement, codegenAssign_eq htrans htyped]
      cases rhs with
      | checkedBinaryOp op a b => exact absurd ⟨op, a, b, rfl⟩ hchecked
      | _ => exact hruns

/-- **The statements of a block**, which read what is assigned before them. -/
theorem codegenStatements_spec {A : Place → Prop} (h : S.Wf f config)
    (hty : ∀ stmt ∈ stmts, f.typedStatement stmt = true) (hreads : ReadsWithin A stmts)
    (hA : ∀ p, A p → S.currentEnv.Has p) :
    Runs f config S (stmts.foldl (codegenStatement f config) S)
      (stmts.flatMap Statement.writes) fun σ => stmts.foldlM execStatement σ := by
  induction stmts generalizing S A with
  | nil => exact .refl h
  | cons stmt stmts ih =>
    have hfirst := codegenStatement_spec h (hty stmt List.mem_cons_self)
      fun p hp => hA p (hreads.1 p hp)
    refine hfirst.trans (ih hfirst.grows.wf (fun s hs => hty s (List.mem_cons_of_mem _ hs))
      hreads.2 fun p hp => ?_)
    rcases hp with hp | ⟨s, hs, hp⟩
    · exact hfirst.grows.places p (hA p hp)
    · obtain rfl := List.mem_singleton.1 hs
      exact hfirst.writes p hp

end Block

end StatementCodegen

end TrustMc.Bmc
