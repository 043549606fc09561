import TrustMc.Bmc.Statements

/-!
# Terminators

The end of a block: the hooks of the library, the switches and the assertions. The encoded run
takes the edges to the block that the run goes on with, and no other.

`codegenTerminator_spec`: every terminator.
-/

namespace TrustMc.Bmc

open LoopUnroll Arithmetic Machine Carriers Carriers.Val TrustMc.Expr

namespace StatementCodegen

variable {f : Function} {config : Config} {S S' : StatementCodegen} {T : Theory} {ν : T.Env}
  {σ : Store} {s : Scalar} {t : ScalarTy} {o : Operand} {e : Expr}

/-! ### Assumptions and assertions -/

/-- How a hook ends a run. -/
def HookStops (ν : T.Env) (S : StatementCodegen) (stop : Stop) : Prop :=
  stop = .failed ∧ Flagged ν S ∨ stop = .blocked ∧ ¬ Assumes ν S ∧ ¬ Flagged ν S

/-- A condition that holds is assumed without effect; elsewhere nothing is assumed any more. -/
theorem Live.assume (hS : Live f ν S σ) (hν : Meets ν (S.assume f config e)) :
    (Holds ν e → Live f ν (S.assume f config e) σ) ∧
      (¬ Holds ν e → ¬ Assumes ν (S.assume f config e) ∧ ¬ Flagged ν (S.assume f config e)) := by
  refine ⟨fun he => ⟨hS.typed, ⟨hS.active.1, ?_⟩, hS.safe, hS.agrees⟩, fun he => ⟨?_, hS.safe⟩⟩
  · exact (assumes_assume hν).2 ⟨hS.active.2, fun _ => he⟩
  · exact fun hassumes => he (((assumes_assume hν).1 hassumes).2 hS.active.1)

variable (config) in
/-- Reading a condition. -/
theorem outcome_evalBool (hS : Live f ν S σ) (stop : Stop → Prop) :
    Outcome (evalBool σ o) (fun b => Holds ν (S.term f config o) ↔ b = true) stop := by
  unfold evalBool
  have hread := outcome_evalOperand (o := o) config hS stop
  cases ho : evalOperand σ o with
  | ok s =>
    rw [ho] at hread
    cases s with
    | bool b => exact holds_of_toVal hread
    | int u x => trivial
  | error stop' =>
    rw [evalOperand_error ho]
    trivial

theorem outcome_require {stop : Stop} {ok : Bool} {post : Store → Prop} {stops : Stop → Prop}
    (hok : ok = true → post σ) (hstop : ok = false → stops stop) :
    Outcome (require stop ok σ) post stops := by
  cases ok with
  | true => exact hok rfl
  | false =>
    cases stop <;> first | trivial | exact hstop rfl

theorem codegenKaniAssume_eq {args : List Operand} (hreads : ∀ p ∈ o.reads, S.currentEnv.Has p) :
    S.codegenKaniAssume f config (o :: args) = S.assume f config (S.term f config o) := by
  rw [codegenKaniAssume, codegenOperand_eq hreads]

theorem codegenKaniAssert_eq {args : List Operand} (hreads : ∀ p ∈ o.reads, S.currentEnv.Has p) :
    S.codegenKaniAssert f config (o :: args) =
      S.recordViolationGuarded f config (.not (S.term f config o)) .kaniAssert := by
  rw [codegenKaniAssert, codegenOperand_eq hreads]

/-- A check of a condition. -/
theorem checks_not_term (label : Label) (h : S.Wf f config) (ho : f.operandTy o = some .bool)
    (hreads : ∀ p ∈ o.reads, S.currentEnv.Has p) :
    Checks f config S
      (S.recordViolationGuarded f config (.not (S.term f config o)) label)
      fun _ ν => ¬ Holds ν (S.term f config o) :=
  (checks_recordViolationGuarded h rfl (by simpa using (typed_term h hreads ho).2)).congr
    fun T ν => holds_not

theorem grows_assume_term (h : S.Wf f config) (ho : f.operandTy o = some .bool)
    (hreads : ∀ p ∈ o.reads, S.currentEnv.Has p) :
    Grows f config S (S.assume f config (S.term f config o)) :=
  grows_assume h (typed_term h hreads ho).1 (typed_term h hreads ho).2

/-! ### Hooks -/

section Hooks

variable {hook : Hook} {args : List Operand} {destination : Place} {input : Input}

variable (f config) in
/-- What the library yields at this point. -/
def Yields (ν : T.Env) (S : StatementCodegen) (input : Input) (p : Place) : Prop :=
  ∀ t, f.placeTy p = some t →
    (var f config (.any S.nameCounter) t.sort).eval ν = (input.at t).toVal

/-- A value of any kind. -/
theorem Live.anyRaw (hS : Live f ν S σ) (hinput : Yields f config ν S input destination)
    (ht : f.placeTy destination = some t) :
    Live f ν (S.codegenKaniAnyRaw f config destination) (σ.set destination (input.at t)) := by
  have hty : (input.at t).ty = t := by cases t <;> rfl
  refine ⟨hS.typed.set (by rw [ht, hty]), hS.active, hS.safe, fun q s hq => ?_⟩
  have henv : (S.codegenKaniAnyRaw f config destination).currentEnv =
      (destination, var f config (.any S.nameCounter) (f.placeSort destination)) ::
        S.currentEnv := rfl
  rw [henv, Env.lookup_cons]
  rcases eq_or_ne q destination with rfl | hne
  · obtain rfl : input.at t = s := by simpa [Store.set] using hq
    refine ⟨_, if_pos rfl, ?_⟩
    rw [Function.placeSort, ht]
    exact hinput t ht
  · rw [if_neg hne]
    exact hS.agrees q s (by simpa [Store.set, hne] using hq)

/-- **Hooks.** -/
theorem codegenHook_spec (h : S.Wf f config) (hty : f.typedHook hook args destination = true)
    (hreads : hook ≠ .anyRaw → ∀ o ∈ args, ∀ p ∈ o.reads, S.currentEnv.Has p) :
    Grows f config S (S.codegenHook f config hook args destination) ∧
      (hook = .anyRaw →
        (S.codegenHook f config hook args destination).currentEnv.Has destination) ∧
      ∀ {T : Theory} {ν : T.Env} {σ : Store} {input : Input}, Live f ν S σ →
        Meets ν (S.codegenHook f config hook args destination) →
        (hook = .anyRaw → Yields f config ν S input destination) →
        Outcome (f.execHook input σ hook args destination)
          (Live f ν (S.codegenHook f config hook args destination))
          (HookStops ν (S.codegenHook f config hook args destination)) := by
  cases hook
  case anyRaw =>
    refine ⟨grows_codegenKaniAnyRaw h, fun _ => Env.has_cons_self, ?_⟩
    intro T ν σ input hS hν hinput
    simp only [Function.execHook]
    split
    · rename_i t ht
      exact hS.anyRaw (hinput rfl) ht
    · trivial
  case initContracts => exact ⟨.refl h, by simp, fun hS _ _ => hS⟩
  case panic | panicStub | unsupportedCheck =>
    refine ⟨grows_recordViolationGuarded h rfl (by simp), by simp, ?_⟩
    intro T ν σ input hS hν _
    exact .inl ⟨rfl, (flagged_recordViolationGuarded hν).2 (.inr ⟨hS.active, by simp⟩)⟩
  case assume =>
    cases args with
    | nil => exact ⟨.refl h, by simp, fun _ _ _ => trivial⟩
    | cons o args =>
      have ho : f.operandTy o = some .bool := by simpa [Function.typedHook] using hty
      have hreads := hreads (by simp) o List.mem_cons_self
      rw [codegenHook, codegenKaniAssume_eq hreads]
      refine ⟨grows_assume_term h ho hreads, by simp, ?_⟩
      intro T ν σ input hS hν _
      refine (outcome_evalBool config hS _).bind fun b _ hb => ?_
      refine outcome_require (fun hok => (hS.assume hν).1 (hb.2 hok)) fun hbad => ?_
      exact .inr ⟨rfl, (hS.assume hν).2 fun hholds => by simp [hb.1 hholds] at hbad⟩
  case check | safetyCheckNoAssume =>
    cases args with
    | nil => exact ⟨grows_recordViolationGuarded h rfl (by simp), by simp, fun _ _ _ => trivial⟩
    | cons o args =>
      have ho : f.operandTy o = some .bool := by simpa [Function.typedHook] using hty
      have hreads := hreads (by simp) o List.mem_cons_self
      have hchecks := checks_not_term .kaniAssert h ho hreads
      rw [codegenHook, codegenKaniAssert_eq hreads]
      refine ⟨hchecks.grows, by simp, ?_⟩
      intro T ν σ input hS hν _
      refine (outcome_evalBool config hS _).bind fun b _ hb => ?_
      refine outcome_require (fun hok => hchecks.live hν hS (not_not.2 (hb.2 hok))) fun hbad => ?_
      exact .inl ⟨rfl, hchecks.flag hν hS fun hholds => by simp [hb.1 hholds] at hbad⟩
  case assert | safetyCheck =>
    cases args with
    | nil => exact ⟨grows_recordViolationGuarded h rfl (by simp), by simp, fun _ _ _ => trivial⟩
    | cons o args =>
      have ho : f.operandTy o = some .bool := by simpa [Function.typedHook] using hty
      have hreads := hreads (by simp) o List.mem_cons_self
      have hchecks := checks_not_term .kaniAssert h ho hreads
      have hreads' := fun p hp => hchecks.grows.places p (hreads p hp)
      rw [codegenHook, codegenKaniAssert_eq hreads, codegenKaniAssume_eq hreads']
      have hgrows := grows_assume_term hchecks.grows.wf ho hreads'
      refine ⟨hchecks.grows.trans hgrows, by simp, ?_⟩
      intro T ν σ input hS hν _
      have hν' := hgrows.meets hν
      have hterm : (S.recordViolationGuarded f config (.not (S.term f config o)) .kaniAssert).term f
          config o = S.term f config o := term_congr hreads hchecks.env
      refine (outcome_evalBool config hS _).bind fun b _ hb => ?_
      refine outcome_require (fun hok => ?_) fun hbad => ?_
      · -- a condition that holds is assumed without effect
        have hlive := hchecks.live hν' hS (not_not.2 (hb.2 hok))
        exact (hlive.assume hν).1 (by rw [hterm]; exact hb.2 hok)
      · exact .inl ⟨rfl, hgrows.flagged
          (hchecks.flag hν' hS fun hholds => by simp [hb.1 hholds] at hbad)⟩

end Hooks

/-! ### Switches -/

section Switch

variable {known : String → Prop} {v v' : ℕ} {conds : List Expr} {branches : List (ℕ × ℕ)}
  {otherwise : ℕ}

/-- The value of a branch is that of the operand. -/
def Matches (s : Scalar) (v : ℕ) : Bool :=
  match s with
  | .bool b => v == b.toNat
  | .int t x => BitVec.ofNat t.width v == x

theorem switchTarget_eq (s : Scalar) (branches : List (ℕ × ℕ)) (otherwise : ℕ) :
    switchTarget s branches otherwise =
      ((branches.find? fun c => Matches s c.1).map Prod.snd).getD otherwise := by
  cases s <;> rfl

/-- Two branches with the value of the operand have the same bits. -/
theorem Matches.switchBits_eq (h : Matches s v = true) (h' : Matches s v' = true) :
    Function.switchBits s.ty v = Function.switchBits s.ty v' := by
  cases s with
  | bool b =>
    simp only [Matches, beq_iff_eq] at h h'
    rw [h, h']
  | int t x =>
    simp only [Matches, beq_iff_eq] at h h'
    simpa [Scalar.ty, Function.switchBits] using congrArg BitVec.toNat (h.trans h'.symm)

theorem holds_caseCond (he : e.eval ν = s.toVal) (v : ℕ) :
    Holds ν (caseCond e v) ↔ Matches s v = true := by
  have hsort := sort_of_toVal he
  cases s with
  | int t x =>
    simp only [caseCond, hsort, Scalar.ty, ScalarTy.sort, SmtSort.bitvecWidth, Matches, beq_iff_eq,
      holds_eq]
    rw [he, eval_bitVecConst, Scalar.toVal, ofBV_inj, eq_comm]
  | bool b =>
    have hholds := holds_of_toVal he
    have hwidth : e.sort.bitvecWidth = none := by
      rw [hsort]
      rfl
    simp only [caseCond, hwidth, Matches, beq_iff_eq]
    split
    · rw [holds_not, hholds]
      cases b <;> simp
    · rw [hholds]
      cases b <;> simp
    · rename_i hzero hone
      rw [holds_boolConst]
      refine iff_of_false Bool.false_ne_true fun hv => ?_
      cases b
      · exact hzero hv
      · exact hone hv

theorem guardOk_caseCond (he : Typed known e t) (v : ℕ) :
    (caseCond e v).sort = .bool ∧ (caseCond e v).Over known := by
  unfold caseCond
  split
  · exact ⟨rfl, by simpa using he.2⟩
  · rename_i hwidth
    split
    · exact ⟨rfl, by simpa using he.2⟩
    · refine ⟨?_, he.2⟩
      cases t with
      | bool => exact he.1
      | int i =>
        rw [he.1] at hwidth
        cases hwidth
    · exact ⟨rfl, by simp⟩

theorem guardHolds_otherwiseCond :
    GuardHolds ν (otherwiseCond conds) ↔ ∀ c ∈ conds, ¬ Holds ν c := by
  cases conds with
  | nil => simp [otherwiseCond]
  | cons c cs =>
    rw [otherwiseCond, guardHolds_some, foldl_and (P := Holds ν) (Q := (¬ Holds ν ·)) (by simp)]
    simp

theorem guardOk_otherwiseCond (h : ∀ c ∈ conds, c.Over known) :
    GuardOk known (otherwiseCond conds) := by
  cases conds with
  | nil => exact guardOk_none
  | cons c cs =>
    have hsort := List.foldlRecOn (motive := fun e : Expr => e.sort = .bool) cs
      (fun acc c => .and [acc, .not c]) (show (Expr.not c).sort = .bool from rfl) fun _ _ _ _ => rfl
    refine guardOk_some hsort ?_
    rw [foldl_and (P := (Expr.Over known ·)) (Q := (Expr.Over known ·)) (by simp)]
    simpa using h

theorem mem_codegenSwitchintAll {succ : ℕ × Option Expr} :
    succ ∈ codegenSwitchintAll e branches otherwise ↔
      (∃ c ∈ branches, (c.2, some (caseCond e c.1)) = succ) ∨
        succ = (otherwise, otherwiseCond (branches.map fun c => caseCond e c.1)) := by
  simp [codegenSwitchintAll]

/-- **Switches**: the edges that are taken go to the target of the switch. -/
theorem codegenSwitchintAll_spec (he : e.eval ν = s.toVal)
    (hnodup : (branches.map fun c => Function.switchBits s.ty c.1).Nodup) :
    (∃ succ ∈ codegenSwitchintAll e branches otherwise, GuardHolds ν succ.2) ∧
      ∀ succ ∈ codegenSwitchintAll e branches otherwise, GuardHolds ν succ.2 →
        succ.1 = switchTarget s branches otherwise := by
  have hotherwise : GuardHolds ν (otherwiseCond (branches.map fun c => caseCond e c.1)) ↔
      ∀ c ∈ branches, Matches s c.1 = false := by
    simp only [guardHolds_otherwiseCond, List.forall_mem_map, holds_caseCond he,
      Bool.not_eq_true]
  rw [switchTarget_eq]
  cases hfind : branches.find? fun c => Matches s c.1 with
  | none =>
    have hnone : ∀ c ∈ branches, Matches s c.1 = false := by
      simpa using List.find?_eq_none.1 hfind
    refine ⟨⟨_, mem_codegenSwitchintAll.2 (.inr rfl), hotherwise.2 hnone⟩, ?_⟩
    rintro succ hsucc hholds
    rcases mem_codegenSwitchintAll.1 hsucc with ⟨c, hc, rfl⟩ | rfl
    · rw [guardHolds_some, holds_caseCond he, hnone c hc] at hholds
      cases hholds
    · rfl
  | some c =>
    have hmatch : Matches s c.1 = true := by simpa using List.find?_some hfind
    have hmem := List.mem_of_find?_eq_some hfind
    refine ⟨⟨_, mem_codegenSwitchintAll.2 (.inl ⟨c, hmem, rfl⟩), ?_⟩, ?_⟩
    · rwa [guardHolds_some, holds_caseCond he]
    · rintro succ hsucc hholds
      rcases mem_codegenSwitchintAll.1 hsucc with ⟨c', hc', rfl⟩ | rfl
      · rw [guardHolds_some, holds_caseCond he] at hholds
        have heq : c' = c := List.inj_on_of_nodup_map hnodup hc' hmem
          (Matches.switchBits_eq hholds hmatch)
        rw [heq]
        rfl
      · rw [hotherwise.1 hholds c hmem] at hmatch
        cases hmatch

end Switch

/-! ### Terminators -/

section Leave

variable {kind : TerminatorKind scalarMir} {succs : List (ℕ × Option Expr)} {bb : ℕ}

variable (f) in
/-- The run goes on with a block: the edges that are taken lead there. -/
def Next (ν : T.Env) (S : StatementCodegen) (succs : List (ℕ × Option Expr)) (r : ℕ × Store) :
    Prop :=
  Live f ν S r.2 ∧ (∃ succ ∈ succs, GuardHolds ν succ.2) ∧
    ∀ succ ∈ succs, GuardHolds ν succ.2 → succ.1 = r.1

/-- How a run ends with a block. -/
def Stops (ν : T.Env) (S : StatementCodegen) (succs : List (ℕ × Option Expr)) (stop : Stop) :
    Prop :=
  HookStops ν S stop ∨ stop = .returned ∧ ¬ Flagged ν S ∧ succs = []

variable (f config) in
/-- The end of a block, and what it does to a run. -/
structure Leaves (kind : TerminatorKind scalarMir) (S S' : StatementCodegen)
    (succs : List (ℕ × Option Expr)) : Prop where
  grows : Grows f config S S'
  writes : ∀ p ∈ termWrites kind, S'.currentEnv.Has p
  guards : ∀ succ ∈ succs, GuardOk (S'.Known f config) succ.2
  targets : ∀ b, b ∈ kind.targets ↔ ∃ succ ∈ succs, succ.1 = b
  outcome : ∀ {T : Theory} {ν : T.Env} {σ : Store} {input : Input}, Live f ν S σ → Meets ν S' →
    (∀ p ∈ termWrites kind, Yields f config ν S input p) →
    Outcome (f.execTerminator input σ kind) (Next f ν S' succs) (Stops ν S' succs)

/-- One edge that is always taken. -/
theorem Next.single {b : ℕ} (hS : Live f ν S σ) : Next f ν S [(b, none)] (b, σ) :=
  ⟨hS, by simp, by simp⟩

variable (f config) in
/-- The formula of an assertion: the condition has the expected value. -/
def asserted (S : StatementCodegen) (cond : Operand) (expected : Bool) : Expr :=
  if expected then S.term f config cond else .not (S.term f config cond)

section Assert

variable {cond : Operand} {expected : Bool} {msg : AssertMessage} {target : ℕ}
  {unwind : UnwindAction}

variable (expected) in
theorem typed_asserted (h : S.Wf f config) (hcond : f.operandTy cond = some .bool)
    (hreads : ∀ p ∈ cond.reads, S.currentEnv.Has p) :
    Typed (S.Known f config) (S.asserted f config cond expected) .bool := by
  obtain ⟨hsort, hover⟩ := typed_term h hreads hcond
  cases expected
  · exact ⟨rfl, by simpa [asserted] using hover⟩
  · exact ⟨hsort, hover⟩

variable (config expected) in
theorem outcome_asserted (hS : Live f ν S σ) (stop : Stop → Prop) :
    Outcome (evalBool σ cond)
      (fun b => Holds ν (S.asserted f config cond expected) ↔ b = expected) stop := by
  refine (outcome_evalBool config hS stop).mono (fun b hb => ?_) fun _ => id
  cases expected <;> cases b <;> simp [asserted, hb]

/-- An assertion: the edge is taken where the condition has the expected value, and elsewhere a
check fails. -/
theorem leaves_assert {bad : (T : Theory) → T.Env → Prop}
    (h : S.Wf f config) (hcond : f.operandTy cond = some .bool)
    (hreads : ∀ p ∈ cond.reads, S.currentEnv.Has p) (hchecks : Checks f config S S' bad)
    (hsuccs : succs = [(target, some (S.asserted f config cond expected))])
    (houtcome : ∀ {T : Theory} {ν : T.Env} {σ : Store} {input : Input}, Live f ν S σ →
      Outcome (f.execTerminator input σ (.assert cond expected msg target unwind))
        (fun r => r = (target, σ) ∧ evalBool σ cond = .ok expected ∧ ¬ bad T ν)
        fun stop => stop = .failed ∧ bad T ν) :
    Leaves f config (.assert cond expected msg target unwind) S S' succs where
  grows := hchecks.grows
  writes := by simp [termWrites]
  guards := by
    have htyped := (typed_asserted expected h hcond hreads).mono hchecks.grows.extension.1
    subst hsuccs
    simp only [List.mem_singleton, forall_eq]
    exact guardOk_some htyped.1 htyped.2
  targets b := by
    subst hsuccs
    simp [TerminatorKind.targets, eq_comm]
  outcome {T ν σ input} hS hν _ := by
    refine (houtcome hS).mono ?_ fun stop hstop =>
      .inl (.inl ⟨hstop.1, hchecks.flag hν hS hstop.2⟩)
    rintro r ⟨rfl, heval, hgood⟩
    have hread : Outcome (evalBool σ cond) _ fun _ => True :=
      outcome_asserted config expected hS _
    rw [heval] at hread
    subst hsuccs
    exact ⟨hchecks.live hν hS hgood, ⟨_, List.mem_singleton_self _,
      guardHolds_some.2 (hread.2 rfl)⟩, by simp⟩

/-- The assertions other than those of overflows are checks of their condition. -/
theorem leaves_assert_cond (h : S.Wf f config) (hcond : f.operandTy cond = some .bool)
    (hreads : ∀ p ∈ cond.reads, S.currentEnv.Has p)
    (hmsg : ∀ op l r, msg ≠ .overflow op l r) :
    Leaves f config (.assert cond expected msg target unwind) S
      (S.codegenTerminatorWithSuccessors f config bb (.assert cond expected msg target unwind)).2
      (S.codegenTerminatorWithSuccessors f config bb
        (.assert cond expected msg target unwind)).1 := by
  have heq : S.codegenTerminatorWithSuccessors f config bb
      (.assert cond expected msg target unwind) =
        ([(target, some (S.asserted f config cond expected))],
          S.recordViolationGuarded f config (.not (S.asserted f config cond expected))
            (assertLabelForMessage msg)) := by
    cases msg with
    | overflow op l r => exact absurd rfl (hmsg op l r)
    | _ => simp only [codegenTerminatorWithSuccessors, codegenOperand_eq hreads, asserted]
  rw [heq]
  refine leaves_assert h hcond hreads (checks_recordViolationGuarded h rfl
    (by simpa using (typed_asserted expected h hcond hreads).2)) rfl ?_
  intro T ν σ input hS
  have hexec : f.execTerminator input σ (.assert cond expected msg target unwind) =
      (do
        let b ← evalBool σ cond
        return (target, ← require .failed (b == expected) σ)) := by
    cases msg with
    | overflow op l r => exact absurd rfl (hmsg op l r)
    | _ => rfl
  rw [hexec]
  refine (outcome_asserted config expected hS _).bind fun b hb hholds => ?_
  by_cases hbe : b = expected
  · subst hbe
    rw [beq_self_eq_true]
    exact ⟨rfl, hb, by rw [holds_not, not_not]; exact hholds.2 rfl⟩
  · rw [beq_eq_false_iff_ne.2 hbe]
    exact ⟨rfl, by rw [holds_not, hholds]; exact hbe⟩

/-- The assertion of an operation checks the operation itself. -/
theorem leaves_assert_overflow {l r : Operand} {op : BinOp} (h : S.Wf f config) (hcond : f.operandTy cond = some .bool)
    (hty : f.typedMessage (.overflow op l r) = true)
    (hreads : ∀ p ∈ (l.reads ++ r.reads) ++ cond.reads, S.currentEnv.Has p) :
    Leaves f config (.assert cond expected (.overflow op l r) target unwind) S
      (S.codegenTerminatorWithSuccessors f config bb
        (.assert cond expected (.overflow op l r) target unwind)).2
      (S.codegenTerminatorWithSuccessors f config bb
        (.assert cond expected (.overflow op l r) target unwind)).1 := by
  obtain ⟨i, hl, hr, hop⟩ : ∃ i, f.operandTy l = some (.int i) ∧ f.operandTy r = some (.int i) ∧
      (isChecked op = true ∨ isDivision op = true ∧ i.signed = true) := by
    simp only [Function.typedMessage] at hty
    split at hty
    · rename_i i hl
      exact ⟨i, hl, by simpa [isChecked] using hty⟩
    · cases hty
  have hreadsl : ∀ p ∈ l.reads, S.currentEnv.Has p := fun p hp => hreads p (by simp [hp])
  have hreadsr : ∀ p ∈ r.reads, S.currentEnv.Has p := fun p hp => hreads p (by simp [hp])
  have hreadsc : ∀ p ∈ cond.reads, S.currentEnv.Has p := fun p hp => hreads p (by simp [hp])
  have htl := typed_term h hreadsl hl
  have htr := typed_term h hreadsr hr
  have hsigned : f.isSignedIntegerOp l r = some i.signed := isSignedIntegerOp_eq hl hr
  have hchecks : Checks f config S (S.emitOverflowCheck f config op (S.term f config l)
      (S.term f config r) i.signed) _ := checks_emitOverflowCheck h htl htr i.signed
  -- the check leaves the environment
  have hcondEq : (S.emitOverflowCheck f config op (S.term f config l) (S.term f config r)
      i.signed).codegenOperand f config cond = (S.term f config cond,
        S.emitOverflowCheck f config op (S.term f config l) (S.term f config r) i.signed) := by
    rw [codegenOperand_eq (hchecks.env ▸ hreadsc), term_congr hreadsc hchecks.env]
  have heq : S.codegenTerminatorWithSuccessors f config bb
      (.assert cond expected (.overflow op l r) target unwind) =
        ([(target, some (S.asserted f config cond expected))],
        S.emitOverflowCheck f config op (S.term f config l) (S.term f config r) i.signed) := by
    simp only [codegenTerminatorWithSuccessors, codegenOperand_eq hreadsl,
      codegenOperand_eq hreadsr, hsigned, Option.getD_some, hcondEq, asserted]
  rw [heq]
  refine leaves_assert h hcond hreadsc hchecks rfl ?_
  intro T ν σ input hS
  refine (outcome_evalBool config hS _).bind fun b hb _ => ?_
  refine (outcome_evalExact hS hl _).bind ?_
  rintro ⟨j, z⟩ - ⟨hj, x, y, hx, hy, hz⟩
  obtain rfl : j = i := hj
  have hevall := hS.eval_term config hx
  have hevalr := hS.eval_term config hy
  obtain ⟨c, label, hc⟩ := exists_overflowCheck j.signed htl.1 htr.1
    (hop.symm.imp id fun hop => .inr (isChecked_iff.1 hop))
  have hoverflows : Overflows op (S.term f config l) (S.term f config r) j.signed ν ↔
      ¬ j.InRange z := by
    rw [← holds_overflowCheck hevall hevalr hz hc, Overflows, hc]
    simp
  rw [hoverflows]
  dsimp only
  split_ifs with hok
  · by_cases hbe : b = expected
    · subst hbe
      have hrange : j.InRange z := by simpa using hok
      rw [beq_self_eq_true]
      exact ⟨rfl, hb, not_not.2 hrange⟩
    · rw [beq_eq_false_iff_ne.2 hbe] at hok ⊢
      exact ⟨rfl, of_decide_eq_false hok.symm⟩
  · trivial

end Assert

variable (bb) in
/-- **Terminators.** -/
theorem codegenTerminator_spec (h : S.Wf f config) (hty : f.typedTerminator kind = true)
    (hreads : ∀ p ∈ termReads kind, S.currentEnv.Has p) :
    Leaves f config kind S (S.codegenTerminatorWithSuccessors f config bb kind).2
      (S.codegenTerminatorWithSuccessors f config bb kind).1 := by
  cases kind with
  | goto target | drop place target unwind =>
    exact ⟨.refl h, by simp [termWrites], fun succ hsucc => by
      obtain rfl := List.mem_singleton.1 hsucc
      exact guardOk_none, by simp [TerminatorKind.targets, codegenTerminatorWithSuccessors, eq_comm],
      fun hS _ _ => Next.single hS⟩
  | «return» | resume | abort =>
    exact ⟨.refl h, by simp [termWrites], by simp [codegenTerminatorWithSuccessors],
      by simp [TerminatorKind.targets, codegenTerminatorWithSuccessors],
      fun hS _ _ => .inr ⟨rfl, hS.safe, rfl⟩⟩
  | unreachable =>
    refine ⟨grows_recordViolationGuarded h rfl (by simp), by simp [termWrites],
      by simp [codegenTerminatorWithSuccessors],
      by simp [TerminatorKind.targets, codegenTerminatorWithSuccessors], fun hS hν _ => ?_⟩
    exact .inl (.inl ⟨rfl, (flagged_recordViolationGuarded hν).2 (.inr ⟨hS.active, by simp⟩)⟩)
  | switchInt discr branches otherwise =>
    obtain ⟨t, ht⟩ : ∃ t, f.operandTy discr = some t := by
      cases ht : f.operandTy discr with
      | none => simp [Function.typedTerminator, ht] at hty
      | some t => exact ⟨t, rfl⟩
    have hnodup : (branches.map fun c => Function.switchBits t c.1).Nodup := by
      simpa [Function.typedTerminator, ht] using hty
    have heq : S.codegenTerminatorWithSuccessors f config bb (.switchInt discr branches otherwise) =
        (codegenSwitchintAll (S.term f config discr) branches otherwise, S) := by
      simp only [codegenTerminatorWithSuccessors, codegenOperand_eq hreads]
    have hcase := guardOk_caseCond (typed_term h hreads ht)
    rw [heq]
    refine ⟨.refl h, by simp [termWrites], fun succ hsucc => ?_, fun b => ?_, ?_⟩
    · rcases mem_codegenSwitchintAll.1 hsucc with ⟨c, -, rfl⟩ | rfl
      · exact guardOk_some (hcase c.1).1 (hcase c.1).2
      · exact guardOk_otherwiseCond fun c hc => by
          obtain ⟨c, -, rfl⟩ := List.mem_map.1 hc
          exact (hcase c.1).2
    · simp [TerminatorKind.targets, codegenSwitchintAll, or_and_right, exists_or, eq_comm]
    · intro T ν σ input hS hν _
      refine (outcome_evalOperand config hS _).bind fun s hs heval => ?_
      obtain rfl : t = s.ty := by simpa [ht] using hS.typed.operand hs
      exact ⟨hS, codegenSwitchintAll_spec heval hnodup⟩
  | assert cond expected msg target unwind =>
    simp only [Function.typedTerminator, Bool.and_eq_true, beq_iff_eq] at hty
    by_cases hmsg : ∃ op l r, msg = .overflow op l r
    · obtain ⟨op, l, r, rfl⟩ := hmsg
      exact leaves_assert_overflow h hty.1 hty.2 hreads
    · exact leaves_assert_cond h hty.1 (fun p hp => hreads p (List.mem_append_right _ hp))
        fun op l r heq => hmsg ⟨op, l, r, heq⟩
  | inlineAsm asm destination unwind => cases hty
  | call func args destination target unwind =>
    cases func with
    | place p => cases hty
    | const s => cases hty
    | fnDef hook =>
      have hreads' : hook ≠ .anyRaw → ∀ o ∈ args, ∀ p ∈ o.reads, S.currentEnv.Has p := by
        intro hne o ho p hp
        refine hreads p ?_
        cases hook <;> first | exact absurd rfl hne | exact List.mem_flatMap.2 ⟨o, ho, hp⟩
      have hwrites : ∀ p, p ∈ termWrites (.call (.fnDef hook) args destination target unwind) ↔
          hook = .anyRaw ∧ p = destination := by
        intro p
        cases hook <;> simp [termWrites]
      obtain ⟨hgrows, hhas, houtcome⟩ := codegenHook_spec h hty hreads'
      refine ⟨hgrows, fun p hp => ?_, fun succ hsucc => ?_, fun b => ?_, ?_⟩
      · obtain ⟨hany, rfl⟩ := (hwrites p).1 hp
        exact hhas hany
      · obtain ⟨b, -, rfl⟩ := by simpa [codegenTerminatorWithSuccessors] using hsucc
        exact guardOk_none
      · cases target <;> simp [TerminatorKind.targets, codegenTerminatorWithSuccessors, eq_comm]
      · intro T ν σ input hS hν hinput
        have hhook : Outcome (f.execHook input σ hook args destination) _ _ :=
          houtcome hS hν fun hany => hinput destination ((hwrites destination).2 ⟨hany, rfl⟩)
        refine (hhook.mono (fun _ => id) fun stop hstop => ?_).bind fun σ' _ hσ' => ?_
        · exact .inl hstop
        · cases target with
          | none => exact .inr ⟨rfl, hσ'.safe, rfl⟩
          | some target => exact Next.single hσ'

end Leave

end StatementCodegen

end TrustMc.Bmc
