import TrustMc.Straightline.Facts

/-!
# Simplification and substitution are sound

Under the facts it is given, `simplify_with_facts` returns a term that may stand for its
argument (`simplifyWithFacts_sound`), for every budget. Each helper is proved against an
arbitrary sound recursive call, in the order of the source; `Rewrites.trans` splits the
argument into rewriting the operands and folding the rebuilt node.

Substitution is sound where the bindings hold as equations (`substituteInner_sound`). It is
here that names matter: a binding of a rule's name to a term of a frame is an equation
between the two only if the name means the same in both.
-/

namespace TrustMc

namespace Straightline

open Budget Budget.Walk Carriers Carriers.Val TrustMc.Expr

variable {T : Theory} {reserved : Set String} {facts : PathFacts} {rec : ℕ → Expr → Walk Expr}

/-- Every term the walk returns for an admissible term may stand for it under the facts. -/
def SoundUnder (T : Theory) (reserved : Set String) (facts : PathFacts)
    (rec : ℕ → Expr → Walk Expr) : Prop :=
  ∀ d e, Admissible reserved e → (rec d e).Ensures (Rewrites (T := T) facts.Holds [] e)

/-- Continue with a term that may stand for the original. -/
theorem SoundUnder.of_rewrites (hrec : SoundUnder T reserved facts rec) {d : ℕ} {e e' : Expr}
    (he : Admissible reserved e) (h : Rewrites (T := T) facts.Holds [] e e') :
    (rec d e').Ensures (Rewrites (T := T) facts.Holds [] e) :=
  (hrec d e' (h.admissible' he)).mono fun _ hr => h.trans hr

theorem ensures_ofOption_tryApp {op : Op} {args : List Expr} {P : Expr → Prop}
    (h : op.accepts (args.map Expr.sort) = true → P (.app op args)) :
    (Walk.ofOption (tryApp op args)).Ensures P := by
  refine .ofOption fun a ha => ?_
  unfold tryApp at ha
  split_ifs at ha with hacc
  obtain rfl := Option.some.inj ha
  exact h hacc

/-! ### Equations -/

theorem holds_eq_const {e : Expr} {v : Bool} {args : List Expr} {ρ : T.Env}
    (hs : e.sort = .bool) :
    Holds ρ (e.eq (.app (.boolConst v) args)) ↔ (Holds ρ e ↔ v = true) := by
  rw [holds_eq, eval_app, Op.interp, ← ofBool_toBool (v := e.eval ρ) (by rw [eval_sort, hs]),
    ofBool_inj, Bool.eq_iff_iff]
  rfl

/-- The sides of a well-sorted equation have one sort. -/
theorem sort_eq_of_eq {lhs rhs : Expr} (h : Admissible reserved (lhs.eq rhs)) :
    lhs.sort = rhs.sort := by simpa [Op.accepts] using h.accepts

theorem simplifyBoolConstEq_sound (hrec : SoundUnder T reserved facts rec) {d : ℕ}
    {e constant : Expr} (h : Admissible reserved (e.eq constant)) :
    (simplifyBoolConstEq rec d e constant).Ensures
      (Rewrites (T := T) facts.Holds [] (e.eq constant)) := by
  have he : Admissible reserved e := h.arg (by simp)
  unfold simplifyBoolConstEq
  split
  · rename_i v args
    split_ifs with hbool hv
    · exact .bail
    · have hs : e.sort = .bool := by simpa using hbool
      refine .pure (.of_holds_iff (by simp [Op.resultSort]) hs he.wellSorted ?_ ?_ fun ρ _ => ?_)
      · simp +contextual
      · simp +contextual
      · rw [holds_eq_const hs, hv]
        simp
    · have hs : e.sort = .bool := by simpa using hbool
      refine hrec.of_rewrites h (.of_holds_iff (by simp [Op.resultSort]) (by simp [Op.resultSort])
        (he.not hs).wellSorted ?_ ?_ fun ρ _ => ?_)
      · simp +contextual
      · simp +contextual
      · rw [holds_eq_const hs, holds_not]
        simp [hv]
  · exact .bail

/-- An equation between a conditional of constants and a constant. -/
theorem holds_eq_ite_const {c a b rhs : Expr} {x y z w : ℕ} {ρ : T.Env}
    (ha : bvConstU128 a = some (x, w)) (hb : bvConstU128 b = some (y, w))
    (hr : bvConstU128 rhs = some (z, w)) :
    Holds ρ ((Expr.ite c a b).eq rhs) ↔ (Holds ρ c → x = z) ∧ (¬ Holds ρ c → y = z) := by
  obtain ⟨hsa, -⟩ := bvConstU128_spec ha
  obtain ⟨hsb, -⟩ := bvConstU128_spec hb
  obtain ⟨hsr, -⟩ := bvConstU128_spec hr
  have hax : a.eval ρ = rhs.eval ρ ↔ x = z := by
    rw [bits_inj hsa hsr, ← BitVec.toNat_inj, toNat_bits_of_const ha, toNat_bits_of_const hr]
  have hby : b.eval ρ = rhs.eval ρ ↔ y = z := by
    rw [bits_inj hsb hsr, ← BitVec.toNat_inj, toNat_bits_of_const hb, toNat_bits_of_const hr]
  rw [holds_eq, eval_ite (hsa.trans hsb.symm)]
  by_cases hc : Holds ρ c
  · simp [hc, hax]
  · simp [hc, hby]

theorem simplifyBoolBitIteEq_sound (hrec : SoundUnder T reserved facts rec) {d : ℕ}
    {iteExpr rhs : Expr} (h : Admissible reserved (iteExpr.eq rhs)) :
    (simplifyBoolBitIteEq rec d iteExpr rhs).Ensures
      (Rewrites (T := T) facts.Holds [] (iteExpr.eq rhs)) := by
  unfold simplifyBoolBitIteEq
  split
  · rename_i c a b
    have hite : Admissible reserved (Expr.ite c a b) := h.arg (by simp)
    have hc : Admissible reserved c := hite.arg (by simp)
    have hcs : c.sort = .bool := by
      have hacc := hite.accepts
      simp only [List.map_cons, List.map_nil, Op.accepts, Bool.and_eq_true] at hacc
      exact SmtSort.isBool_iff.1 hacc.1
    refine (Ensures.ofOption (P := fun p => bvConstU128 a = some p) fun _ => id).bind ?_
    rintro ⟨x, w⟩ ha
    refine (Ensures.ofOption (P := fun p => bvConstU128 b = some p) fun _ => id).bind ?_
    rintro ⟨y, w₁⟩ hb
    refine (Ensures.ofOption (P := fun p => bvConstU128 rhs = some p) fun _ => id).bind ?_
    rintro ⟨z, w₂⟩ hr
    dsimp only
    split
    · exact .bail
    · rename_i hw
      obtain ⟨hw₁, hw₂⟩ := not_or.1 hw
      obtain rfl : w = w₁ := not_not.1 hw₁
      obtain rfl : w = w₂ := not_not.1 hw₂
      refine (hrec d c hc).bind fun c' hc' => ?_
      have hcs' : c'.sort = .bool := hc'.sort.trans hcs
      have heq : Rewrites (T := T) facts.Holds [] ((Expr.ite c a b).eq rhs)
          ((Expr.ite c' a b).eq rhs) := by
        refine .app₂ (.app₃ hc' (.refl (hite.arg (by simp)).wellSorted)
          (.refl (hite.arg (by simp)).wellSorted) hite.accepts) (.refl ?_) h.accepts
        exact (h.arg (by simp)).wellSorted
      have hc'' := hc'.admissible' hc
      have hconst : ∀ ρ : T.Env, Holds ρ ((Expr.ite c' a b).eq rhs) ↔
          (Holds ρ c' → x = z) ∧ (¬ Holds ρ c' → y = z) := fun ρ => holds_eq_ite_const ha hb hr
      split_ifs with h₁ h₂ h₃
      · refine .pure (heq.trans (.of_holds_iff (by simp [Op.resultSort]) hcs' hc''.wellSorted
          (by simp +contextual) (by simp +contextual) fun ρ _ => ?_))
        rw [hconst]
        simp only [Prod.mk.injEq] at h₁
        rcases h₁ with ⟨rfl, rfl, rfl⟩ | ⟨rfl, rfl, rfl⟩ <;> simp
      · refine hrec.of_rewrites h (heq.trans (.of_holds_iff (by simp [Op.resultSort])
          (by simp [Op.resultSort]) (hc''.not hcs').wellSorted (by simp +contextual)
          (by simp +contextual) fun ρ _ => ?_))
        rw [hconst, holds_not]
        simp only [Prod.mk.injEq] at h₂
        rcases h₂ with ⟨rfl, rfl, rfl⟩ | ⟨rfl, rfl, rfl⟩ <;> simp
      · refine .pure (heq.trans (.to_boolConst (by simp [Op.resultSort]) fun ρ _ => ?_))
        rw [hconst]
        simp only [Prod.mk.injEq] at h₁ h₂ h₃
        grind
      · exact .bail
  · exact .bail

theorem residualEq_sound {lhs rhs : Expr} (h : Admissible reserved (lhs.eq rhs)) :
    (residualEq lhs rhs).Ensures (Rewrites (T := T) facts.Holds [] (lhs.eq rhs)) := by
  unfold residualEq
  split
  · rename_i a _ b _
    refine .pure (.to_boolConst (by simp [Op.resultSort]) fun ρ _ => ?_)
    rw [holds_eq, eval_app, eval_app, Op.interp, Op.interp, ofBool_inj, beq_iff_eq]
  · rename_i w x _ w' x' _
    split_ifs with hw
    · exact .bail
    · obtain rfl : w = w' := not_not.1 hw
      refine .pure (.to_boolConst (by simp [Op.resultSort]) fun ρ _ => ?_)
      rw [holds_eq, eval_app, eval_app, Op.interp, Op.interp, ofBV_inj, beq_iff_eq,
        BitVec.toNat_inj]
  · exact ensures_ofOption_tryApp fun _ => .refl h.wellSorted

theorem simplifyEqWithFacts_sound (hrec : SoundUnder T reserved facts rec) {d : ℕ}
    {lhs rhs : Expr} (h : Admissible reserved (lhs.eq rhs)) :
    (simplifyEqWithFacts facts rec d lhs rhs).Ensures
      (Rewrites (T := T) facts.Holds [] (lhs.eq rhs)) := by
  unfold simplifyEqWithFacts
  refine (hrec d lhs (h.arg (by simp))).bind fun l hl => ?_
  refine (hrec d rhs (h.arg (by simp))).bind fun r hr => ?_
  have heq : Rewrites (T := T) facts.Holds [] (lhs.eq rhs) (l.eq r) := .app₂ hl hr h.accepts
  have hlr : Admissible reserved (l.eq r) := heq.admissible' h
  have hswap : Rewrites (T := T) facts.Holds [] (l.eq r) (r.eq l) := .eq_swap hlr.wellSorted
  split_ifs with h₁ h₂
  · refine .pure (heq.trans (.to_boolConst (by simp [Op.resultSort]) fun ρ _ => ?_))
    simp [h₁]
  · refine .pure (heq.trans (.to_boolConst (by simp [Op.resultSort]) fun ρ hρ => ?_))
    rw [holds_eq]
    simpa using PathFacts.eval_ne_of_areDisequal hρ h₂
  · refine (Ensures.attempt (simplifyBoolConstEq_sound hrec hlr)).bind fun o ho => ?_
    split
    · exact .pure (heq.trans (ho _ rfl))
    refine (Ensures.attempt (simplifyBoolConstEq_sound hrec (hswap.admissible' hlr))).bind
      fun o ho => ?_
    split
    · exact .pure (heq.trans (hswap.trans (ho _ rfl)))
    refine (Ensures.attempt (simplifyBoolBitIteEq_sound hrec hlr)).bind fun o ho => ?_
    split
    · exact .pure (heq.trans (ho _ rfl))
    refine (Ensures.attempt (simplifyBoolBitIteEq_sound hrec (hswap.admissible' hlr))).bind
      fun o ho => ?_
    split
    · exact .pure (heq.trans (hswap.trans (ho _ rfl)))
    exact (residualEq_sound hlr).mono fun _ hr => heq.trans hr

/-! ### Conditionals -/

/-- The operands of a well-sorted conditional. -/
theorem sorts_of_ite {c a b : Expr} (h : Admissible reserved (Expr.ite c a b)) :
    c.sort = .bool ∧ a.sort = b.sort := by
  have hacc := h.accepts
  simp only [List.map_cons, List.map_nil, Op.accepts, Bool.and_eq_true, beq_iff_eq] at hacc
  exact ⟨SmtSort.isBool_iff.1 hacc.1, hacc.2⟩

theorem sort_ite (c a b : Expr) : (Expr.ite c a b).sort = a.sort := by simp [Op.resultSort]

/-- A propositional rewriting of a Boolean conditional into a connective of its parts. -/
private theorem ite_to_connective {c a b e : Expr} (h : Admissible reserved (Expr.ite c a b))
    (hs : a.sort = .bool) (hsort : e.sort = .bool) (hws : e.WellSorted)
    (hocc : ∀ o ∈ e.freeOccs, o ∈ c.freeOccs ∨ o ∈ a.freeOccs ∨ o ∈ b.freeOccs)
    (hbd : ∀ n ∈ e.boundVars, n ∈ c.boundVars ∨ n ∈ a.boundVars ∨ n ∈ b.boundVars)
    (hiff : ∀ ρ : T.Env, Holds ρ e ↔ (Holds ρ c → Holds ρ a) ∧ (¬ Holds ρ c → Holds ρ b)) :
    Rewrites (T := T) facts.Holds [] (Expr.ite c a b) e := by
  refine .of_holds_iff ((sort_ite c a b).trans hs) hsort hws ?_ ?_ fun ρ _ => ?_
  · simpa using hocc
  · simpa using hbd
  · rw [hiff, holds_ite (sorts_of_ite h).2]

theorem simplifyBoolIte_sound (hrec : SoundUnder T reserved facts rec) {d : ℕ} {c a b : Expr}
    (h : Admissible reserved (Expr.ite c a b)) (hs : a.sort = .bool) :
    (simplifyBoolIte rec d c a b).Ensures (Rewrites (T := T) facts.Holds [] (Expr.ite c a b)) := by
  obtain ⟨hcs, hab⟩ := sorts_of_ite h
  have hc : Admissible reserved c := h.arg (by simp)
  have ha : Admissible reserved a := h.arg (by simp)
  have hb : Admissible reserved b := h.arg (by simp)
  have hbs : b.sort = .bool := hab.symm.trans hs
  have htrue : ∀ (ρ : T.Env) (v : Bool) args, Holds ρ (.app (.boolConst v) args) ↔ v = true := by
    intro ρ v args
    rw [Holds, eval_app, Op.interp, toBool_ofBool]
  unfold simplifyBoolIte
  split
  · refine .pure (ite_to_connective h hs hcs hc.wellSorted (by simp +contextual)
      (by simp +contextual) fun ρ => ?_)
    simp [htrue]
  · refine hrec.of_rewrites h (ite_to_connective h hs (by simp [Op.resultSort])
      (hc.not hcs).wellSorted (by simp +contextual) (by simp +contextual) fun ρ => ?_)
    simp [htrue]
  · refine Ensures.bind (P := Rewrites (T := T) facts.Holds [] _) ?_ fun e he =>
      hrec.of_rewrites h he
    refine ensures_ofOption_tryApp fun hacc => ?_
    have hws := (Admissible.of_tryApp hacc (by simpa using ⟨hc.not hcs, hb⟩)).wellSorted
    refine ite_to_connective h hs (by simp [Op.resultSort]) hws (by simp; grind) (by simp; grind)
      fun ρ => ?_
    rw [holds_and, htrue]
    simp
    grind
  · refine Ensures.bind (P := Rewrites (T := T) facts.Holds [] _) ?_ fun e he =>
      hrec.of_rewrites h he
    refine ensures_ofOption_tryApp fun hacc => ?_
    have hws := (Admissible.of_tryApp hacc (by simpa using ⟨hc, hb⟩)).wellSorted
    refine ite_to_connective h hs (by simp [Op.resultSort]) hws (by simp; grind) (by simp; grind)
      fun ρ => ?_
    rw [holds_or, htrue]
    simp
    grind
  · refine Ensures.bind (P := Rewrites (T := T) facts.Holds [] _) ?_ fun e he =>
      hrec.of_rewrites h he
    refine ensures_ofOption_tryApp fun hacc => ?_
    have hws := (Admissible.of_tryApp hacc (by simpa using ⟨hc, ha⟩)).wellSorted
    refine ite_to_connective h hs (by simp [Op.resultSort]) hws (by simp; grind) (by simp; grind)
      fun ρ => ?_
    rw [holds_and, htrue]
    simp
    grind
  · refine Ensures.bind (P := Rewrites (T := T) facts.Holds [] _) ?_ fun e he =>
      hrec.of_rewrites h he
    refine ensures_ofOption_tryApp fun hacc => ?_
    have hws := (Admissible.of_tryApp hacc (by simpa using ⟨hc.not hcs, ha⟩)).wellSorted
    refine ite_to_connective h hs (by simp [Op.resultSort]) hws (by simp; grind) (by simp; grind)
      fun ρ => ?_
    rw [holds_or, htrue]
    simp
    grind
  · exact ensures_ofOption_tryApp fun _ => .refl h.wellSorted

/-- Rewriting the branches of a conditional whose condition is simplified already. -/
theorem simplifyIteWithFacts_sound (hrec : SoundUnder T reserved facts rec) {d : ℕ}
    {c a b : Expr} (h : Admissible reserved (Expr.ite c a b)) :
    (simplifyIteWithFacts rec d c a b).Ensures
      (Rewrites (T := T) facts.Holds [] (Expr.ite c a b)) := by
  unfold simplifyIteWithFacts
  refine (hrec d a (h.arg (by simp))).bind fun a' ha' => ?_
  refine (hrec d b (h.arg (by simp))).bind fun b' hb' => ?_
  have hite : Rewrites (T := T) facts.Holds [] (Expr.ite c a b) (Expr.ite c a' b') :=
    .app₃ (.refl (h.arg (by simp)).wellSorted) ha' hb' h.accepts
  have h' := hite.admissible' h
  split_ifs with heq hbool
  · subst heq
    refine .pure (hite.trans (.of_eval (sort_ite c a' a').symm ha'.wellSorted
      (by simp +contextual) (by simp +contextual) fun ρ _ => ?_))
    rw [eval_ite rfl, ite_self]
  · rw [Bool.and_eq_true] at hbool
    exact (simplifyBoolIte_sound hrec h' (SmtSort.isBool_iff.1 hbool.1)).mono
      fun _ hr => hite.trans hr
  · exact ensures_ofOption_tryApp fun _ => hite

/-! ### Conjunctions and disjunctions -/

/-- The conjunction or the disjunction. -/
def nary (isAnd : Bool) (es : List Expr) : Expr := .app (if isAnd then .and else .or) es

theorem holds_nary {isAnd : Bool} {es : List Expr} {ρ : T.Env} :
    Holds ρ (nary isAnd es) ↔ if isAnd then ∀ e ∈ es, Holds ρ e else ∃ e ∈ es, Holds ρ e := by
  cases isAnd
  · exact holds_or
  · exact holds_and

theorem sort_nary {isAnd : Bool} {es : List Expr} : (nary isAnd es).sort = .bool := by
  cases isAnd <;> simp [nary, Op.resultSort]

theorem admissible_nary {isAnd : Bool} {es : List Expr} :
    Admissible reserved (nary isAnd es) ↔ ∀ e ∈ es, Admissible reserved e ∧ e.sort = .bool := by
  rw [nary, Admissible.app_iff]
  have hacc : (if isAnd then Op.and else Op.or).accepts (es.map Expr.sort) = true ↔
      ∀ e ∈ es, e.sort = .bool := by
    cases isAnd <;> simp [Op.accepts]
  rw [hacc]
  grind

/-- Replacing one operand by operands that say the same together. -/
theorem nary_replace {isAnd : Bool} {kept rest new : List Expr} {child r : Expr}
    (hkept : ∀ e ∈ kept, Admissible reserved e ∧ e.sort = .bool)
    (hrest : ∀ e ∈ rest, Admissible reserved e ∧ e.sort = .bool)
    (hr : Rewrites (T := T) facts.Holds [] child r)
    (hnew : ∀ e ∈ new, Admissible reserved e ∧ e.sort = .bool)
    (hocc : ∀ e ∈ new, (∀ o ∈ e.freeOccs, o ∈ r.freeOccs) ∧ ∀ n ∈ e.boundVars, n ∈ r.boundVars)
    (hiff : ∀ ρ : T.Env, Holds ρ (nary isAnd new) ↔ Holds ρ r) :
    Rewrites (T := T) facts.Holds [] (nary isAnd (kept ++ child :: rest))
      (nary isAnd ((kept ++ new) ++ rest)) := by
  refine .of_holds_iff sort_nary sort_nary ?_ ?_ ?_ fun ρ hρ => ?_
  · have hall : Admissible reserved (nary isAnd ((kept ++ new) ++ rest)) := by
      refine admissible_nary.2 fun e he => ?_
      simp only [List.mem_append] at he
      rcases he with (he | he) | he
      · exact hkept e he
      · exact hnew e he
      · exact hrest e he
    exact hall.wellSorted
  · intro o ho
    simp only [nary, freeOccs_app, List.mem_flatMap, List.mem_append, List.mem_cons] at ho ⊢
    obtain ⟨e, (he | he) | he, ho⟩ := ho
    · exact ⟨e, Or.inl he, ho⟩
    · refine ⟨child, Or.inr (Or.inl rfl), ?_⟩
      simpa using hr.occs o ((hocc e he).1 o ho)
    · exact ⟨e, Or.inr (Or.inr he), ho⟩
  · intro n hn
    simp only [nary, boundVars_app, List.mem_flatMap, List.mem_append, List.mem_cons] at hn ⊢
    obtain ⟨e, (he | he) | he, hn⟩ := hn
    · exact ⟨e, Or.inl he, hn⟩
    · refine ⟨child, Or.inr (Or.inl rfl), ?_⟩
      simpa using hr.bound n ((hocc e he).2 n hn)
    · exact ⟨e, Or.inr (Or.inr he), hn⟩
  · have hchild := (hiff ρ).trans (hr.holds_iff hρ)
    rw [holds_nary] at hchild ⊢
    rw [holds_nary]
    cases isAnd <;> simp only [if_true, if_false, Bool.false_eq_true] at hchild ⊢ <;>
      simp only [List.mem_append, List.mem_cons] <;> grind

/-- What the loop returns: `none` when an operand decides, else operands that say the same. -/
def LoopResult (T : Theory) (facts : PathFacts) (isAnd : Bool) (es : List Expr) :
    Option (List Expr) → Prop
  | none => ∀ ρ : T.Env, facts.Holds ρ → (Holds ρ (nary isAnd es) ↔ isAnd = false)
  | some kept => Rewrites (T := T) facts.Holds [] (nary isAnd es) (nary isAnd kept)

theorem LoopResult.of_rewrites {isAnd : Bool} {es es' : List Expr}
    (h : Rewrites (T := T) facts.Holds [] (nary isAnd es) (nary isAnd es')) :
    ∀ o, LoopResult T facts isAnd es' o → LoopResult T facts isAnd es o
  | none, ho => fun ρ hρ => (h.holds_iff hρ).symm.trans (ho ρ hρ)
  | some _, ho => h.trans ho

theorem boolNaryLoop_sound (hrec : SoundUnder T reserved facts rec) {isAnd : Bool} {d : ℕ}
    {children kept : List Expr} (hkept : ∀ e ∈ kept, Admissible reserved e ∧ e.sort = .bool)
    (hch : ∀ e ∈ children, Admissible reserved e ∧ e.sort = .bool) :
    (boolNaryLoop rec isAnd d children kept).Ensures
      (LoopResult T facts isAnd (kept ++ children)) := by
  induction children generalizing kept with
  | nil =>
    refine .pure ?_
    rw [List.append_nil]
    exact .refl (admissible_nary.2 hkept).wellSorted
  | cons child rest ih =>
    obtain ⟨⟨hchild, hsort⟩, hrest⟩ := List.forall_mem_cons.1 hch
    rw [boolNaryLoop]
    refine (hrec d child hchild).bind fun r hr => ?_
    have hra : Admissible reserved r := hr.admissible' hchild
    have hrs : r.sort = .bool := hr.sort.trans hsort
    -- One operand is replaced and the loop goes on.
    have hnext : ∀ new : List Expr, (∀ e ∈ new, Admissible reserved e ∧ e.sort = .bool) →
        (∀ e ∈ new, (∀ o ∈ e.freeOccs, o ∈ r.freeOccs) ∧ ∀ n ∈ e.boundVars, n ∈ r.boundVars) →
        (∀ ρ : T.Env, Holds ρ (nary isAnd new) ↔ Holds ρ r) →
        (boolNaryLoop rec isAnd d rest (kept ++ new)).Ensures
          (LoopResult T facts isAnd (kept ++ child :: rest)) := by
      intro new hnew hocc hiff
      have hrep := nary_replace hkept hrest hr hnew hocc hiff
      refine (ih (fun e he => ?_) hrest).mono (LoopResult.of_rewrites hrep)
      exact (List.mem_append.1 he).elim (hkept e) (hnew e)
    have hself := hnext [r] (by simpa using ⟨hra, hrs⟩) (by simp) fun ρ => by
      rw [holds_nary]
      cases isAnd <;> simp
    split
    · rename_i v args
      split_ifs with hv
      · refine .pure fun ρ hρ => ?_
        have hval : Holds ρ child ↔ v = true := by
          rw [← hr.holds_iff hρ, Holds, eval_app, Op.interp, toBool_ofBool]
        rw [holds_nary]
        cases isAnd
        · have hvt : v = true := by simpa using hv
          simpa using ⟨child, Or.inr (Or.inl rfl), hval.2 hvt⟩
        · have hvf : v = false := by simpa using hv
          simpa using ⟨child, Or.inr (Or.inl rfl), by rw [hval, hvf]; simp⟩
      · have hvi : v = isAnd := not_not.1 hv
        have hskip := hnext [] (by simp) (by simp) fun ρ => by
          rw [holds_nary, Holds, eval_app, Op.interp, toBool_ofBool, hvi]
          cases isAnd <;> simp
        rwa [List.append_nil] at hskip
    · rename_i nested
      cases isAnd
      · exact hself
      · have hnested : ∀ e ∈ nested, Admissible reserved e ∧ e.sort = .bool :=
          admissible_nary.1 (show Admissible reserved (nary true nested) from hra)
        refine hnext nested hnested (fun e he => ⟨fun o ho => ?_, fun n hn => ?_⟩) fun ρ => Iff.rfl
        · rw [freeOccs_app]
          exact List.mem_flatMap.2 ⟨e, he, ho⟩
        · rw [boundVars_app]
          exact List.mem_flatMap.2 ⟨e, he, hn⟩
    · rename_i nested
      cases isAnd
      · have hnested : ∀ e ∈ nested, Admissible reserved e ∧ e.sort = .bool :=
          admissible_nary.1 (show Admissible reserved (nary false nested) from hra)
        refine hnext nested hnested (fun e he => ⟨fun o ho => ?_, fun n hn => ?_⟩) fun ρ => Iff.rfl
        · rw [freeOccs_app]
          exact List.mem_flatMap.2 ⟨e, he, ho⟩
        · rw [boundVars_app]
          exact List.mem_flatMap.2 ⟨e, he, hn⟩
      · exact hself
    · exact hself

theorem simplifyBoolNary_sound (hrec : SoundUnder T reserved facts rec) {isAnd : Bool} {d : ℕ}
    {children : List Expr} (h : Admissible reserved (nary isAnd children)) :
    (simplifyBoolNary rec isAnd d children).Ensures
      (Rewrites (T := T) facts.Holds [] (nary isAnd children)) := by
  unfold simplifyBoolNary
  have hloop : (boolNaryLoop rec isAnd d children []).Ensures
      (LoopResult T facts isAnd ([] ++ children)) :=
    boolNaryLoop_sound hrec (by simp) (admissible_nary.1 h)
  refine hloop.bind fun o ho => ?_
  rw [List.nil_append] at ho
  split
  · refine .pure (.to_boolConst sort_nary fun ρ hρ => ?_)
    rw [ho ρ hρ]
    cases isAnd <;> simp
  · refine .pure (Rewrites.trans ho (.to_boolConst sort_nary fun ρ _ => ?_))
    rw [holds_nary]
    cases isAnd <;> simp
  · rename_i e
    obtain ⟨he, hs⟩ := admissible_nary.1 (ho.admissible' h) e (by simp)
    refine .pure (Rewrites.trans ho (.of_holds_iff sort_nary hs he.wellSorted ?_ ?_ fun ρ _ => ?_))
    · simp [nary]
    · simp [nary]
    · rw [holds_nary]
      cases isAnd <;> simp
  · exact ensures_ofOption_tryApp fun _ => ho

/-! ### Bit-vectors -/

/-- A term whose bits the facts decide. -/
theorem rewrites_mkBitvec {e : Expr} {v w : ℕ} (hs : e.sort = .bitvec w)
    (h : ∀ ρ : T.Env, bits w e ρ = BitVec.ofNat w v) :
    Rewrites (T := T) facts.Holds [] e (mkBitvec v w) := by
  refine .of_eval ?_ ?_ (by simp [mkBitvec]) (by simp [mkBitvec]) fun ρ _ => ?_
  · simp [mkBitvec, hs, Op.resultSort]
  · simp [mkBitvec, Op.accepts]
  · rw [eval_eq_ofBV_bits hs, h ρ, mkBitvec, eval_app, Op.interp]

/-- The operands of a binary bit-vector operator have one bit-vector sort. -/
theorem sorts_of_accepts {op : Op} {lhs rhs : Expr}
    (hop : (∃ f, op = .bvBin f) ∨ (∃ f, op = .bvCmp f) ∨ ∃ f, op = .bvCheck f)
    (h : Admissible reserved (.app op [lhs, rhs])) :
    ∃ w, lhs.sort = .bitvec w ∧ rhs.sort = .bitvec w := by
  have hacc := h.accepts
  have hsorts : (lhs.sort.isBitvec && lhs.sort == rhs.sort) = true := by
    rcases hop with ⟨f, rfl⟩ | ⟨f, rfl⟩ | ⟨f, rfl⟩ <;>
      simpa only [List.map_cons, List.map_nil, Op.accepts] using hacc
  rw [Bool.and_eq_true, beq_iff_eq] at hsorts
  obtain ⟨w, hw⟩ := SmtSort.isBitvec_iff.1 hsorts.1
  exact ⟨w, hw, hsorts.2 ▸ hw⟩

theorem simplifyBvBinop_sound (hrec : SoundUnder T reserved facts rec) {d : ℕ} {f : BvBin}
    {lhs rhs : Expr} (h : Admissible reserved (.bv f lhs rhs)) :
    (simplifyBvBinop rec d f lhs rhs).Ensures
      (Rewrites (T := T) facts.Holds [] (.bv f lhs rhs)) := by
  unfold simplifyBvBinop
  refine (hrec d lhs (h.arg (by simp))).bind fun l hl => ?_
  refine (hrec d rhs (h.arg (by simp))).bind fun r hr => ?_
  have hargs : Rewrites (T := T) facts.Holds [] (.bv f lhs rhs) (.bv f l r) :=
    .app₂ hl hr h.accepts
  obtain ⟨w, hls, hrs⟩ := sorts_of_accepts (Or.inl ⟨f, rfl⟩) (hargs.admissible' h)
  split
  · exact .bail
  · split
    · rename_i x lw y rw' hx hy
      split
      · exact .bail
      · rename_i hw
        obtain ⟨hxs, hle, hxlt, hxb⟩ := bvConstU128_spec hx
        obtain ⟨hys, -, hylt, hyb⟩ := bvConstU128_spec hy
        obtain rfl : w = lw := by simpa [hls] using hxs
        obtain rfl : w = rw' := by simpa [hrs] using hys
        split
        · rename_i v hv
          refine .pure (hargs.trans (rewrites_mkBitvec (by simp [Op.resultSort, hls]) fun ρ => ?_))
          rw [ofNat_foldBvBin hle hxlt hylt hv, bits, eval_bv hls, toBV_ofBV, hxb, hyb]
        · exact ensures_ofOption_tryApp fun _ => hargs
    · exact ensures_ofOption_tryApp fun _ => hargs

/-- An unsigned comparison says what its kind says of the values. -/
theorem holds_unsignedCmp {kind : UnsignedCmp} {a b : Expr} {w : ℕ} {ρ : T.Env}
    (ha : a.sort = .bitvec w) :
    Holds ρ (.bvCmp kind.toBvCmp a b) ↔ kind.fold (bits w a ρ).toNat (bits w b ρ).toNat = true := by
  rw [holds_bvCmp ha, UnsignedCmp.denote_toBvCmp]

theorem simplifyBvCmp_sound (hrec : SoundUnder T reserved facts rec) {d : ℕ}
    (kind : UnsignedCmp) {lhs rhs : Expr}
    (h : Admissible reserved (.bvCmp kind.toBvCmp lhs rhs)) :
    (simplifyBvCmp facts rec d kind lhs rhs).Ensures
      (Rewrites (T := T) facts.Holds [] (.bvCmp kind.toBvCmp lhs rhs)) := by
  unfold simplifyBvCmp
  refine (hrec d lhs (h.arg (by simp))).bind fun l hl => ?_
  refine (hrec d rhs (h.arg (by simp))).bind fun r hr => ?_
  have hargs : Rewrites (T := T) facts.Holds [] (.bvCmp kind.toBvCmp lhs rhs)
      (.bvCmp kind.toBvCmp l r) := .app₂ hl hr h.accepts
  obtain ⟨w, hls, hrs⟩ := sorts_of_accepts (Or.inr (Or.inl ⟨_, rfl⟩)) (hargs.admissible' h)
  split
  · exact .bail
  · split
    · rename_i x lw y rw' hx hy
      split
      · exact .bail
      · obtain ⟨hxs, -⟩ := bvConstU128_spec hx
        obtain ⟨hys, -⟩ := bvConstU128_spec hy
        obtain rfl : w = lw := by simpa [hls] using hxs
        obtain rfl : w = rw' := by simpa [hrs] using hys
        refine .pure (hargs.trans (.to_boolConst (by simp [Op.resultSort]) fun ρ _ => ?_))
        rw [holds_unsignedCmp hls, toNat_bits_of_const hx, toNat_bits_of_const hy]
    · split
      · rename_i b hb
        refine .pure (hargs.trans (.to_boolConst (by simp [Op.resultSort]) fun ρ hρ => ?_))
        rw [holds_unsignedCmp hls, fold_of_unsignedBoundDecidesCmp hρ hls hrs hb]
      · exact ensures_ofOption_tryApp fun _ => hargs

theorem simplifyBvSignedCmp_sound (hrec : SoundUnder T reserved facts rec) {d : ℕ} {f : BvCmp}
    {lhs rhs : Expr} (h : Admissible reserved (.bvCmp f lhs rhs)) :
    (simplifyBvSignedCmp rec d f lhs rhs).Ensures
      (Rewrites (T := T) facts.Holds [] (.bvCmp f lhs rhs)) := by
  unfold simplifyBvSignedCmp
  refine (hrec d lhs (h.arg (by simp))).bind fun l hl => ?_
  refine (hrec d rhs (h.arg (by simp))).bind fun r hr => ?_
  have hargs : Rewrites (T := T) facts.Holds [] (.bvCmp f lhs rhs) (.bvCmp f l r) :=
    .app₂ hl hr h.accepts
  obtain ⟨w, hls, hrs⟩ := sorts_of_accepts (Or.inr (Or.inl ⟨_, rfl⟩)) (hargs.admissible' h)
  split
  · exact .bail
  · split
    · rename_i x lw y rw' hx hy
      split
      · exact .bail
      · rename_i hw
        obtain ⟨hxs, -, hxlt, hxb⟩ := bvConstU128_spec hx
        obtain ⟨hys, -, hylt, hyb⟩ := bvConstU128_spec hy
        obtain rfl : w = lw := by simpa [hls] using hxs
        obtain rfl : w = rw' := by simpa [hrs] using hys
        have hpos : 0 < w := Nat.pos_of_ne_zero fun h₀ => hw (Or.inr h₀)
        refine (Ensures.ofOption (P := fun b => foldSigned (signedBvOrder x y w) f = some b)
          fun _ => id).bind fun b hb => ?_
        refine .pure (hargs.trans (.to_boolConst (by simp [Op.resultSort]) fun ρ _ => ?_))
        rw [holds_bvCmp hls, hxb, hyb, fold_signedBvOrder hpos hxlt hylt hb]
    · exact ensures_ofOption_tryApp fun _ => hargs

theorem simplifyBvConcat_sound (hrec : SoundUnder T reserved facts rec) {d : ℕ}
    {lhs rhs : Expr} (h : Admissible reserved (.app .bvConcat [lhs, rhs])) :
    (simplifyBvConcat rec d lhs rhs).Ensures
      (Rewrites (T := T) facts.Holds [] (.app .bvConcat [lhs, rhs])) := by
  unfold simplifyBvConcat
  refine (hrec d lhs (h.arg (by simp))).bind fun l hl => ?_
  refine (hrec d rhs (h.arg (by simp))).bind fun r hr => ?_
  have hargs : Rewrites (T := T) facts.Holds [] (.app .bvConcat [lhs, rhs])
      (.app .bvConcat [l, r]) := .app₂ hl hr h.accepts
  split
  · rename_i x lw y rw' hx hy
    split
    · exact .bail
    · rename_i hw
      obtain ⟨hxs, -, hxlt, hxb⟩ := bvConstU128_spec hx
      obtain ⟨hys, -, hylt, hyb⟩ := bvConstU128_spec hy
      refine .pure (hargs.trans
        (rewrites_mkBitvec (by simp [Op.resultSort, hxs, hys]) fun ρ => ?_))
      rw [bits, eval_bvConcat hxs hys, toBV_ofBV, hxb, hyb]
      apply BitVec.eq_of_toNat_eq
      have hlt : x <<< rw' < 2 ^ (lw + rw') := by
        rw [Nat.shiftLeft_eq, Nat.pow_add]
        exact Nat.mul_lt_mul_of_pos_right hxlt (Nat.two_pow_pos _)
      have hle : 2 ^ (lw + rw') ≤ 2 ^ 128 := Nat.pow_le_pow_right (by decide) (by omega)
      have hor : x <<< rw' ||| y < 2 ^ (lw + rw') := by
        refine Nat.or_lt_two_pow hlt (lt_of_lt_of_le hylt ?_)
        exact Nat.pow_le_pow_right (by decide) (by omega)
      rw [BitVec.toNat_append, BitVec.toNat_ofNat, BitVec.toNat_ofNat, BitVec.toNat_ofNat,
        Nat.mod_eq_of_lt hxlt, Nat.mod_eq_of_lt hylt, Nat.mod_eq_of_lt (lt_of_lt_of_le hlt hle),
        Nat.mod_eq_of_lt hor]
  · exact ensures_ofOption_tryApp fun _ => hargs

theorem simplifyBvZeroExtend_sound (hrec : SoundUnder T reserved facts rec) {d : ℕ} {e : Expr}
    {extraBits : ℕ} (h : Admissible reserved (.app (.bvZeroExtend extraBits) [e])) :
    (simplifyBvZeroExtend rec d e extraBits).Ensures
      (Rewrites (T := T) facts.Holds [] (.app (.bvZeroExtend extraBits) [e])) := by
  unfold simplifyBvZeroExtend
  refine (hrec d e (h.arg (by simp))).bind fun e' he' => ?_
  have harg : Rewrites (T := T) facts.Holds [] (.app (.bvZeroExtend extraBits) [e])
      (.app (.bvZeroExtend extraBits) [e']) := .app₁ he' h.accepts
  refine (Ensures.ofOption (P := fun w => e'.sort = .bitvec w) fun w hw => by simpa using hw).bind
    fun w hw => ?_
  split
  · exact ensures_ofOption_tryApp fun _ => harg
  · split
    · rename_i v w' hv
      obtain ⟨hvs, -, hvlt, hvb⟩ := bvConstU128_spec hv
      obtain rfl : w = w' := by simpa [hw] using hvs
      refine .pure (harg.trans (rewrites_mkBitvec (by simp [Op.resultSort, hw]) fun ρ => ?_))
      rw [bits, eval_bvZeroExtend hw, toBV_ofBV, hvb]
      apply BitVec.eq_of_toNat_eq
      rw [BitVec.toNat_setWidth, BitVec.toNat_ofNat, BitVec.toNat_ofNat, Nat.mod_eq_of_lt hvlt]
    · exact ensures_ofOption_tryApp fun _ => harg

theorem simplifyBvExtract_sound (hrec : SoundUnder T reserved facts rec) {d : ℕ} {e : Expr}
    {high low : ℕ} (h : Admissible reserved (.app (.bvExtract high low) [e])) :
    (simplifyBvExtract rec d e high low).Ensures
      (Rewrites (T := T) facts.Holds [] (.app (.bvExtract high low) [e])) := by
  unfold simplifyBvExtract
  refine (hrec d e (h.arg (by simp))).bind fun e' he' => ?_
  have harg : Rewrites (T := T) facts.Holds [] (.app (.bvExtract high low) [e])
      (.app (.bvExtract high low) [e']) := .app₁ he' h.accepts
  refine (Ensures.ofOption (P := fun w => e'.sort = .bitvec w) fun w hw => by simpa using hw).bind
    fun w hw => ?_
  split
  · exact .bail
  · rename_i hbounds
    split
    · exact ensures_ofOption_tryApp fun _ => harg
    · rename_i v w' hv
      obtain ⟨hvs, -, hvlt, hvb⟩ := bvConstU128_spec hv
      obtain rfl : w = w' := by simpa [hw] using hvs
      refine .pure (harg.trans (rewrites_mkBitvec (by simp [Op.resultSort]) fun ρ => ?_))
      rw [bits, eval_bvExtract hw, toBV_ofBV, hvb, and_bvMask (by omega)]
      apply BitVec.eq_of_toNat_eq
      rw [BitVec.extractLsb_toNat, BitVec.toNat_ofNat, BitVec.toNat_ofNat, Nat.mod_eq_of_lt hvlt,
        Nat.mod_mod]

theorem unsignedBoundProvesMulNoOverflow_sound {ρ : T.Env} (hρ : facts.Holds ρ) {e : Expr}
    {c w : ℕ} (hw : w ≤ 128) (h : unsignedBoundProvesMulNoOverflow facts e c w = true) :
    (bits w e ρ).toNat * c < 2 ^ w := by
  unfold unsignedBoundProvesMulNoOverflow at h
  split_ifs at h with hc
  · rw [hc, Nat.mul_zero]
    exact Nat.two_pow_pos w
  · split at h
    · cases h
    · rename_i bound boundWidth hbound
      split_ifs at h with hne
      obtain rfl : boundWidth = w := not_not.1 hne
      have hlt : (bits boundWidth e ρ).toNat < bound := hρ.lt_of_unsignedUpperBound hbound
      have hfits := (unsignedMulFitsWidth_iff hw).1 h
      exact lt_of_le_of_lt (Nat.mul_le_mul_right c (by omega)) hfits

theorem simplifyBvMulNoOverflowUnsigned_sound (hrec : SoundUnder T reserved facts rec) {d : ℕ}
    {lhs rhs : Expr}
    (h : Admissible reserved (.app (.bvCheck .mulNoOverflowUnsigned) [lhs, rhs])) :
    (simplifyBvMulNoOverflowUnsigned facts rec d lhs rhs).Ensures
      (Rewrites (T := T) facts.Holds [] (.app (.bvCheck .mulNoOverflowUnsigned) [lhs, rhs])) := by
  unfold simplifyBvMulNoOverflowUnsigned
  refine (hrec d lhs (h.arg (by simp))).bind fun l hl => ?_
  refine (hrec d rhs (h.arg (by simp))).bind fun r hr => ?_
  have hargs : Rewrites (T := T) facts.Holds []
      (.app (.bvCheck .mulNoOverflowUnsigned) [lhs, rhs])
      (.app (.bvCheck .mulNoOverflowUnsigned) [l, r]) := .app₂ hl hr h.accepts
  obtain ⟨w, hls, hrs⟩ := sorts_of_accepts (Or.inr (Or.inr ⟨_, rfl⟩)) (hargs.admissible' h)
  have hholds : ∀ ρ : T.Env, Holds ρ (.app (.bvCheck .mulNoOverflowUnsigned) [l, r]) ↔
      (bits w l ρ).toNat * (bits w r ρ).toNat < 2 ^ w := by
    intro ρ
    rw [holds_bvCheck hls, BvCheck.denote, decide_eq_true_eq]
  split
  · exact .bail
  · refine (Ensures.ofOption (P := fun w' => l.sort = .bitvec w') fun w' hw' => by
      simpa using hw').bind fun w' hw' => ?_
    obtain rfl : w = w' := by simpa [hls] using hw'
    dsimp only
    split
    · exact ensures_ofOption_tryApp fun _ => hargs
    · rename_i hw
      have hle : w ≤ 128 := by omega
      split
      · -- two constants
        rename_i x lw y rw' hx hy
        split
        · exact .bail
        · obtain ⟨hxs, -⟩ := bvConstU128_spec hx
          obtain ⟨hys, -⟩ := bvConstU128_spec hy
          obtain rfl : w = lw := by simpa [hls] using hxs
          obtain rfl : w = rw' := by simpa [hrs] using hys
          refine .pure (hargs.trans (.to_boolConst (by simp [Op.resultSort]) fun ρ _ => ?_))
          rw [hholds, unsignedMulFitsWidth_iff hle, toNat_bits_of_const hx,
            toNat_bits_of_const hy]
      · split
        · -- a constant, and a term whose bound is known
          rename_i c e hone
          split
          · rename_i hproves
            refine .pure (hargs.trans (.to_boolConst (by simp [Op.resultSort]) fun ρ hρ => ?_))
            have hlt := unsignedBoundProvesMulNoOverflow_sound hρ hle hproves
            rw [hholds]
            simp only [iff_true]
            unfold oneConstOneExpr at hone
            split at hone
            · rename_i v lw hv
              obtain ⟨rfl, rfl⟩ : v = c ∧ r = e := by simpa using hone
              obtain ⟨hvs, -⟩ := bvConstU128_spec hv
              obtain rfl : w = lw := by simpa [hls] using hvs
              rw [toNat_bits_of_const hv, Nat.mul_comm]
              exact hlt
            · obtain ⟨⟨v, rw'⟩, hv, heq⟩ := Option.map_eq_some_iff.1 hone
              obtain ⟨rfl, rfl⟩ : v = c ∧ l = e := by simpa using heq
              obtain ⟨hvs, -⟩ := bvConstU128_spec hv
              obtain rfl : w = rw' := by simpa [hrs] using hvs
              rw [toNat_bits_of_const hv]
              exact hlt
          · exact ensures_ofOption_tryApp fun _ => hargs
        · exact ensures_ofOption_tryApp fun _ => hargs

/-! ### Arrays -/

theorem sort_of_select {array index : Expr} (h : Admissible reserved (array.select index)) :
    ∃ s, array.sort = .array index.sort s := by
  have hacc := h.accepts
  simp only [List.map_cons, List.map_nil, Op.accepts, beq_iff_eq, Option.map_eq_some_iff,
    SmtSort.arraySort_eq_some, Prod.exists] at hacc
  obtain ⟨i, s, hs, rfl⟩ := hacc
  exact ⟨s, hs⟩

theorem sort_of_store {base index v : Expr} (h : Admissible reserved (base.store index v)) :
    base.sort = .array index.sort v.sort := by
  simpa only [List.map_cons, List.map_nil, Op.accepts, beq_iff_eq] using h.accepts

theorem selectFromSimplified_sound {maxDepth : ℕ} (hrec : SoundUnder T reserved facts rec)
    {d : ℕ} {array index : Expr} (h : Admissible reserved (array.select index)) :
    (selectFromSimplified maxDepth facts rec d array index).Ensures
      (Rewrites (T := T) facts.Holds [] (array.select index)) := by
  have hindex : Admissible reserved index := h.arg (by simp)
  induction array generalizing d with
  | var n s =>
    rw [selectFromSimplified.eq_def]
    exact .seq (.pure (.refl h.wellSorted))
  | quant q vs b _ =>
    rw [selectFromSimplified.eq_def]
    exact .seq (.pure (.refl h.wellSorted))
  | app op args ih =>
    rw [selectFromSimplified.eq_def]
    refine .seq ?_
    have harray : Admissible reserved (.app op args) := h.arg (by simp)
    split
    · rename_i i v heq
      obtain ⟨rfl, rfl⟩ := Expr.app.inj heq
      have hv : Admissible reserved v := harray.arg (by simp)
      refine .pure (.of_eval ?_ hv.wellSorted (by simp +contextual) (by simp +contextual)
        fun ρ _ => (eval_select_constArray i).symm)
      simp [Op.resultSort, SmtSort.arraySort]
    · rename_i base storeIndex v heq
      obtain ⟨rfl, rfl⟩ := Expr.app.inj heq
      have hbase := sort_of_store harray
      obtain ⟨s, hs⟩ := sort_of_select h
      obtain ⟨hi, rfl⟩ : storeIndex.sort = index.sort ∧ v.sort = s := by
        simpa [Op.resultSort, hbase] using hs
      have hv : Admissible reserved v := harray.arg (by simp)
      have heqAdm : Admissible reserved (storeIndex.eq index) := by
        refine .of_tryApp (by simp [Op.accepts, hi]) ?_
        simpa using ⟨harray.arg (by simp), hindex⟩
      have hbaseAdm : Admissible reserved (base.select index) := by
        refine .of_tryApp (by simp [Op.accepts, hbase, hi, SmtSort.arraySort]) ?_
        simpa using ⟨harray.arg (by simp), hindex⟩
      -- Where the indices differ, the store is skipped.
      have hskip : (∀ ρ : T.Env, facts.Holds ρ → storeIndex.eval ρ ≠ index.eval ρ) →
          Rewrites (T := T) facts.Holds [] ((base.store storeIndex v).select index)
            (base.select index) := by
        intro hne
        refine .of_eval ?_ hbaseAdm.wellSorted (by simp; grind) (by simp; grind) fun ρ hρ =>
          (eval_select_store_ne hbase rfl hi.symm (hne ρ hρ)).symm
        simp [Op.resultSort]
      refine (simplifyEqWithFacts_sound hrec heqAdm).bind fun e he => ?_
      split
      · rename_i htrue
        subst htrue
        refine .pure (.of_eval ?_ hv.wellSorted (by simp +contextual) (by simp +contextual)
          fun ρ hρ => ?_)
        · simp [Op.resultSort, hbase, SmtSort.arraySort]
        · have heq : Holds ρ (storeIndex.eq index) := (he.holds_iff hρ).1 (by simp)
          exact (eval_select_store_eq hbase rfl (holds_eq.1 heq)).symm
      · split
        · rename_i hdis
          have hrw := hskip fun ρ hρ => PathFacts.eval_ne_of_areDisequal hρ hdis
          exact (ih base (by simp) hbaseAdm).mono fun _ hr => hrw.trans hr
        · refine (simplifyEqWithFacts_sound hrec heqAdm).bind fun e' he' => ?_
          split
          · rename_i hfalse
            subst hfalse
            have hrw := hskip fun ρ hρ heq => by
              have hf : Holds ρ (.boolConst false) := (he'.holds_iff hρ).2 (holds_eq.2 heq)
              simp at hf
            exact (ih base (by simp) hbaseAdm).mono fun _ hr => hrw.trans hr
          · exact .pure (.refl h.wellSorted)
    · exact .pure (.refl h.wellSorted)

theorem simplifySelect_sound {maxDepth : ℕ} (hrec : SoundUnder T reserved facts rec) {d : ℕ}
    {array index : Expr} (h : Admissible reserved (array.select index)) :
    (simplifySelect maxDepth facts rec d array index).Ensures
      (Rewrites (T := T) facts.Holds [] (array.select index)) := by
  unfold simplifySelect
  refine (hrec d array (h.arg (by simp))).bind fun a ha => ?_
  refine (hrec d index (h.arg (by simp))).bind fun i hi => ?_
  have hargs : Rewrites (T := T) facts.Holds [] (array.select index) (a.select i) :=
    .app₂ ha hi h.accepts
  exact (selectFromSimplified_sound hrec (hargs.admissible' h)).mono fun _ hr => hargs.trans hr

/-! ### Datatypes -/

theorem simplifyDatatypeSelector_sound (hrec : SoundUnder T reserved facts rec) {d : ℕ}
    {dt sel : String} {s : SmtSort} {target : Expr}
    (h : Admissible reserved (target.fieldSelect dt sel s)) :
    (simplifyDatatypeSelector rec d dt sel s target).Ensures
      (Rewrites (T := T) facts.Holds [] (target.fieldSelect dt sel s)) := by
  unfold simplifyDatatypeSelector
  refine (hrec d target (h.arg (by simp))).bind fun e he => ?_
  have harg : Rewrites (T := T) facts.Holds [] (target.fieldSelect dt sel s)
      (e.fieldSelect dt sel s) := .app₁ he h.accepts
  have hadm := harg.admissible' h
  dsimp only
  split
  · rename_i ctorDt ctor ctorSort args
    split
    · exact .bail
    · have hctor : Admissible reserved (.app (.datatypeConstructor ctorDt ctor ctorSort) args) :=
        hadm.arg (by simp)
      refine (Ensures.ofOption (P := fun o => selectedArg ctor sel ctorSort args = some o)
        fun _ => id).bind fun o ho => ?_
      cases o with
      | none => exact .pure harg
      | some arg =>
        refine .pure (harg.trans ?_)
        obtain ⟨n, cs, c, rfl, hfind, hsorts⟩ := constructor_of_wellSorted hctor.wellSorted
        simp only [selectedArg, SmtSort.constructors, Option.map_some, Option.some.injEq,
          Option.bind_eq_bind, Option.bind_eq_some_iff] at ho
        obtain ⟨c', hc', i, hi, harg'⟩ := ho
        obtain rfl : c = c' := Option.some.inj (hfind.symm.trans hc')
        have hmem : arg ∈ args := List.mem_of_getElem? harg'
        have hs : arg.sort = s := sort_of_selectedArg hadm.wellSorted hfind hsorts hi harg'
        refine .of_eval ?_ (hctor.arg hmem).wellSorted ?_ ?_ fun ρ _ => ?_
        · simp [Op.resultSort, hs]
        · intro o ho
          simpa using ⟨arg, hmem, ho⟩
        · intro n hn
          simpa using ⟨arg, hmem, hn⟩
        · exact (eval_fieldSelect_constructor hfind hsorts hi harg' hs).symm
  · rename_i c a b
    have hite : Admissible reserved (.app .ite [c, a, b]) := hadm.arg (by simp)
    obtain ⟨-, hab⟩ := sorts_of_ite hite
    split
    · rename_i a₁ b₁ ha₁ hb₁
      unfold tryApp at ha₁ hb₁
      split_ifs at ha₁ hb₁ with hacca haccb
      obtain rfl := Option.some.inj ha₁
      obtain rfl := Option.some.inj hb₁
      have ha₂ : Admissible reserved (a.fieldSelect dt sel s) :=
        .of_tryApp hacca (by simpa using hite.arg (by simp))
      have hb₂ : Admissible reserved (b.fieldSelect dt sel s) :=
        .of_tryApp haccb (by simpa using hite.arg (by simp))
      have hacc : Op.ite.accepts
          [c.sort, (a.fieldSelect dt sel s).sort, (b.fieldSelect dt sel s).sort] = true := by
        simpa [Op.accepts, Op.resultSort] using (sorts_of_ite hite).1
      have hpush : Rewrites (T := T) facts.Holds [] ((Expr.ite c a b).fieldSelect dt sel s)
          (Expr.ite c (a.fieldSelect dt sel s) (b.fieldSelect dt sel s)) :=
        .app_ite hadm.wellSorted
      refine (hrec d c (hite.arg (by simp))).bind fun c' hc' => ?_
      refine (hrec d _ ha₂).bind fun a' ha' => ?_
      refine (hrec d _ hb₂).bind fun b' hb' => ?_
      refine Ensures.bind (P := Rewrites (T := T) facts.Holds [] _) ?_ fun r hr =>
        hrec.of_rewrites h hr
      refine ensures_ofOption_tryApp fun _ => harg.trans (hpush.trans ?_)
      exact .app₃ hc' ha' hb' hacc
    · exact .pure harg
  · exact .pure harg

theorem simplifyDatatypeTester_sound (hrec : SoundUnder T reserved facts rec) {d : ℕ}
    {dt ctor : String} {fuel : ℕ} {target : Expr}
    (h : Admissible reserved (target.isConstructor dt ctor)) :
    (simplifyDatatypeTester rec d dt ctor fuel target).Ensures
      (Rewrites (T := T) facts.Holds [] (target.isConstructor dt ctor)) := by
  induction fuel generalizing target with
  | zero => exact .bail
  | succ fuel ih =>
    rw [simplifyDatatypeTester]
    refine (hrec d target (h.arg (by simp))).bind fun e he => ?_
    have harg : Rewrites (T := T) facts.Holds [] (target.isConstructor dt ctor)
        (e.isConstructor dt ctor) := .app₁ he h.accepts
    have hadm := harg.admissible' h
    split
    · rename_i ctorDt ctorName s args
      split
      · exact .bail
      · refine .pure (harg.trans (.to_boolConst (by simp [Op.resultSort]) fun ρ _ => ?_))
        have hctor : Admissible reserved (.app (.datatypeConstructor ctorDt ctorName s) args) :=
          hadm.arg (by simp)
        rw [holds_isConstructor_constructor hctor.wellSorted, beq_iff_eq]
    · rename_i c a b
      have hite : Admissible reserved (.app .ite [c, a, b]) := hadm.arg (by simp)
      obtain ⟨hcs, hab⟩ := sorts_of_ite hite
      have hacct : (Op.datatypeTester dt ctor).accepts [a.sort] = true := by
        simpa [Op.accepts, Op.resultSort] using hadm.accepts
      have ha : Admissible reserved (a.isConstructor dt ctor) :=
        .of_tryApp hacct (by simpa using hite.arg (by simp))
      have hb : Admissible reserved (b.isConstructor dt ctor) :=
        .of_tryApp (by simpa [hab] using hacct) (by simpa using hite.arg (by simp))
      have hacc : Op.ite.accepts
          [c.sort, (a.isConstructor dt ctor).sort, (b.isConstructor dt ctor).sort] = true := by
        simpa [Op.accepts, Op.resultSort] using hcs
      have hpush : Rewrites (T := T) facts.Holds [] ((Expr.ite c a b).isConstructor dt ctor)
          (Expr.ite c (a.isConstructor dt ctor) (b.isConstructor dt ctor)) :=
        .app_ite hadm.wellSorted
      refine (hrec d c (hite.arg (by simp))).bind fun c' hc' => ?_
      refine (ih ha).bind fun a' ha' => ?_
      refine (ih hb).bind fun b' hb' => ?_
      refine Ensures.bind (P := Rewrites (T := T) facts.Holds [] _) ?_ fun r hr =>
        hrec.of_rewrites h hr
      refine ensures_ofOption_tryApp fun _ => harg.trans (hpush.trans ?_)
      exact .app₃ hc' ha' hb' hacc
    · exact ensures_ofOption_tryApp fun _ => harg

/-! ### Nodes -/

theorem simplifyRebuiltChildren_sound (hrec : SoundUnder T reserved facts rec)
    (hstable : StableOff reserved (facts.Holds (T := T))) {d : ℕ} {e : Expr}
    (h : Admissible reserved e) :
    (simplifyRebuiltChildren rec d e).Ensures (Rewrites (T := T) facts.Holds [] e) := by
  cases e with
  | var n s => exact .pure (.refl h.wellSorted)
  | app op args =>
    refine (Ensures.mapM fun a ha => hrec d a (h.arg ha)).bind fun args' hargs' => ?_
    exact .pure (.app hargs' h.accepts)
  | quant q vs b =>
    refine (hrec d b h.body).bind fun b' hb' => .pure ?_
    refine hb'.quant (wellSorted_quant.1 h.wellSorted).1 hstable fun n hn => h.bound n ?_
    rw [boundVars_quant]
    exact List.mem_append_left _ hn

theorem simplifyNode_sound {maxDepth fuel : ℕ} (hrec : SoundUnder T reserved facts rec)
    (hstable : StableOff reserved (facts.Holds (T := T))) {d : ℕ} {e : Expr}
    (h : Admissible reserved e) :
    (simplifyNode maxDepth facts rec fuel d e).Ensures
      (Rewrites (T := T) facts.Holds [] e) := by
  have hrebuilt := simplifyRebuiltChildren_sound hrec hstable (d := d) h
  unfold simplifyNode
  split
  · rename_i inner
    have hinner : Admissible reserved inner := h.arg (by simp)
    have hs : inner.sort = .bool := by simpa [Op.accepts] using h.accepts
    refine (hrec d inner hinner).bind fun r hr => ?_
    have harg : Rewrites (T := T) facts.Holds [] inner.not r.not := .app₁ hr h.accepts
    split
    · rename_i v args
      refine .pure (harg.trans (.to_boolConst (by simp [Op.resultSort]) fun ρ _ => ?_))
      rw [holds_not, Holds, eval_app, Op.interp, toBool_ofBool]
      simp
    · rename_i double
      have hdbl : Admissible reserved (Expr.not double) := hr.admissible' hinner
      have hsd : double.sort = .bool := by simpa [Op.accepts] using hdbl.accepts
      refine hrec.of_rewrites h (harg.trans (.of_holds_iff (by simp [Op.resultSort]) hsd
        (hdbl.arg (by simp)).wellSorted (by simp) (by simp) fun ρ _ => ?_))
      simp
    · exact ensures_ofOption_tryApp fun _ => harg
  · exact simplifyEqWithFacts_sound hrec h
  · exact simplifyBoolNary_sound hrec h
  · exact simplifyBoolNary_sound hrec h
  · rename_i c a b
    obtain ⟨hcs, hab⟩ := sorts_of_ite h
    have ha : Admissible reserved a := h.arg (by simp)
    have hb : Admissible reserved b := h.arg (by simp)
    refine (hrec d c (h.arg (by simp))).bind fun c' hc' => ?_
    have hcond : Rewrites (T := T) facts.Holds [] (Expr.ite c a b) (Expr.ite c' a b) :=
      .app₃ hc' (.refl ha.wellSorted) (.refl hb.wellSorted) h.accepts
    have hconst : ∀ (v : Bool) args (ρ : T.Env), Holds ρ (.app (.boolConst v) args) ↔ v = true := by
      intro v args ρ
      rw [Holds, eval_app, Op.interp, toBool_ofBool]
    split
    · refine hrec.of_rewrites h (hcond.trans (.of_eval (sort_ite _ a b).symm ha.wellSorted
        (by simp +contextual) (by simp +contextual) fun ρ _ => ?_))
      rw [eval_ite hab, if_pos ((hconst _ _ ρ).2 rfl)]
    · refine hrec.of_rewrites h (hcond.trans (.of_eval ((sort_ite _ a b).trans hab).symm
        hb.wellSorted (by simp +contextual) (by simp +contextual) fun ρ _ => ?_))
      rw [eval_ite hab, if_neg fun hf => by simpa using (hconst _ _ ρ).1 hf]
    · exact (simplifyIteWithFacts_sound hrec (hcond.admissible' h)).mono fun _ hr => hcond.trans hr
  · split
    all_goals first | exact simplifyBvBinop_sound hrec h | exact hrebuilt
  · exact simplifyBvConcat_sound hrec h
  · exact simplifyBvExtract_sound hrec h
  · exact simplifyBvZeroExtend_sound hrec h
  · split
    · exact simplifyBvCmp_sound hrec .ge h
    · exact simplifyBvCmp_sound hrec .gt h
    · exact simplifyBvCmp_sound hrec .le h
    · exact simplifyBvCmp_sound hrec .lt h
    · exact simplifyBvSignedCmp_sound hrec h
  · exact simplifyBvMulNoOverflowUnsigned_sound hrec h
  · exact simplifySelect_sound hrec h
  · rename_i array index v
    refine (hrec d array (h.arg (by simp))).bind fun a ha => ?_
    refine (hrec d index (h.arg (by simp))).bind fun i hi => ?_
    refine (hrec d v (h.arg (by simp))).bind fun v' hv' => ?_
    exact .pure (.app₃ ha hi hv' h.accepts)
  · rename_i index v
    exact (hrec d v (h.arg (by simp))).bind fun v' hv' => .pure (.app₁ hv' h.accepts)
  · exact simplifyDatatypeSelector_sound hrec h
  · exact simplifyDatatypeTester_sound hrec h
  · exact hrebuilt

/-- **Simplification is sound**: whatever it returns may stand for the term under the
facts, provided the facts do not mention bound names. -/
theorem simplifyWithFacts_sound {maxDepth fuel : ℕ}
    (hstable : StableOff reserved (facts.Holds (T := T))) :
    SoundUnder T reserved facts (simplifyWithFacts maxDepth facts fuel) := by
  induction fuel with
  | zero => exact fun _ _ _ => .bail
  | succ fuel ih => exact fun _ _ he => .seq (simplifyNode_sound ih hstable he)

/-! ### Substitution -/

/-- The bindings are true under the assignment: a name has the value of its term. -/
def SymEnv.Holds (env : SymEnv) (ρ : T.Env) : Prop :=
  ∀ p ∈ env, (Expr.var p.1 p.2.sort).eval ρ = p.2.eval ρ

namespace SymEnv

variable {env : SymEnv} {ρ : T.Env}

/-- The terms names are bound to. -/
def values (env : SymEnv) : List Expr := env.map (·.2)

theorem mem_of_lookup {name : String} {v : Expr} (h : env.lookup name = some v) :
    (name, v) ∈ env := by
  induction env with
  | nil => cases h
  | cons p env ih =>
    obtain ⟨n, v'⟩ := p
    rw [List.lookup_cons] at h
    split at h
    · rename_i heq
      obtain rfl : name = n := by simpa using heq
      obtain rfl := Option.some.inj h
      exact List.mem_cons_self
    · exact List.mem_cons_of_mem _ (ih h)

theorem mem_insert {name : String} {value : Expr} {p : String × Expr}
    (h : p ∈ env.insert name value) : p = (name, value) ∨ p ∈ env := by
  induction env with
  | nil => exact Or.inl (List.mem_singleton.1 h)
  | cons q env ih =>
    obtain ⟨n, v⟩ := q
    rw [insert] at h
    split_ifs at h with hn
    · rcases List.mem_cons.1 h with rfl | h
      · exact Or.inl (by rw [hn])
      · exact Or.inr (List.mem_cons_of_mem _ h)
    · rcases List.mem_cons.1 h with rfl | h
      · exact Or.inr List.mem_cons_self
      · exact (ih h).imp_right (List.mem_cons_of_mem _)

theorem Holds.insert (h : env.Holds ρ) {name : String} {value : Expr}
    (heq : (Expr.var name value.sort).eval ρ = value.eval ρ) : (env.insert name value).Holds ρ := by
  intro p hp
  rcases mem_insert hp with rfl | hp
  · exact heq
  · exact h p hp

/-- Bindings of and to unreserved names do not depend on the reserved names. -/
theorem stableOff
    (h : ∀ p ∈ env, p.1 ∉ reserved ∧ ∀ o ∈ p.2.freeOccs, o.1 ∉ reserved) :
    StableOff reserved (env.Holds (T := T)) := by
  intro ρ ρ' hagree hρ p hp
  obtain ⟨hn, hocc⟩ := h p hp
  have hval : p.2.eval ρ' = p.2.eval ρ :=
    eval_congr_occs fun o ho => by rw [hagree o.1 (hocc o ho)]
  rw [hval, ← hρ p hp, eval_var, eval_var, hagree p.1 hn]

end SymEnv

/-- **Substitution is sound**: where the bindings hold, the result may stand for the term. -/
theorem substituteInner_sound {maxDepth fuel d : ℕ} {env : SymEnv} {resolving : List String}
    {e : Expr} (hstable : StableOff reserved (env.Holds (T := T)))
    (hvalues : ∀ v ∈ env.values, Admissible reserved v) (he : Admissible reserved e) :
    (substituteInner maxDepth env fuel d resolving e).Ensures
      (Rewrites (T := T) env.Holds env.values e) := by
  induction fuel generalizing d resolving e with
  | zero => exact .bail
  | succ fuel ih =>
    rw [substituteInner.eq_def]
    refine .seq ?_
    cases e with
    | var name s =>
      dsimp only
      split
      · exact .pure (.refl he.wellSorted)
      · rename_i replacement hlookup
        split
        · exact .pure (.refl he.wellSorted)
        · have hmem : (name, replacement) ∈ env := SymEnv.mem_of_lookup hlookup
          have hval : replacement ∈ env.values := List.mem_map.2 ⟨_, hmem, rfl⟩
          refine (ih (hvalues _ hval)).bind fun r hr => ?_
          split
          · exact .bail
          · rename_i hs
            have hsort : r.sort = s := not_not.1 hs
            refine .pure ⟨hsort, hr.wellSorted, fun o ho => Or.inr ?_, fun n hn => Or.inr ?_,
              fun ρ hρ => ?_⟩
            · exact (hr.occs o ho).elim (fun ho => ⟨_, hval, ho⟩) id
            · exact (hr.bound n hn).elim (fun hn => ⟨_, hval, hn⟩) id
            · rw [hr.eval ρ hρ, ← hρ _ hmem, ← hsort, hr.sort]
    | app op args =>
      refine (Ensures.mapM fun a ha => ih (he.arg ha)).bind fun args' hargs' => ?_
      exact .pure (.app hargs' he.accepts)
    | quant q vs b =>
      refine (ih he.body).bind fun b' hb' => .pure ?_
      refine hb'.quant (wellSorted_quant.1 he.wellSorted).1 hstable fun n hn => he.bound n ?_
      rw [boundVars_quant]
      exact List.mem_append_left _ hn

end Straightline

end TrustMc
