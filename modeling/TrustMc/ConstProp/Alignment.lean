import TrustMc.ConstProp.Faithful

/-!
# Constant propagation and the shape of the relations

A round strips the constant positions of a relation in three places: the premises, the
conclusions and the declaration. `Aligned` says that these agree; a round that starts from
aligned applications ends with aligned ones exactly when it skips no rule and puts no constant
of another sort in for a head variable (`aligned_round_iff`), and so does the pass
(`propagateConstants_aligned_iff`).

A rule is skipped when none of the arguments at the constant positions of its premise is a
variable. Its premise then keeps positions that the declaration loses:
`propagateConstants_misaligns`.
-/

namespace TrustMc

/-- The application has the arity and sorts of a declaration of its relation. -/
def Conforms (relations : List RelationDecl) (a : RelationApp) : Prop :=
  (∃ d ∈ relations, d.name = a.name) ∧
    ∀ d ∈ relations, d.name = a.name → a.args.map Expr.sort = d.argSorts

/-- Every relation application of the rules conforms to its declaration. -/
def ChcVc.Aligned (vc : ChcVc) : Prop :=
  ∀ r ∈ vc.rules, ∀ a ∈ r.apps, Conforms vc.relations a

instance (relations : List RelationDecl) (a : RelationApp) : Decidable (Conforms relations a) :=
  inferInstanceAs (Decidable ((∃ _ ∈ _, _) ∧ ∀ _ ∈ _, _ → _))

instance (vc : ChcVc) : Decidable vc.Aligned :=
  inferInstanceAs (Decidable (∀ _ ∈ _, ∀ _ ∈ _, _))

/-- Applications of one relation have one list of sorts. -/
theorem Conforms.sorts_eq {relations : List RelationDecl} {a b : RelationApp}
    (ha : Conforms relations a) (hb : Conforms relations b) (hname : a.name = b.name) :
    a.args.map Expr.sort = b.args.map Expr.sort := by
  obtain ⟨d, hd, hda⟩ := ha.1
  rw [ha.2 d hd hda, hb.2 d hd (hda.trans hname)]

namespace ConstProp

/-! ### One round -/

/-- What is left of the positions of a relation. -/
def stripArgs {α : Type} (constants : Constants) (name : String) (l : List α) : List α :=
  match constants name with
  | none => l
  | some relConstants => stripPositions relConstants l

section Strip

variable {constants : Constants} {relations : List RelationDecl}

theorem map_stripArgs {α β : Type} (f : α → β) (name : String) (l : List α) :
    (stripArgs constants name l).map f = stripArgs constants name (l.map f) := by
  unfold stripArgs
  cases constants name with
  | none => rfl
  | some cs => exact map_stripPositions f cs l

theorem stripDecl_eq (d : RelationDecl) :
    stripDecl constants d = ⟨d.name, stripArgs constants d.name d.argSorts⟩ := by
  unfold stripDecl stripArgs
  cases constants d.name <;> rfl

theorem stripHead_eq (r : Rule) :
    stripHead constants r =
      { r with head := ⟨r.head.name, stripArgs constants r.head.name r.head.args⟩ } := by
  unfold stripHead stripArgs
  cases constants r.head.name <;> rfl

/-- An application conforms to the stripped declarations when its sorts are those of the
conforming application, stripped. -/
theorem conforms_strip_iff {a : RelationApp} (ha : Conforms relations a) {args : List Expr} :
    Conforms (relations.map (stripDecl constants)) ⟨a.name, args⟩ ↔
      args.map Expr.sort = stripArgs constants a.name (a.args.map Expr.sort) := by
  obtain ⟨d, hd, hname⟩ := ha.1
  constructor
  · intro h
    have hsorts := h.2 (stripDecl constants d) (List.mem_map_of_mem hd)
      (by rw [stripDecl_eq]; exact hname)
    rw [stripDecl_eq] at hsorts
    rw [hsorts, ha.2 d hd hname, hname]
  · intro h
    refine ⟨⟨stripDecl constants d, List.mem_map_of_mem hd, by rw [stripDecl_eq]; exact hname⟩,
      fun d' hd' hname' => ?_⟩
    obtain ⟨d₀, hd₀, rfl⟩ := List.mem_map.1 hd'
    rw [stripDecl_eq] at hname' ⊢
    rw [h, ha.2 d₀ hd₀ hname']
    exact congrArg (fun n => stripArgs constants n d₀.argSorts) hname'.symm

end Strip

/-- The constants that are put in for the head variables that stay have their sorts. -/
def KeepsSorts (constants : Constants) (rule : Rule) : Prop :=
  ∀ bodyRel ∈ rule.body.relation, ∀ relConstants ∈ constants bodyRel.name,
    ∀ arg ∈ stripArgs constants rule.head.name rule.head.args,
      (resolveArg (knownIn rule bodyRel relConstants) arg).sort = arg.sort

/-- The round skips no rule whose premise loses positions, and keeps the sorts of heads. -/
def AlignedRound (vc : ChcVc) : Prop :=
  ∀ r ∈ vc.rules, skipsRule (identifyConstantPositions vc) r = false ∧
    KeepsSorts (identifyConstantPositions vc) r

instance (constants : Constants) (rule : Rule) : Decidable (KeepsSorts constants rule) :=
  inferInstanceAs (Decidable (∀ _ ∈ _, ∀ _ ∈ _, ∀ _ ∈ _, _))

instance (vc : ChcVc) : Decidable (AlignedRound vc) := inferInstanceAs (Decidable (∀ _ ∈ _, _ ∧ _))

section Round

variable {vc : ChcVc}

/-- A relation with constant positions has one at least, and its applications have all of
them. -/
theorem length_constants (h : vc.Aligned) {a : RelationApp} (ha : Conforms vc.relations a)
    {cs : List (Option Expr)} (hcs : identifyConstantPositions vc a.name = some cs) :
    cs.length ≤ a.args.length ∧ 0 < cs.countP Option.isSome := by
  unfold identifyConstantPositions at hcs
  obtain ⟨hany, hcs⟩ := Option.ite_none_right_eq_some.1 hcs
  obtain rfl := Option.some.inj hcs
  refine ⟨?_, List.countP_pos_iff.2 (List.any_eq_true.1 hany)⟩
  rw [List.length_map, List.length_range, headArity]
  refine foldl_preserves (P := (· ≤ a.args.length)) (fun n k hk hn => ?_) (Nat.zero_le _)
  obtain ⟨r, hr, rfl⟩ := List.mem_map.1 hk
  obtain ⟨hmem, hname⟩ := List.mem_filter.1 hr
  have hsorts := (h r hmem r.head List.mem_cons_self).sorts_eq ha (beq_iff_eq.1 hname)
  have hlen : r.head.args.length = a.args.length := by simpa using congrArg List.length hsorts
  exact max_le hn hlen.le

/-- **One rule of a round.** -/
theorem aligned_rule_iff (h : vc.Aligned) {r : Rule} (hr : r ∈ vc.rules) :
    (∀ a ∈ (stripHead (identifyConstantPositions vc)
        (propagateRule (identifyConstantPositions vc) r)).apps,
      Conforms (vc.relations.map (stripDecl (identifyConstantPositions vc))) a) ↔
      skipsRule (identifyConstantPositions vc) r = false ∧
        KeepsSorts (identifyConstantPositions vc) r := by
  set constants := identifyConstantPositions vc with hconstants
  have hhead : Conforms vc.relations r.head := h r hr r.head List.mem_cons_self
  rw [stripHead_eq]
  rcases propagateRule_cases constants r with
    ⟨hnone, hrule⟩ | ⟨a, cs, ha, hcs, ⟨hempty, hrule⟩ | ⟨hempty, hrule⟩⟩
  · -- the premise loses no position
    have hskip : skipsRule constants r = false := by
      unfold skipsRule
      cases hbody : r.body.relation with
      | none => rfl
      | some a => simp only [hnone a hbody]
    have hkeeps : KeepsSorts constants r := fun a ha cs hcs => by
      rw [Option.mem_def, hnone a ha] at hcs
      cases hcs
    refine iff_of_true (fun a ha => ?_) ⟨hskip, hkeeps⟩
    rw [hrule] at ha
    rcases List.mem_cons.1 ha with rfl | ha
    · exact (conforms_strip_iff hhead).2 (map_stripArgs _ _ _)
    · have hbody : r.body.relation = some a := by simpa using ha
      refine (conforms_strip_iff (h r hr a (by simp [Rule.apps, hbody]))).2 ?_
      simp only [stripArgs, hnone a hbody]
  · -- the rule is skipped: its premise keeps all positions
    have hskip : skipsRule constants r = true := by simp only [skipsRule, ha, hcs, hempty]
    have hconf : Conforms vc.relations a := h r hr a (by simp [Rule.apps, ha])
    refine iff_of_false (fun hall => ?_) fun hok => by simp [hskip] at hok
    have hsame := (conforms_strip_iff hconf).1 (hall a (by simp [Rule.apps, hrule, ha]))
    obtain ⟨hle, hpos⟩ := length_constants h hconf hcs
    have hlen := length_stripPositions (a.args.map Expr.sort) (by simpa using hle)
    simp only [stripArgs, hcs] at hsame
    rw [← hsame] at hlen
    omega
  · -- the rule is rewritten
    have hskip : skipsRule constants r = false := by
      simpa only [skipsRule, ha, hcs, Bool.not_eq_true] using hempty
    have hconf : Conforms vc.relations a := h r hr a (by simp [Rule.apps, ha])
    have hbody : Conforms (vc.relations.map (stripDecl constants))
        ⟨a.name, stripPositions cs a.args⟩ := by
      refine (conforms_strip_iff hconf).2 ?_
      rw [map_stripPositions]
      simp only [stripArgs, hcs]
    have hsorts : Conforms (vc.relations.map (stripDecl constants))
        ⟨r.head.name, stripArgs constants r.head.name
          (r.head.args.map (resolveArg (knownIn r a cs)))⟩ ↔ KeepsSorts constants r := by
      rw [conforms_strip_iff hhead, ← map_stripArgs, ← map_stripArgs, List.map_map,
        List.map_inj_left]
      constructor
      · intro hall a' ha' cs' hcs'
        obtain rfl : a = a' := Option.some.inj (ha.symm.trans ha')
        obtain rfl : cs = cs' := Option.some.inj (hcs.symm.trans hcs')
        exact hall
      · exact fun hkeeps => hkeeps a ha cs hcs
    rw [hrule, and_iff_right hskip, ← hsorts]
    simp [Rule.apps, rewriteRule, hbody]

/-- **One round** keeps the applications aligned exactly when it skips no rule and keeps the
sorts of heads. -/
theorem aligned_round_iff (h : vc.Aligned) :
    (applyConstantPropagation vc (identifyConstantPositions vc)).1.Aligned ↔ AlignedRound vc := by
  unfold AlignedRound
  constructor
  · intro hround r hr
    refine (aligned_rule_iff h hr).1 fun a ha => hround _ ?_ a ha
    exact List.mem_map_of_mem hr
  · intro hround r' hr' a ha
    obtain ⟨r, hr, rfl⟩ := List.mem_map.1 hr'
    exact (aligned_rule_iff h hr).2 (hround r hr) a ha

end Round

/-! ### The rounds of the pass -/

/-- The verification conditions that the rounds of the loop start from. -/
def roundStarts : ℕ → ChcVc → List ChcVc
  | 0, _ => []
  | n + 1, vc =>
    if noConstants vc then []
    else
      let (next, propagated) := applyConstantPropagation vc (identifyConstantPositions vc)
      vc :: if propagated = 0 then [] else roundStarts n next

/-- The verification conditions that the rounds of the loop end with. -/
def roundResults : ℕ → ChcVc → List ChcVc
  | 0, _ => []
  | n + 1, vc =>
    if noConstants vc then []
    else
      let (next, propagated) := applyConstantPropagation vc (identifyConstantPositions vc)
      next :: if propagated = 0 then [] else roundResults n next

/-- The loop ends with the result of its last round. -/
theorem fst_propagateRounds (n : ℕ) (vc : ChcVc) :
    (propagateRounds n vc).1 = (roundResults n vc).getLastD vc := by
  induction n generalizing vc with
  | zero => rfl
  | succ n ih =>
    rw [propagateRounds, roundResults]
    by_cases hno : noConstants vc = true
    · simp [hno]
    · simp only [if_neg hno]
      by_cases hzero : (applyConstantPropagation vc (identifyConstantPositions vc)).2 = 0
      · simp [hzero]
      · simp only [if_neg hzero, ih, List.getLastD_cons]

/-- **A run of rounds** goes through aligned conditions exactly when each of its rounds keeps
them aligned. -/
theorem aligned_rounds_iff (n : ℕ) {vc : ChcVc} (h : vc.Aligned) :
    (∀ s ∈ roundResults n vc, s.Aligned) ↔ ∀ s ∈ roundStarts n vc, AlignedRound s := by
  induction n generalizing vc with
  | zero => simp [roundResults, roundStarts]
  | succ n ih =>
    rw [roundResults, roundStarts]
    by_cases hno : noConstants vc = true
    · simp [hno]
    · simp only [if_neg hno, List.forall_mem_cons, aligned_round_iff h]
      refine and_congr_right fun hround => ?_
      split_ifs
      · simp
      · exact ih ((aligned_round_iff h).2 hround)

/-- Dropping rules and constraints keeps the applications aligned. -/
theorem aligned_cleanup {vc : ChcVc} (h : vc.Aligned) :
    (stripTriviallyTrueConstraints (eliminateTriviallyFalseRules vc)).Aligned := by
  intro r' hr' a ha
  obtain ⟨r, hr, rfl⟩ := List.mem_map.1 hr'
  exact h r (List.mem_filter.1 hr).1 a ha

/-- **Constant propagation and alignment**: from aligned applications, the rounds of the pass
go through aligned conditions if and only if none of them skips a rule whose premise loses
positions or puts in a constant of another sort, and then the result of the pass is aligned. -/
theorem propagateConstants_aligned_iff {vc : ChcVc} (h : vc.Aligned) :
    ((∀ s ∈ roundResults (totalArity vc + 1) vc, s.Aligned) ↔
      ∀ s ∈ roundStarts (totalArity vc + 1) vc, AlignedRound s) ∧
    ((∀ s ∈ roundStarts (totalArity vc + 1) vc, AlignedRound s) →
      (propagateConstants vc).1.Aligned) := by
  refine ⟨aligned_rounds_iff _ h, fun hrounds => ?_⟩
  have hresult : (propagateConstants vc).1 = stripTriviallyTrueConstraints
      (eliminateTriviallyFalseRules (propagateRounds (totalArity vc + 1) vc).1) := rfl
  rw [hresult, fst_propagateRounds]
  refine aligned_cleanup ?_
  have hall := (aligned_rounds_iff _ h).2 hrounds
  cases hlast : (roundResults (totalArity vc + 1) vc).getLast? with
  | none => rwa [List.getLastD_eq_getLast?, hlast]
  | some s =>
    rw [List.getLastD_eq_getLast?, hlast]
    exact hall s (List.mem_of_getLast? hlast)

/-! ### Two runs -/

/-- A relation that holds of `3` only, and an error behind it; the error rule's premise has the
argument `arg`. -/
def guardedVc (arg : Expr) : ChcVc where
  vars := [("x", .int)]
  relations := [⟨"R", [.int]⟩, ⟨"error", []⟩]
  rules :=
    [⟨⟨none, []⟩, ⟨"R", [.intConst 3]⟩⟩, ⟨⟨some ⟨"R", [arg]⟩, []⟩, .nullary "error"⟩]
  target := some "error"
  triviallySafeDischarged := false

/-- With a variable for the argument the position goes everywhere. -/
theorem propagateConstants_aligned_iff_guardedVc :
    (propagateConstants (guardedVc (.var "x" .int))).1.relations = [⟨"R", []⟩, ⟨"error", []⟩] ∧
      (propagateConstants (guardedVc (.var "x" .int))).1.Aligned :=
  ⟨by decide +kernel, (propagateConstants_aligned_iff (by decide +kernel)).2 (by decide +kernel)⟩

/-- **A misaligned premise**: with `3` for the argument the rule is skipped, and its premise has
an argument more than the declaration. -/
theorem propagateConstants_misaligns :
    (guardedVc (.intConst 3)).Aligned ∧
      (propagateConstants (guardedVc (.intConst 3))).1.relations = [⟨"R", []⟩, ⟨"error", []⟩] ∧
      (propagateConstants (guardedVc (.intConst 3))).1.rules =
        [⟨⟨none, []⟩, .nullary "R"⟩,
          ⟨⟨some ⟨"R", [.intConst 3]⟩, []⟩, .nullary "error"⟩] ∧
      ¬ (propagateConstants (guardedVc (.intConst 3))).1.Aligned :=
  ⟨by decide +kernel, by decide +kernel, by decide +kernel, by decide +kernel⟩

end ConstProp

end TrustMc
