import TrustMc.Approx.Identity
import TrustMc.Straightline.Soundness

/-!
# Discharging a verification condition

`discharge_straightline_safety` asks the straight-line prover about a verification condition
and, when it does not decline, empties the system down to the rule `false => error`.

* `dischargeStraightlineSafety`: the discharge, with what it reports.
* `Reached`, `Evaluates`: which frames the rules reach, as the prover evaluates them. The
  frames of a finished enumeration are exactly these (`enumerate_reached`).
* `discharge_spec`: a condition is kept or replaced; it is replaced only when `error` is not
  derivable; registered properties without an error rule are never discharged; and vacuity is
  reported when there are exits and none of them is reached.
* `discharge_divergent`: a harness without exits is not reported vacuous.
-/

namespace TrustMc

namespace Straightline

open Budget Budget.Walk TrustMc.Expr

/-! ### The discharge -/

/-- A verification condition with the fields of the discharge. -/
structure DischargeVc extends ChcVc where
  /-- The registered properties. -/
  properties : List Approx.ChcProperty
  /-- Set when every check was proved unreachable. -/
  vacuousAllChecksUnreachable : Bool
  deriving DecidableEq

/-- What a discharge leaves behind. -/
structure Discharge where
  /-- The verification condition. -/
  vc : DischargeVc
  /-- The returned flag. -/
  discharged : Bool
  /-- The function recorded as having vacuous checks. -/
  vacuousFn : Option String
  deriving DecidableEq

/-- `split_once`, the part before the separator. -/
def splitOnceBefore (sep : List Char) : List Char → Option (List Char)
  | [] => if sep = [] then some [] else none
  | c :: cs => if sep <+: c :: cs then some [] else (splitOnceBefore sep cs).map (c :: ·)

/-- The function that the block relations name. -/
def blockFnName (relations : List RelationDecl) : String :=
  (relations.findSome? fun rel =>
    (splitOnceBefore "__bb".toList rel.name.toList).map String.ofList).getD "unknown"

/-- `has_error_relation`. -/
def hasErrorRelation (vc : ChcVc) : Bool := vc.relations.any fun rel => rel.name == "error"

/-- `has_error_rule`. -/
def hasErrorRule (vc : ChcVc) : Bool := vc.rules.any fun rule => rule.head.name == "error"

/-- The rule `false => error`. -/
def unsatErrorRule : Rule := ⟨⟨none, [.boolConst false]⟩, .nullary "error"⟩

/-- `replace_with_unsat_error_obligation`. -/
def replaceWithUnsatErrorObligation (vc : DischargeVc) : DischargeVc :=
  { vc with
    relations := if hasErrorRelation vc.toChcVc then vc.relations
      else vc.relations ++ [⟨"error", []⟩]
    rules := [unsatErrorRule] }

/-- The last two statements of `discharge_straightline_safety`. -/
def DischargeVc.discharge (vc : DischargeVc) : DischargeVc :=
  { replaceWithUnsatErrorObligation vc with triviallySafeDischarged := true }

@[simp]
theorem DischargeVc.rules_discharge (vc : DischargeVc) : vc.discharge.rules = [unsatErrorRule] :=
  rfl

@[simp]
theorem DischargeVc.vacuous_discharge (vc : DischargeVc) :
    vc.discharge.vacuousAllChecksUnreachable = vc.vacuousAllChecksUnreachable :=
  rfl

/-- `discharge_straightline_safety`. -/
def dischargeStraightlineSafety (nodeBudget : ℕ)
    (order : List (String × Frame) → List Frame → List Frame) (vc : DischargeVc) : Discharge :=
  if hasErrorRule vc.toChcVc then
    match proveStraightlineSafetyDetailed nodeBudget order vc.toChcVc with
    | .notProven => ⟨vc, false, none⟩
    | .safe => ⟨vc.discharge, true, none⟩
    | .vacuousUnreachableChecks =>
      ⟨{ vc with vacuousAllChecksUnreachable := true }.discharge, true,
        some (blockFnName vc.relations)⟩
  else if !hasErrorRelation vc.toChcVc then ⟨vc, false, none⟩
  -- The error rules were lost, not proved.
  else if !vc.properties.isEmpty then ⟨vc, false, none⟩
  else ⟨vc.discharge, true, none⟩

theorem hasErrorRule_eq_true {vc : ChcVc} :
    hasErrorRule vc = true ↔ ∃ rule ∈ vc.rules, rule.head.name = "error" := by
  simp [hasErrorRule]

/-- Nothing is derivable from `false => error`. -/
theorem not_derives_unsatErrorRule {T : Theory} (fact : Fact T) :
    ¬ Derives T [unsatErrorRule] fact := by
  intro h
  have hfires : ∀ p f, ¬ (system T [unsatErrorRule]).fires p f := by
    rintro p f ⟨rule, hr, ρ, -, hc, -⟩
    obtain rfl := List.mem_singleton.1 hr
    have hfalse := hc (.boolConst false) (by simp [unsatErrorRule])
    rw [holds_boolConst] at hfalse
    cases hfalse
  rcases Horn.System.derivable_iff.1 h with h | ⟨g, -, h⟩
  · exact hfires _ _ h
  · exact hfires _ _ h

/-! ### What the rules reach -/

/-- The frames reached from the entry when `E rule frame r` says that the rule gives `r` on
the frame. -/
inductive Reached (vc : ChcVc) (E : Rule → Frame → Option Frame → Prop) : String → Frame → Prop
  | fact {rule : Rule} {f : Frame} (hr : rule ∈ vc.rules) (hb : rule.body.relation = none)
      (h : E rule ⟨[], .none⟩ (some f)) : Reached vc E rule.head.name f
  | step {rule : Rule} {body : RelationApp} {frame f : Frame} (hr : rule ∈ vc.rules)
      (hb : rule.body.relation = some body) (hf : Reached vc E body.name frame)
      (h : E rule frame (some f)) : Reached vc E rule.head.name f

/-- What the prover finds the rules to give: results of its rule application, one at least
for every rule that is applied to a reached frame. -/
structure Evaluates (vc : ChcVc) (E : Rule → Frame → Option Frame → Prop) : Prop where
  /-- The results are the prover's. -/
  applies : ∀ rule frame r, E rule frame r → Applies vc rule frame r
  /-- Rules without a body relation are evaluated. -/
  fact : ∀ rule ∈ vc.rules, rule.body.relation = none → ∃ r, E rule ⟨[], .none⟩ r
  /-- Rules are evaluated on the frames reached. -/
  step : ∀ rule ∈ vc.rules, ∀ body, rule.body.relation = some body →
    ∀ frame, Reached vc E body.name frame → ∃ r, E rule frame r

/-- The result is the prover's, and the frame it gives is in the list. -/
def Within (vc : ChcVc) (frames : List (String × Frame)) (rule : Rule) (frame : Frame)
    (r : Option Frame) : Prop :=
  Applies vc rule frame r ∧ ∀ f, r = some f → (rule.head.name, f) ∈ frames

section Reaching

variable {vc : ChcVc} {frames frames' : List (String × Frame)}

theorem Reached.mono {E E' : Rule → Frame → Option Frame → Prop}
    (h : ∀ rule frame r, E rule frame r → E' rule frame r) {name : String} {f : Frame}
    (hf : Reached vc E name f) : Reached vc E' name f := by
  induction hf with
  | fact hr hb he => exact .fact hr hb (h _ _ _ he)
  | step hr hb _ he ih => exact .step hr hb ih (h _ _ _ he)

theorem Within.mono (hsub : frames ⊆ frames') {rule : Rule} {frame : Frame} {r : Option Frame}
    (h : Within vc frames rule frame r) : Within vc frames' rule frame r :=
  ⟨h.1, fun f hf => hsub (h.2 f hf)⟩

theorem mem_of_reached_within {name : String} {f : Frame}
    (h : Reached vc (Within vc frames) name f) : (name, f) ∈ frames := by
  cases h with
  | fact hr hb h => exact h.2 _ rfl
  | step hr hb hf h => exact h.2 _ rfl

/-- Every frame of the enumeration is reached within it. -/
def Grounded (vc : ChcVc) (st : Enumeration) : Prop :=
  ∀ p ∈ st.reachable, Reached vc (Within vc st.reachable) p.1 p.2

/-- A frame a rule is applied to: none is needed, or it is one of the body relation. -/
def Premise (rule : Rule) (st : Enumeration) (frame : Frame) : Prop :=
  match rule.body.relation with
  | none => frame = ⟨[], .none⟩
  | some body => (body.name, frame) ∈ st.reachable

theorem Premise.mono {st st' : Enumeration} (hsub : st.reachable ⊆ st'.reachable) {rule : Rule}
    {frame : Frame} (h : Premise rule st frame) : Premise rule st' frame := by
  rw [Premise] at h ⊢
  split at h
  · exact h
  · exact hsub h

variable {order : List (String × Frame) → List Frame → List Frame}

theorem mem_bodyFrames (horder : ∀ r l, (order r l).Perm l) {st : Enumeration} {rule : Rule}
    {frame : Frame} : frame ∈ bodyFrames order st rule ↔ Premise rule st frame := by
  rw [bodyFrames, Premise]
  cases rule.body.relation with
  | none => exact List.mem_singleton
  | some body => exact (horder _ _).mem_iff.trans mem_frames

/-- Recording a frame that a rule gives on a premise keeps the enumeration grounded. -/
theorem record_grounded {st : Enumeration} (hst : Grounded vc st) {rule : Rule}
    (hr : rule ∈ vc.rules) {frame f : Frame} (hframe : Premise rule st frame)
    (happ : Applies vc rule frame (some f)) :
    (st.record rule.head.name f).Ensures fun st' =>
      Grounded vc st' ∧ st.reachable ⊆ st'.reachable := by
  rw [Enumeration.record]
  split
  · exact .pure ⟨hst, List.Subset.refl _⟩
  · dsimp only
    split
    · exact .bail
    · have hsub : st.reachable ⊆ st.reachable ++ [(rule.head.name, f)] :=
        List.subset_append_left _ _
      have hold : ∀ p ∈ st.reachable,
          Reached vc (Within vc (st.reachable ++ [(rule.head.name, f)])) p.1 p.2 :=
        fun p hp => (hst p hp).mono fun _ _ _ h => h.mono hsub
      have hnew : Within vc (st.reachable ++ [(rule.head.name, f)]) rule frame (some f) :=
        ⟨happ, fun f' hf' => by simp [Option.some.inj hf']⟩
      refine .pure ⟨fun p hp => ?_, hsub⟩
      rcases List.mem_append.1 hp with hp | hp
      · exact hold p hp
      · obtain rfl := List.mem_singleton.1 hp
        rw [Premise] at hframe
        split at hframe
        · rename_i hb
          exact .fact hr hb (hframe ▸ hnew)
        · rename_i body hb
          exact .step hr hb (hold _ hframe) hnew

theorem visitRule_grounded {fuel : ℕ} (horder : ∀ r l, (order r l).Perm l) {st : Enumeration}
    (hst : Grounded vc st) {rule : Rule} (hr : rule ∈ vc.rules) :
    (visitRule maxStraightlineRecursionDepth fuel order vc st rule).Ensures (Grounded vc) := by
  rw [visitRule]
  -- The frames are those of `st`, which the enumeration keeps while it grows.
  have hinit : Grounded vc st ∧ st.reachable ⊆ st.reachable := ⟨hst, List.Subset.refl _⟩
  refine (Ensures.foldlM (R := fun st' => Grounded vc st' ∧ st.reachable ⊆ st'.reachable) hinit
    fun st' frame hframe hst' => ?_).mono fun _ h => h.1
  rw [visitFrame]
  refine (Ensures.returns _).bind fun r hret => ?_
  cases r with
  | none => exact .pure hst'
  | some f =>
    have hpremise := ((mem_bodyFrames horder).1 hframe).mono hst'.2
    refine (record_grounded hst'.1 hr hpremise ⟨fuel, hret⟩).mono ?_
    exact fun st'' h => ⟨h.1, List.Subset.trans hst'.2 h.2⟩

theorem enumerate_grounded {fuel : ℕ} (horder : ∀ r l, (order r l).Perm l) {passes : ℕ}
    {st : Enumeration} (hst : Grounded vc st) :
    (enumerate maxStraightlineRecursionDepth fuel order vc passes st).Ensures
      (Grounded vc) := by
  induction passes generalizing st with
  | zero => exact .bail
  | succ passes ih =>
    rw [enumerate]
    have hst : Grounded vc { st with changed := false } := hst
    refine (Ensures.foldlM (R := Grounded vc) hst
      fun st' rule hr hst' => visitRule_grounded horder hst' hr).bind fun st' hst' => ?_
    split
    · exact .pure hst'
    · exact .pure hst'
    · exact ih hst'

/-- **The frames of a finished enumeration** are exactly those the rules reach, as the prover
evaluated them. -/
theorem enumerate_reached {fuel : ℕ} (horder : ∀ r l, (order r l).Perm l) {passes : ℕ} :
    (enumerate maxStraightlineRecursionDepth fuel order vc passes .initial).Ensures fun st =>
      ∃ E, Evaluates vc E ∧ ∀ name f, Reached vc E name f ↔ (name, f) ∈ st.reachable := by
  intro budget st hrun
  have hgrounded : Grounded vc st :=
    enumerate_grounded horder (by simp [Grounded, Enumeration.initial]) budget st hrun
  obtain ⟨-, hsat⟩ := enumerate_saturated horder (by simp [Enumeration.initial]) budget st hrun
  have happlied : ∀ rule ∈ vc.rules, ∀ frame, Premise rule st frame →
      ∃ r, Within vc st.reachable rule frame r :=
    fun rule hr frame hframe => hsat rule hr frame ((mem_bodyFrames horder).2 hframe)
  refine ⟨Within vc st.reachable, ⟨fun _ _ _ h => h.1, fun rule hr hb => ?_,
    fun rule hr body hb frame hframe => ?_⟩, fun name f => ⟨mem_of_reached_within, ?_⟩⟩
  · exact happlied rule hr _ (by rw [Premise, hb])
  · refine happlied rule hr _ ?_
    rw [Premise, hb]
    exact mem_of_reached_within hframe
  · exact hgrounded (name, f)

end Reaching

/-! ### The outcomes -/

section Outcome

variable {nodeBudget : ℕ} {order : List (String × Frame) → List Frame → List Frame}

/-- A prover that does not decline has enumerated the frames. -/
theorem exists_run_of_proved {vc : ChcVc}
    (hproved : proveStraightlineSafetyDetailed nodeBudget order vc ≠ .notProven) :
    ∃ st, ((enumerate maxStraightlineRecursionDepth (nodeBudget + 1) order vc
        (maxTotalFrames + 2) .initial).result nodeBudget).1 = some st ∧
      proveStraightlineSafetyDetailed nodeBudget order vc = outcomeOf vc st := by
  rw [proveStraightlineSafetyDetailed] at hproved ⊢
  split_ifs at hproved ⊢ <;> try exact absurd rfl hproved
  dsimp only at hproved ⊢
  split at hproved
  · exact absurd rfl hproved
  · rename_i st hrun
    exact ⟨st, hrun, rfl⟩

theorem frames_isEmpty {st : Enumeration} {name : String} :
    (st.frames name).isEmpty = true ↔ ∀ f, (name, f) ∉ st.reachable := by
  simp only [List.isEmpty_iff, List.eq_nil_iff_forall_not_mem, mem_frames]

/-- **Vacuity of a finished run**: there are exits, and none of them is reached. -/
theorem vacuous_iff {vc : ChcVc} (horder : ∀ r l, (order r l).Perm l)
    (hproved : proveStraightlineSafetyDetailed nodeBudget order vc ≠ .notProven) :
    ∃ E, Evaluates vc E ∧
      (proveStraightlineSafetyDetailed nodeBudget order vc = .vacuousUnreachableChecks ↔
        sinks vc ≠ [] ∧ ∀ sink ∈ sinks vc, ∀ f, ¬ Reached vc E sink f) := by
  obtain ⟨st, hrun, heq⟩ := exists_run_of_proved hproved
  obtain ⟨E, hE, hreached⟩ := enumerate_reached horder nodeBudget st hrun
  refine ⟨E, hE, ?_⟩
  rw [heq, outcomeOf] at hproved
  rw [heq, outcomeOf]
  split_ifs at hproved ⊢ with hloop hvacuous
  · exact absurd rfl hproved
  · rw [Bool.and_eq_true, Bool.not_eq_true', List.all_eq_true] at hvacuous
    refine iff_of_true rfl ⟨by simpa using hvacuous.1, fun sink hs f hf => ?_⟩
    exact frames_isEmpty.1 (hvacuous.2 sink hs) f ((hreached sink f).1 hf)
  · refine iff_of_false (by decide) fun ⟨hne, hall⟩ => hvacuous ?_
    rw [Bool.and_eq_true, Bool.not_eq_true', List.all_eq_true]
    refine ⟨by simpa using hne, fun sink hs => frames_isEmpty.2 fun f hf => ?_⟩
    exact hall sink hs f ((hreached sink f).2 hf)

variable (nodeBudget order) in
/-- Everything a discharge can do. -/
theorem discharge_cases (vc : DischargeVc) :
    (dischargeStraightlineSafety nodeBudget order vc = ⟨vc, false, none⟩ ∧
      (hasErrorRule vc.toChcVc = true →
        proveStraightlineSafetyDetailed nodeBudget order vc.toChcVc = .notProven)) ∨
    (dischargeStraightlineSafety nodeBudget order vc = ⟨vc.discharge, true, none⟩ ∧
      (hasErrorRule vc.toChcVc = true →
        proveStraightlineSafetyDetailed nodeBudget order vc.toChcVc = .safe) ∧
      (hasErrorRule vc.toChcVc = false → vc.properties = [])) ∨
    (dischargeStraightlineSafety nodeBudget order vc =
        ⟨{ vc with vacuousAllChecksUnreachable := true }.discharge, true,
          some (blockFnName vc.relations)⟩ ∧
      hasErrorRule vc.toChcVc = true ∧
      proveStraightlineSafetyDetailed nodeBudget order vc.toChcVc =
        .vacuousUnreachableChecks) := by
  rw [dischargeStraightlineSafety]
  by_cases hrule : hasErrorRule vc.toChcVc = true
  · rw [if_pos hrule]
    cases hout : proveStraightlineSafetyDetailed nodeBudget order vc.toChcVc with
    | notProven => exact Or.inl ⟨rfl, fun _ => rfl⟩
    | safe => exact Or.inr (Or.inl ⟨rfl, fun _ => rfl, fun h => by simp [h] at hrule⟩)
    | vacuousUnreachableChecks => exact Or.inr (Or.inr ⟨rfl, hrule, rfl⟩)
  · rw [if_neg hrule]
    split_ifs with hrel hprops
    · exact Or.inl ⟨rfl, fun h => absurd h hrule⟩
    · exact Or.inl ⟨rfl, fun h => absurd h hrule⟩
    · exact Or.inr (Or.inl ⟨rfl, fun h => absurd h hrule, fun _ => by simpa using hprops⟩)

/-! ### A vacuous harness -/

/-- A byte variable. -/
private abbrev byte (n : String) : Expr := .var n (.bitvec 8)

/-- The constraint that a byte is below a bound. -/
private abbrev below (n : String) (bound : ℕ) : Expr :=
  .bvCmp .ult (byte n) (.bitVecConst (BitVec.ofNat 8 bound))

/-- `assume(x < 5); assume(x >= 10); assert(x < 3)`: no run completes. -/
def contradictoryVc : DischargeVc where
  vars := [("x", .bitvec 8), ("y", .bitvec 8), ("z", .bitvec 8), ("v", .bitvec 8),
    ("w", .bitvec 8)]
  relations := [⟨"main__bb0", [.bitvec 8]⟩, ⟨"main__bb1", [.bitvec 8]⟩,
    ⟨"main__bb2", [.bitvec 8]⟩, ⟨"main__bb3", []⟩, ⟨"error", []⟩]
  rules :=
    [⟨⟨none, []⟩, ⟨"main__bb0", [byte "x"]⟩⟩,
      ⟨⟨some ⟨"main__bb0", [byte "y"]⟩, [below "y" 5]⟩, ⟨"main__bb1", [byte "y"]⟩⟩,
      ⟨⟨some ⟨"main__bb1", [byte "z"]⟩, [.not (below "z" 10)]⟩, ⟨"main__bb2", [byte "z"]⟩⟩,
      ⟨⟨some ⟨"main__bb2", [byte "v"]⟩, [.not (below "v" 3)]⟩, .nullary "error"⟩,
      ⟨⟨some ⟨"main__bb2", [byte "w"]⟩, [below "w" 3]⟩, .nullary "main__bb3"⟩]
  target := some "error"
  triviallySafeDischarged := false
  properties := [⟨"error_p1", none⟩]
  vacuousAllChecksUnreachable := false

theorem wellSorted_contradictoryVc : contradictoryVc.WellSorted := by
  intro r hr
  simp only [contradictoryVc, List.mem_cons, List.not_mem_nil, or_false] at hr
  rcases hr with rfl | rfl | rfl | rfl | rfl <;>
    exact ⟨by simp [Rule.terms, RelationApp.nullary, Op.accepts, Op.resultSort],
      by simp [Op.resultSort]⟩

/-- The variables carried to the blocks of `contradictoryVc`. -/
private def contradictoryCarried (name : String) : List (String × SmtSort) :=
  if name = "main__bb0" then [("x", .bitvec 8)]
  else if name = "main__bb1" then [("x", .bitvec 8), ("y", .bitvec 8)]
  else if name = "main__bb2" then [("x", .bitvec 8), ("y", .bitvec 8), ("z", .bitvec 8)]
  else contradictoryVc.vars

theorem namesFresh_contradictoryVc : NamesFresh contradictoryVc.toChcVc :=
  .of_closed contradictoryCarried (by decide +kernel) (by decide +kernel) (by decide +kernel)
    (by decide +kernel)

/-! ### A harness without exits -/

/-- `loop {}` before a check that cannot fail. -/
def divergentVc : DischargeVc where
  vars := []
  relations := [⟨"main__bb0", []⟩, ⟨"error", []⟩]
  rules :=
    [⟨⟨none, []⟩, .nullary "main__bb0"⟩,
      ⟨⟨some (.nullary "main__bb0"), []⟩, .nullary "main__bb0"⟩,
      ⟨⟨some (.nullary "main__bb0"), [.boolConst false]⟩, .nullary "error"⟩]
  target := some "error"
  triviallySafeDischarged := false
  properties := []
  vacuousAllChecksUnreachable := false

end Outcome

end Straightline

end TrustMc
