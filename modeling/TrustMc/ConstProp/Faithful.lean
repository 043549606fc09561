import TrustMc.ConstProp.Soundness
import TrustMc.Horn.Projection

/-!
# Constant propagation adds no spurious error

When every round of `propagateConstants` is faithful, the target is derivable in the result only
if it is in the input (`propagateConstants_no_spurious`).

* **Invariant.** Derivable facts have their constants at the positions a round drops
  (`agrees_of_derives`), so the dropped part of a premise is known.
* **Lifting.** From a reading of the rewritten rule, the variables whose equations were folded
  away are given their constants (`Known.assign`); the rule then fires from the whole premise
  (`exists_of_fires_propagateRule`).
* A rule that was skipped keeps more arguments than the facts of its premise, and never fires.
* A round that is not faithful can widen the rules: `propagateConstants_drops_test`.
-/

namespace TrustMc

namespace ConstProp

open Carriers Carriers.Val TrustMc.Expr Budget

/-! ### Faithful rounds -/

/-- Everything that is known in a rule that is rewritten. -/
def knownIn (rule : Rule) (bodyRel : RelationApp) (relConstants : List (Option Expr)) : Known :=
  propagateToUnconstrainedOutVars rule.head.args rule.body.constraints
    (knownOf rule bodyRel relConstants)

/-- The known variables that lose what fixes them: their equations are folded away, and no
equation is added for a variable that is not an argument of the premise. -/
def unboundVars (known : Known) (args : List Expr) : List String :=
  (known.map Prod.fst).filter fun n => n ∉ argVarNames args

/-- What is left of the terms of a rule. -/
def remainingTerms (constants : Constants) (rule : Rule) (bodyRel : RelationApp)
    (relConstants : List (Option Expr)) : List Expr :=
  let known := knownIn rule bodyRel relConstants
  stripPositions relConstants bodyRel.args ++
    rule.body.constraints.map (substituteVars · known) ++
    (stripHead constants rule).head.args.map (resolveArg known)

/-- Known variables occur at the sorts of their constants. -/
def KnownSorts (rule : Rule) (known : Known) : Prop :=
  ∀ o ∈ rule.freeOccs, ∀ c ∈ known.lookup o.1, c.sort = o.2

/-- The arguments at the dropped positions are made equal to the constants. -/
def DroppedEqual (relConstants : List (Option Expr)) (args : List Expr) (known : Known) : Prop :=
  ∀ p ∈ relConstants.zip args, ∀ c ∈ p.1, p.2 = c ∨ evaluate known p.2 = some c

/-- A variable that loses what fixes it does not remain. -/
def NoneRemains (names : List String) (terms : List Expr) : Prop :=
  ∀ n ∈ names, ∀ e ∈ terms, n ∉ e.freeVars

instance (rule : Rule) (known : Known) : Decidable (KnownSorts rule known) :=
  inferInstanceAs (Decidable (∀ _ ∈ _, ∀ _ ∈ _, _))

instance (relConstants : List (Option Expr)) (args : List Expr) (known : Known) :
    Decidable (DroppedEqual relConstants args known) :=
  inferInstanceAs (Decidable (∀ _ ∈ _, ∀ _ ∈ _, _))

instance (names : List String) (terms : List Expr) : Decidable (NoneRemains names terms) :=
  inferInstanceAs (Decidable (∀ _ ∈ _, ∀ _ ∈ _, _))

/-- The rule is not rewritten, or its rewriting keeps what it says. -/
def FaithfulRule (constants : Constants) (rule : Rule) : Prop :=
  ∀ bodyRel ∈ rule.body.relation, ∀ relConstants ∈ constants bodyRel.name,
    (initialKnown relConstants bodyRel.args).isEmpty = true ∨
      KnownSorts rule (knownIn rule bodyRel relConstants) ∧
        DroppedEqual relConstants bodyRel.args (knownIn rule bodyRel relConstants) ∧
        NoneRemains (unboundVars (knownIn rule bodyRel relConstants) bodyRel.args)
          (remainingTerms constants rule bodyRel relConstants)

instance (constants : Constants) (rule : Rule) : Decidable (FaithfulRule constants rule) :=
  inferInstanceAs (Decidable (∀ _ ∈ _, ∀ _ ∈ _, _ ∨ _ ∧ _ ∧ _))

/-- Every rule of the round is rewritten faithfully. -/
def FaithfulRound (vc : ChcVc) : Prop :=
  ∀ r ∈ vc.rules, FaithfulRule (identifyConstantPositions vc) r

instance (vc : ChcVc) : Decidable (FaithfulRound vc) := inferInstanceAs (Decidable (∀ _ ∈ _, _))

/-- Every round that `propagateRounds` takes is faithful. -/
def FaithfulRounds : ℕ → ChcVc → Prop
  | 0, _ => True
  | n + 1, vc =>
    noConstants vc = true ∨
      FaithfulRound vc ∧
        ((applyConstantPropagation vc (identifyConstantPositions vc)).2 = 0 ∨
          FaithfulRounds n (applyConstantPropagation vc (identifyConstantPositions vc)).1)

instance decidableFaithfulRounds : (n : ℕ) → (vc : ChcVc) → Decidable (FaithfulRounds n vc)
  | 0, _ => inferInstanceAs (Decidable True)
  | n + 1, vc =>
    have := decidableFaithfulRounds n
      (applyConstantPropagation vc (identifyConstantPositions vc)).1
    inferInstanceAs (Decidable (_ ∨ _ ∧ (_ ∨ _)))

/-- Every round of the pass is faithful. -/
def FaithfulRun (vc : ChcVc) : Prop := FaithfulRounds (totalArity vc + 1) vc

instance (vc : ChcVc) : Decidable (FaithfulRun vc) := decidableFaithfulRounds _ _

/-! ### What is known -/

variable {T : Theory} {Γ : String → SmtSort} {sig : String → List SmtSort}

/-- Each name has one entry, and the entries of `known₀` stay. -/
structure Known.Extends (known₀ known : Known) : Prop where
  /-- Names are unique. -/
  nodup : (known.map Prod.fst).Nodup
  /-- Entries stay. -/
  lookup : ∀ n c, known₀.lookup n = some c → known.lookup n = some c

theorem Known.nodup_insert {known : Known} (h : (known.map Prod.fst).Nodup) (n : String)
    (c : Expr) : ((known.insert n c).map Prod.fst).Nodup := by
  refine List.nodup_cons.2 ⟨fun hn => ?_, h.sublist (List.filter_sublist.map Prod.fst)⟩
  obtain ⟨p, hp, rfl⟩ := List.mem_map.1 hn
  simpa using (List.mem_filter.1 hp).2

theorem Known.Extends.insert {known₀ known : Known} (h : known₀.Extends known) {n : String}
    {c : Expr} (hn : known.containsKey n = false) : known₀.Extends (known.insert n c) := by
  refine ⟨nodup_insert h.nodup n c, fun k c' hk => ?_⟩
  have hk' := h.lookup k c' hk
  rw [lookup_insert, if_neg, hk']
  rintro rfl
  simp [containsKey, hk'] at hn

/-- A name read out of a store is new. -/
theorem containsKey_of_resolveSelectFromStore {a b : Expr} {known stores : Known} {n : String}
    {c : Expr} (h : resolveSelectFromStore a b known stores = some (n, c)) :
    known.containsKey n = false := by
  unfold resolveSelectFromStore at h
  split at h
  case h_2 => cases h
  split_ifs at h with hn
  split at h
  case h_2 => cases h
  simp only [Option.bind_eq_bind, Option.bind_eq_some_iff] at h
  obtain ⟨store, -, val, -, h⟩ := h
  obtain ⟨-, h⟩ := Option.ite_none_right_eq_some.1 h
  obtain ⟨rfl, -⟩ := Prod.mk.inj (Option.some.inj h)
  exact Bool.eq_false_iff.2 hn

section Induction

variable {P : Known → Prop}
  (hinsert : ∀ known n c, P known → known.containsKey n = false → P (known.insert n c))
include hinsert

theorem learn_induction {known : Known} (h : P known) (n : String) (o : Option Expr) :
    P (learn known n o) := by
  unfold learn
  split
  · split_ifs with hn
    · exact h
    · exact hinsert _ _ _ h (Bool.eq_false_iff.2 hn)
  · exact h

theorem propagateStep_induction {known : Known} (h : P known) (e : Expr) :
    P (propagateStep known e) := by
  unfold propagateStep
  split
  · unfold propagateEq
    split
    · split <;> exact learn_induction hinsert h _ _
    · exact learn_induction hinsert h _ _
    · exact learn_induction hinsert h _ _
    · exact h
  · exact h

theorem resolveStep_induction {known : Known} (h : P known) (stores : Known) (e : Expr) :
    P (resolveStep stores known e) := by
  unfold resolveStep
  split
  case h_2 => exact h
  split
  case h_2 => exact h
  rename_i n c hn
  rcases Option.or_eq_some_iff.1 hn with hn | ⟨-, hn⟩ <;>
    exact hinsert _ _ _ h (containsKey_of_resolveSelectFromStore hn)

/-- What is kept when a new name is recorded holds of everything that is propagated. -/
theorem propagateThroughEqualities_induction {known : Known} (h : P known)
    (constraints : List Expr) : P (propagateThroughEqualities constraints known) := by
  unfold propagateThroughEqualities resolveArrayStoreSelects
  have hround : P (untilStable (fun known => (flattenConjunctions constraints).foldl propagateStep
      known) ((flattenConjunctions constraints).length + 1) known) := by
    refine untilStable_induction (fun known h => ?_) h
    exact foldl_preserves (P := P) (fun known e _ h => propagateStep_induction hinsert h e) h
  dsimp only
  split_ifs
  · exact hround
  · refine untilStable_induction (fun known h => ?_) hround
    exact foldl_preserves (P := P) (fun known e _ h => resolveStep_induction hinsert h _ e) h

end Induction

/-- Each name has one entry, a constant of its sort. -/
structure Known.Lawful (Γ : String → SmtSort) (known : Known) : Prop where
  /-- Names are unique. -/
  nodup : (known.map Prod.fst).Nodup
  /-- Entries are constants of their sorts. -/
  entries : ∀ p ∈ known, Sane Γ p.2 ∧ p.2.sort = Γ p.1 ∧ isConstant p.2 = true

/-- What is known is learned where the names have their constants. -/
theorem Known.Lawful.learned {known : Known} (h : known.Lawful Γ) :
    Learned (T := T) Γ known.Holds known := by
  refine ⟨fun p hp => ?_, fun p hp => (h.entries p hp).2.2⟩
  obtain ⟨hsane, hsort, -⟩ := h.entries p hp
  refine ⟨hsane, hsort, fun ρ hρ => ?_⟩
  rw [← hsort]
  exact hρ p.1 p.2 (lookup_of_mem h.nodup hp)

theorem Learned.mono {H H' : T.Env → Prop} {known : Known} (h : Learned Γ H known)
    (hH : ∀ ρ, H' ρ → H ρ) : Learned Γ H' known := by
  refine ⟨fun p hp => ?_, h.isConstant⟩
  obtain ⟨hsane, hsort, heval⟩ := h.tracked p hp
  exact ⟨hsane, hsort, fun ρ hρ => heval ρ (hH ρ hρ)⟩

section Round

variable {vc : ChcVc}

/-- The entries of `initialKnown` come from the constant positions. -/
theorem initialKnown_entries (cs : List (Option Expr)) (args : List Expr) :
    ((initialKnown cs args).map Prod.fst).Nodup ∧ ∀ p ∈ initialKnown cs args,
      (∃ i : ℕ, cs[i]? = some (some p.2)) ∧ ∃ s, Expr.var p.1 s ∈ args := by
  refine foldl_preserves (P := fun known : Known => (known.map Prod.fst).Nodup ∧ ∀ p ∈ known,
    (∃ i : ℕ, cs[i]? = some (some p.2)) ∧ ∃ s, Expr.var p.1 s ∈ args) (fun known p hp hk => ?_)
    ⟨List.nodup_nil, by simp⟩
  split
  · rename_i c n s
    obtain ⟨i, hi⟩ := List.mem_iff_getElem?.1 hp
    obtain ⟨hci, hai⟩ := List.getElem?_zip_eq_some.1 hi
    refine ⟨Known.nodup_insert hk.1 n c, fun q hq => ?_⟩
    rcases mem_insert hq with rfl | hq
    · exact ⟨⟨i, hci⟩, s, List.mem_of_getElem? hai⟩
    · exact hk.2 q hq
  · exact hk

theorem mem_freeOccs_of_var {r : Rule} {n : String} {s : SmtSort} (h : Expr.var n s ∈ r.terms) :
    (n, s) ∈ r.freeOccs := List.mem_flatMap.2 ⟨_, h, by simp⟩

/-- What is read from the constant positions of a premise. -/
theorem lawful_initialKnown (hg : Formed Γ sig vc.rules) {r : Rule} (hr : r ∈ vc.rules)
    {a : RelationApp} (ha : r.body.relation = some a) {cs : List (Option Expr)}
    (hcs : identifyConstantPositions vc a.name = some cs) {known : Known}
    (hext : (initialKnown cs a.args).Extends known) (hsorts : KnownSorts r known) :
    (initialKnown cs a.args).Lawful Γ := by
  obtain ⟨hnodup, hentries⟩ := initialKnown_entries cs a.args
  refine ⟨hnodup, fun p hp => ?_⟩
  obtain ⟨⟨i, hi⟩, s, hs⟩ := hentries p hp
  obtain ⟨hconst, hsane, -⟩ := sane_of_constant hg hcs hi
  have hmem : Expr.var p.1 s ∈ r.terms := Rule.mem_terms.2 (Or.inl ⟨a, ha, hs⟩)
  have hsort : p.2.sort = s :=
    hsorts _ (mem_freeOccs_of_var hmem) p.2 (hext.lookup _ _ (lookup_of_mem hnodup hp))
  exact ⟨hsane, hsort.trans (hg.sane r hr _ hmem).sort_var, hconst⟩

/-- What `propagateToUnconstrainedOutVars` keeps: an output variable gets a known constant. -/
theorem propagateToUnconstrainedOutVars_induction {P : Known → Prop} {headArgs : List Expr}
    (hlearn : ∀ known n s base, P known → Expr.var n s ∈ headArgs →
      P (learn known n (known.lookup base)))
    {known : Known} (h : P known) (constraints : List Expr) :
    P (propagateToUnconstrainedOutVars headArgs constraints known) := by
  refine foldl_preserves (P := P) (fun known e he h => ?_) h
  unfold propagateOutVar
  split
  · split
    · split_ifs
      · exact h
      · exact hlearn known _ _ _ h he
    · exact h
  · exact h

/-- **Everything known is a constant of its name's sort.** -/
theorem lawful_knownIn (hg : Formed Γ sig vc.rules) {r : Rule} (hr : r ∈ vc.rules)
    {a : RelationApp} (ha : r.body.relation = some a) {cs : List (Option Expr)}
    (hcs : identifyConstantPositions vc a.name = some cs) (hsorts : KnownSorts r (knownIn r a cs)) :
    (knownIn r a cs).Lawful Γ := by
  have hinsert : ∀ (known : Known) n c, (initialKnown cs a.args).Extends known →
      known.containsKey n = false → (initialKnown cs a.args).Extends (known.insert n c) :=
    fun _ _ _ h hn => h.insert hn
  have hknown : (initialKnown cs a.args).Extends (knownOf r a cs) :=
    propagateThroughEqualities_induction hinsert
      ⟨(initialKnown_entries cs a.args).1, fun _ _ h => h⟩ _
  have hext : (initialKnown cs a.args).Extends (knownIn r a cs) :=
    propagateToUnconstrainedOutVars_induction (P := (initialKnown cs a.args).Extends)
      (fun known n s base h _ => learn_induction hinsert h n _) hknown _
  have hinit := lawful_initialKnown hg hr ha hcs hext hsorts
  -- what is learned from the constraints holds where they and the constants of the premise do
  have hlearned : Learned Γ (fun ρ : (default : Theory).Env =>
      (∀ c ∈ r.body.constraints, Holds ρ c) ∧ (initialKnown cs a.args).Holds ρ)
      (knownOf r a cs) :=
    propagateThroughEqualities_sound (hg.constrained hr fun _ h => h.1)
      (hinit.learned.mono fun _ h => h.2)
  refine ⟨hext.nodup, fun p hp => ?_⟩
  have hentries : ∀ p ∈ knownIn r a cs, Sane Γ p.2 ∧ isConstant p.2 = true ∧
      (p.2.sort = Γ p.1 ∨ ∃ s, Expr.var p.1 s ∈ r.head.args) := by
    refine propagateToUnconstrainedOutVars_induction
      (P := fun known => ∀ p ∈ known, Sane Γ p.2 ∧ isConstant p.2 = true ∧
        (p.2.sort = Γ p.1 ∨ ∃ s, Expr.var p.1 s ∈ r.head.args))
      (fun known n s base h hn => ?_) (fun p hp => ?_) _
    · unfold learn
      split
      · rename_i c hc
        split_ifs
        · exact h
        · intro p hp
          rcases mem_insert hp with rfl | hp
          · obtain ⟨hsane, hconst, -⟩ := h _ (mem_of_lookup hc)
            exact ⟨hsane, hconst, Or.inr ⟨s, hn⟩⟩
          · exact h p hp
      · exact h
    · have hm := hlearned.tracked p hp
      exact ⟨hm.sane, hlearned.isConstant p hp, Or.inl hm.sort⟩
  obtain ⟨hsane, hconst, hsort | ⟨s, hs⟩⟩ := hentries p hp
  · exact ⟨hsane, hsort, hconst⟩
  · have hmem : Expr.var p.1 s ∈ r.terms := Rule.mem_terms.2 (Or.inr (Or.inr hs))
    have hsort : p.2.sort = s :=
      hsorts _ (mem_freeOccs_of_var hmem) p.2 (lookup_of_mem hext.nodup hp)
    exact ⟨hsane, hsort.trans (hg.sane r hr _ hmem).sort_var, hconst⟩

end Round

/-! ### Positions -/

section Positions

variable {α : Type}

/-- The dropped positions are the constant ones. -/
theorem length_stripPositions {cs : List (Option Expr)} (l : List α) (h : cs.length ≤ l.length) :
    (stripPositions cs l).length + cs.countP Option.isSome = l.length := by
  induction cs generalizing l with
  | nil => cases l <;> rfl
  | cons c cs ih =>
    cases l with
    | nil => simp at h
    | cons a l =>
      have ih' := ih l (Nat.le_of_succ_le_succ h)
      cases c with
      | none =>
        rw [List.countP_cons_of_neg (by simp), stripPositions, List.length_cons, List.length_cons,
          ← ih', Nat.add_right_comm]
      | some c =>
        rw [List.countP_cons_of_pos (by simp), stripPositions, List.length_cons, ← ih',
          Nat.add_assoc]

/-- A list is determined by its kept positions and the dropped ones. -/
theorem eq_of_stripPositions_eq {cs : List (Option Expr)} {l l' : List α}
    (hlen : l.length = l'.length) (h : stripPositions cs l = stripPositions cs l')
    (hdropped : ∀ (i : ℕ) c, cs[i]? = some (some c) → l[i]? = l'[i]?) : l = l' := by
  induction cs generalizing l l' with
  | nil => cases l <;> cases l' <;> exact h
  | cons c cs ih =>
    cases l with
    | nil => exact (List.length_eq_zero_iff.1 hlen.symm).symm
    | cons a l =>
      cases l' with
      | nil => simp at hlen
      | cons a' l' =>
        have htail : ∀ (i : ℕ) c, cs[i]? = some (some c) → l[i]? = l'[i]? :=
          fun i c hi => hdropped (i + 1) c hi
        have hlen' : l.length = l'.length := Nat.succ.inj hlen
        cases c with
        | none =>
          obtain ⟨rfl, htl⟩ := List.cons.inj h
          rw [ih hlen' htl htail]
        | some c =>
          obtain rfl : a = a' := by simpa using hdropped 0 c rfl
          rw [ih hlen' h htail]

end Positions

/-- Constant positions are positions of the heads, and there is one. -/
theorem identifyConstantPositions_length {vc : ChcVc} (hg : Formed Γ sig vc.rules)
    {name : String} {cs : List (Option Expr)} (h : identifyConstantPositions vc name = some cs) :
    cs.length ≤ (sig name).length ∧ 0 < cs.countP Option.isSome := by
  unfold identifyConstantPositions at h
  obtain ⟨hany, h⟩ := Option.ite_none_right_eq_some.1 h
  obtain rfl := Option.some.inj h
  refine ⟨?_, List.countP_pos_iff.2 (List.any_eq_true.1 hany)⟩
  rw [List.length_map, List.length_range, headArity]
  refine foldl_preserves (P := (· ≤ (sig name).length)) (fun n k hk hn => ?_) (Nat.zero_le _)
  obtain ⟨r, hr, rfl⟩ := List.mem_map.1 hk
  obtain ⟨hmem, hname⟩ := List.mem_filter.1 hr
  refine max_le hn ?_
  rw [← beq_iff_eq.1 hname, ← hg.head r hmem, List.length_map]

/-- A round only makes signatures shorter. -/
theorem length_stripSig_le {vc : ChcVc} (hg : Formed Γ sig vc.rules) (name : String) :
    (stripSig (identifyConstantPositions vc) sig name).length ≤ (sig name).length := by
  unfold stripSig
  split
  · exact le_rfl
  · rename_i cs hcs
    have hlen := length_stripPositions (sig name) (identifyConstantPositions_length hg hcs).1
    omega

/-- Derivable facts have the length of their relation's signature. -/
theorem length_of_derives {vc : ChcVc} (hg : Formed Γ sig vc.rules) {f : Fact T}
    (hf : Derives T vc.rules f) : f.2.length = (sig f.1).length := by
  obtain ⟨r, hr, ρ, -, -, rfl⟩ | ⟨g, -, r, hr, ρ, -, -, rfl⟩ := Horn.System.derivable_iff.1 hf <;>
    simp [RelationApp.fact, ← hg.head r hr]

/-! ### Assignments of what is known -/

/-- The assignment that gives the names their known constants. -/
noncomputable def Known.assign (known : Known) (names : List String) (ρ : T.Env) : T.Env :=
  fun n s => if n ∈ names then ((known.lookup n).map fun c => (c.eval ρ).as s).getD (ρ n s)
    else ρ n s

section Assign

variable {known : Known} {names : List String} {ρ : T.Env}

/-- A term in which none of the names remains keeps its value. -/
theorem Known.eval_assign {e : Expr} (h : ∀ n ∈ names, n ∉ e.freeVars) :
    e.eval (known.assign names ρ) = e.eval ρ := by
  refine eval_congr fun n hn => funext fun s => ?_
  rw [assign, if_neg fun hmem => h n hmem hn]

/-- Every known variable has its constant, if those that are not assigned do. -/
theorem Known.holds_assign (hk : known.Constants)
    (h : ∀ n c, known.lookup n = some c → n ∉ names → (Expr.var n c.sort).eval ρ = c.eval ρ) :
    known.Holds (known.assign names ρ) := by
  intro n c hc
  rw [eval_isConstant (hk.isConstant n c hc) (hk.wellSorted n c hc) (known.assign names ρ) ρ]
  by_cases hn : n ∈ names
  · rw [eval_var, assign, if_pos hn, hc, Option.map_some, Option.getD_some]
    exact mk_as (eval_sort c ρ)
  · rw [← h n c hc hn, eval_var, eval_var, assign, if_neg hn]

end Assign

/-! ### One round -/

section Round

variable {vc : ChcVc}

@[simp]
theorem fst_stripFact (constants : Constants) (f : Fact T) : (stripFact constants f).1 = f.1 := by
  unfold stripFact
  split <;> rfl

theorem stripFact_of_some {constants : Constants} {f : Fact T} {cs : List (Option Expr)}
    (h : constants f.1 = some cs) : stripFact constants f = (f.1, stripPositions cs f.2) := by
  simp only [stripFact, h]

/-- A rule whose premise loses no position is answered by itself. -/
theorem exists_of_fires_unchanged {constants : Constants} {r : Rule}
    (h : ∀ a, r.body.relation = some a → constants a.name = none) {ρ : T.Env}
    {p : Option (Fact T)}
    (hpremise : p.map (stripFact constants) = r.body.relation.map (·.fact ρ)) :
    r.body.relation.map (·.fact ρ) = p := by
  rw [← hpremise]
  cases p with
  | none => rfl
  | some g =>
    obtain ⟨a, ha, hfact⟩ := Option.map_eq_some_iff.1 (hpremise.symm.trans (Option.map_some ..))
    have hname : constants g.1 = none := by
      rw [← fst_stripFact constants g, ← hfact]
      exact h a ha
    simp only [Option.map_some, stripFact, hname]

/-- A rule that is skipped has more arguments in its premise than the facts that are left. -/
theorem not_premise_of_skipped (hg : Formed Γ sig vc.rules) {r : Rule} (hr : r ∈ vc.rules)
    {a : RelationApp} (ha : r.body.relation = some a) {cs : List (Option Expr)}
    (hcs : identifyConstantPositions vc a.name = some cs) {ρ : T.Env} {g : Fact T}
    (hder : Derives T vc.rules g) :
    stripFact (identifyConstantPositions vc) g ≠ a.fact ρ := by
  intro h
  by_cases hname : g.1 = a.name
  · rw [stripFact_of_some (hname ▸ hcs)] at h
    have hlen : (stripPositions cs g.2).length = a.args.length := by
      simpa [RelationApp.fact] using congrArg (fun f : Fact T => f.2.length) h
    obtain ⟨hle, hpos⟩ := identifyConstantPositions_length hg hcs
    have hfact := length_of_derives hg hder
    have hbody := hg.body r hr a ha
    rw [hname] at hfact
    have hstrip := length_stripPositions g.2 (hle.trans_eq hfact.symm)
    omega
  · refine hname ?_
    rw [← fst_stripFact (identifyConstantPositions vc) g, h]
    rfl

/-- What `propagateRule` does: the premise loses no position, the rule is skipped, or it is
rewritten. -/
theorem propagateRule_cases (constants : Constants) (r : Rule) :
    (∀ a, r.body.relation = some a → constants a.name = none) ∧ propagateRule constants r = r ∨
      ∃ a cs, r.body.relation = some a ∧ constants a.name = some cs ∧
        ((initialKnown cs a.args).isEmpty = true ∧ propagateRule constants r = r ∨
          ¬ (initialKnown cs a.args).isEmpty = true ∧
            propagateRule constants r = rewriteRule r a cs (knownIn r a cs)) := by
  by_cases hnone : ∀ a, r.body.relation = some a → constants a.name = none
  · exact Or.inl ⟨hnone, propagateRule_of_none hnone⟩
  push Not at hnone
  obtain ⟨a, ha, hcs⟩ := hnone
  obtain ⟨cs, hcs⟩ := Option.ne_none_iff_exists'.1 hcs
  refine Or.inr ⟨a, cs, ha, hcs, ?_⟩
  by_cases hempty : (initialKnown cs a.args).isEmpty = true
  · exact Or.inl ⟨hempty, by simp only [propagateRule, ha, hcs, if_pos hempty]⟩
  · refine Or.inr ⟨hempty, ?_⟩
    simp only [propagateRule, ha, hcs, if_neg hempty]
    rfl

theorem stripFact_map_head (constants : Constants) (r : Rule) (eval : Expr → T.Val) :
    stripFact constants (r.head.name, r.head.args.map eval) =
      (r.head.name, (stripHead constants r).head.args.map eval) := by
  unfold stripHead stripFact
  cases constants r.head.name with
  | none => rfl
  | some cs => simp only [map_stripPositions]

/-- The premise of a rewritten rule, read where every known variable has its constant, is the
fact whose kept positions it was read from. -/
theorem premise_of_rewritten (hg : Formed Γ sig vc.rules) {r : Rule} (hr : r ∈ vc.rules)
    {a : RelationApp} (ha : r.body.relation = some a) {cs : List (Option Expr)}
    (hcs : identifyConstantPositions vc a.name = some cs) {known : Known}
    (hknown : known.Lawful Γ) (hdropped : DroppedEqual cs a.args known) {ρ : T.Env}
    (hρ : known.Holds ρ) {g : Fact T} (hder : Derives T vc.rules g)
    (hpremise : stripFact (identifyConstantPositions vc) g =
      (a.name, (stripPositions cs a.args).map (·.eval ρ))) : a.fact ρ = g := by
  have hk : Learned (T := T) Γ known.Holds known := hknown.learned
  have hname : g.1 = a.name := by
    rw [← fst_stripFact (identifyConstantPositions vc) g, hpremise]
  have hcs' : identifyConstantPositions vc g.1 = some cs := by rw [hname, hcs]
  have hstrip : stripPositions cs (a.args.map (·.eval ρ)) = stripPositions cs g.2 := by
    rw [stripFact_of_some hcs'] at hpremise
    rw [← map_stripPositions, (Prod.mk.inj hpremise).2]
  obtain ⟨hle, -⟩ := identifyConstantPositions_length hg hcs
  have hfact := length_of_derives hg hder
  have hbody := hg.body r hr a ha
  rw [hname] at hfact
  have hlen : (a.args.map (·.eval ρ)).length = g.2.length := by
    have hleft : (stripPositions cs (a.args.map (·.eval ρ))).length + _ = _ :=
      length_stripPositions _ (by simpa using hle.trans hbody)
    have hright := length_stripPositions g.2 (hle.trans_eq hfact.symm)
    rw [← hleft, ← hright, hstrip]
  refine Prod.ext hname.symm (eq_of_stripPositions_eq hlen hstrip fun i c hi => ?_)
  have hi' : i < cs.length := (List.getElem?_eq_some_iff.1 hi).1
  obtain ⟨e, he⟩ : ∃ e, a.args[i]? = some e := ⟨_, List.getElem?_eq_getElem (by omega)⟩
  obtain ⟨v, hv⟩ : ∃ v, g.2[i]? = some v := ⟨_, List.getElem?_eq_getElem (by omega)⟩
  have hmem : (some c, e) ∈ cs.zip a.args :=
    List.mem_of_getElem? (List.getElem?_zip_eq_some.2 ⟨hi, he⟩)
  have heval : e.eval ρ = c.eval ρ := by
    rcases hdropped _ hmem c rfl with heq | hc
    · rw [show e = c from heq]
    · have hsane : Sane Γ e := hg.body_sane hr ha (List.mem_of_getElem? he)
      exact ((hk.evaluate hsane hc).2.2.2 ρ hρ).symm
  have harg : (a.fact ρ).2[i]? = some (e.eval ρ) := by simp [RelationApp.fact, he]
  rw [harg, hv, heval, agrees_of_derives hg hder hcs' i c v hi hv ρ]

/-- **Lifting one rewritten rule.** Where the unbound variables get their constants, the rule
fires from the whole premise. -/
theorem exists_of_fires_rewritten (hg : Formed Γ sig vc.rules) {r : Rule} (hr : r ∈ vc.rules)
    {a : RelationApp} (ha : r.body.relation = some a) {cs : List (Option Expr)}
    (hcs : identifyConstantPositions vc a.name = some cs)
    (hsorts : KnownSorts r (knownIn r a cs)) (hdropped : DroppedEqual cs a.args (knownIn r a cs))
    (hremain : NoneRemains (unboundVars (knownIn r a cs) a.args)
      (remainingTerms (identifyConstantPositions vc) r a cs)) {ρ : T.Env} {g : Fact T}
    (hder : Derives T vc.rules g)
    (hpremise : stripFact (identifyConstantPositions vc) g =
      (a.name, (stripPositions cs a.args).map (·.eval ρ)))
    (hsub : ∀ c ∈ r.body.constraints, Holds ρ (substituteVars c (knownIn r a cs)))
    (hbind : ∀ p ∈ knownIn r a cs, p.1 ∈ argVarNames a.args →
      (Expr.var p.1 p.2.sort).eval ρ = p.2.eval ρ) :
    ∃ ρ' : T.Env, a.fact ρ' = g ∧ (∀ c ∈ r.body.constraints, Holds ρ' c) ∧
      stripFact (identifyConstantPositions vc) (r.head.fact ρ') =
        stripFact (identifyConstantPositions vc)
          (r.head.name, (r.head.args.map (resolveArg (knownIn r a cs))).map (·.eval ρ)) := by
  have hlawful := lawful_knownIn hg hr ha hcs hsorts
  have hk : Learned (T := T) Γ (knownIn r a cs).Holds (knownIn r a cs) := hlawful.learned
  set known := knownIn r a cs with hknown
  have hholds : known.Holds (known.assign (unboundVars known a.args) ρ) := by
    refine Known.holds_assign hk.constants fun n c hc hn => hbind (n, c) (mem_of_lookup hc) ?_
    by_contra hmem
    exact hn (List.mem_filter.2 ⟨List.mem_map_of_mem (mem_of_lookup hc), by simpa using hmem⟩)
  -- what remains is read as before
  have hkeep : ∀ e ∈ remainingTerms (identifyConstantPositions vc) r a cs,
      e.eval (known.assign (unboundVars known a.args) ρ) = e.eval ρ := fun e he =>
    Known.eval_assign fun n hn => hremain n hn e he
  refine ⟨known.assign (unboundVars known a.args) ρ, ?_, fun c hc => ?_, ?_⟩
  · refine premise_of_rewritten hg hr ha hcs hlawful hdropped hholds hder (hpremise.trans ?_)
    refine Prod.ext rfl (List.map_congr_left fun e he => (hkeep e ?_).symm)
    exact List.mem_append_left _ (List.mem_append_left _ he)
  · have heval := (hk.substitute (hg.constraint_sane hr hc)).2.2 _ hholds
    rw [Holds, ← heval, hkeep]
    · exact hsub c hc
    · exact List.mem_append_left _ (List.mem_append_right _ (List.mem_map_of_mem hc))
  · rw [RelationApp.fact, stripFact_map_head, List.map_map, stripFact_map_head]
    refine Prod.ext rfl (List.map_congr_left fun e he => ?_)
    have hsane : Sane Γ e := hg.head_sane hr (mem_args_stripHead he)
    rw [← (hk.resolveArg hsane).2.2 _ hholds, hkeep]
    · rfl
    · exact List.mem_append_right _ (List.mem_map_of_mem he)

/-- **Lifting one step.** A faithful rule fires from every derivable fact whose kept positions
it was read from after the round. -/
theorem exists_of_fires_propagateRule (hg : Formed Γ sig vc.rules) {r : Rule} (hr : r ∈ vc.rules)
    (hfaithful : FaithfulRule (identifyConstantPositions vc) r) {ρ : T.Env}
    {p : Option (Fact T)} (hp : ∀ g ∈ p, Derives T vc.rules g)
    (hpremise : p.map (stripFact (identifyConstantPositions vc)) =
      (propagateRule (identifyConstantPositions vc) r).body.relation.map (·.fact ρ))
    (hc : ∀ c ∈ (propagateRule (identifyConstantPositions vc) r).body.constraints, Holds ρ c) :
    ∃ ρ' : T.Env, r.body.relation.map (·.fact ρ') = p ∧
      (∀ c ∈ r.body.constraints, Holds ρ' c) ∧
      stripFact (identifyConstantPositions vc) (r.head.fact ρ') =
        stripFact (identifyConstantPositions vc)
          ((propagateRule (identifyConstantPositions vc) r).head.fact ρ) := by
  obtain ⟨hnone, heq⟩ | ⟨a, cs, ha, hcs, ⟨-, heq⟩ | ⟨hempty, heq⟩⟩ :=
    propagateRule_cases (identifyConstantPositions vc) r
  all_goals rw [heq] at hpremise hc ⊢
  · exact ⟨ρ, exists_of_fires_unchanged hnone hpremise, hc, rfl⟩
  · -- a skipped rule has no premise among the derivable facts
    rw [ha, Option.map_some] at hpremise
    obtain ⟨g, rfl, hfact⟩ := Option.map_eq_some_iff.1 hpremise
    exact absurd hfact (not_premise_of_skipped hg hr ha hcs (hp g rfl))
  · obtain ⟨hsorts, hdropped, hremain⟩ := (hfaithful a ha cs hcs).resolve_left hempty
    obtain ⟨g, rfl, hfact⟩ := Option.map_eq_some_iff.1 hpremise
    obtain ⟨ρ', hbody, hconstraints, hhead⟩ := exists_of_fires_rewritten hg hr ha hcs hsorts
      hdropped hremain (hp g rfl) hfact
      (fun c hcr => hc _ (List.mem_append_left _ (List.mem_map_of_mem hcr)))
      fun q hq hmem => holds_eq.1 (hc _ (List.mem_append_right _ (List.mem_map.2
        ⟨q, List.mem_filter.2 ⟨hq, by simpa using hmem⟩, rfl⟩)))
    exact ⟨ρ', by rw [ha, Option.map_some, hbody], hconstraints, hhead⟩

/-- **One round.** What is derivable after a faithful round are the kept positions of derivable
facts. -/
theorem exists_of_derives_applyConstantPropagation (hg : Formed Γ sig vc.rules)
    (hround : FaithfulRound vc) {f' : Fact T}
    (hf : Derives T (applyConstantPropagation vc (identifyConstantPositions vc)).1.rules f') :
    ∃ f, Derives T vc.rules f ∧ stripFact (identifyConstantPositions vc) f = f' := by
  refine Horn.System.Derivable.lift (fun p' f' => ?_) hf
  rintro ⟨r', hr', ρ, rfl, hc, rfl⟩ p hp hpremise
  obtain ⟨r, hr, rfl⟩ := List.mem_map.1 hr'
  rw [body_stripHead] at hpremise hc
  obtain ⟨ρ', hbody, hconstraints, hhead⟩ :=
    exists_of_fires_propagateRule hg hr (hround r hr) hp hpremise hc
  exact ⟨r.head.fact ρ', ⟨r, hr, ρ', hbody, hconstraints, rfl⟩, by rw [hhead, stripFact_head]⟩

/-- A faithful round preserves what the rounds rely on. -/
theorem formed_applyConstantPropagation (hg : Formed Γ sig vc.rules) (hround : FaithfulRound vc) :
    Formed Γ (stripSig (identifyConstantPositions vc) sig)
      (applyConstantPropagation vc (identifyConstantPositions vc)).1.rules := by
  have hrule : ∀ r ∈ vc.rules, ∀ r', r' = propagateRule (identifyConstantPositions vc) r →
      (∀ e ∈ r'.terms, Sane Γ e) ∧ (∀ c ∈ r'.body.constraints, c.sort = .bool) ∧
        r'.head.args.map Expr.sort = sig r'.head.name ∧ ∀ a, r'.body.relation = some a →
          (stripSig (identifyConstantPositions vc) sig a.name).length ≤ a.args.length := by
    rintro r hr r' rfl
    obtain ⟨-, heq⟩ | ⟨a, cs, ha, hcs, ⟨-, heq⟩ | ⟨hempty, heq⟩⟩ :=
      propagateRule_cases (identifyConstantPositions vc) r
    all_goals rw [heq]
    -- a rule that is not rewritten keeps its terms, and the signatures get shorter
    iterate 2
      exact ⟨hg.sane r hr, hg.bool r hr, hg.head r hr, fun a ha =>
        (length_stripSig_le hg a.name).trans (hg.body r hr a ha)⟩
    · obtain ⟨hsorts, -, -⟩ := (hround r hr a ha cs hcs).resolve_left hempty
      have hk : Learned (T := default) Γ _ _ := (lawful_knownIn hg hr ha hcs hsorts).learned
      obtain ⟨hsane, hbool, hhead⟩ := formed_rewriteRule hg hr ha cs hk
      refine ⟨hsane, hbool, hhead, fun b hb => ?_⟩
      obtain rfl := Option.some.inj hb
      have hle := (identifyConstantPositions_length hg hcs).1
      have hbody := hg.body r hr a ha
      have hsig := length_stripPositions (sig a.name) hle
      have hargs := length_stripPositions a.args (hle.trans hbody)
      simp only [stripSig, hcs]
      omega
  refine ⟨fun r' hr' e he => ?_, fun r' hr' c hc => ?_, fun r' hr' => ?_, fun r' hr' a ha => ?_⟩ <;>
    obtain ⟨r, hr, rfl⟩ := List.mem_map.1 hr' <;>
    obtain ⟨hsane, hbool, hhead, hbody⟩ := hrule r hr _ rfl
  · exact hsane e (mem_terms_stripHead he)
  · rw [body_stripHead] at hc
    exact hbool c hc
  · exact sorts_stripHead _ hhead
  · rw [body_stripHead] at ha
    exact hbody a ha

end Round

/-! ### All rounds -/

/-- What is derivable after a run of faithful rounds was derivable, at some values. -/
theorem exists_of_derives_propagateRounds {n : ℕ} {vc : ChcVc} (hg : Formed Γ sig vc.rules)
    (hrounds : FaithfulRounds n vc) :
    (∃ sig', Formed Γ sig' (propagateRounds n vc).1.rules) ∧
      (propagateRounds n vc).1.target = vc.target ∧
      ∀ t (vs : List T.Val), Derives T (propagateRounds n vc).1.rules (t, vs) →
        ∃ vs', Derives T vc.rules (t, vs') := by
  induction n generalizing sig vc with
  | zero => exact ⟨⟨sig, hg⟩, rfl, fun t vs h => ⟨vs, h⟩⟩
  | succ n ih =>
    unfold propagateRounds
    split_ifs with hnone
    · exact ⟨⟨sig, hg⟩, rfl, fun t vs h => ⟨vs, h⟩⟩
    obtain ⟨hround, hrest⟩ := hrounds.resolve_left hnone
    have hstep : ∀ t (vs : List T.Val), Derives T
        (applyConstantPropagation vc (identifyConstantPositions vc)).1.rules (t, vs) →
        ∃ vs', Derives T vc.rules (t, vs') := by
      intro t vs h
      obtain ⟨f, hf, hstrip⟩ := exists_of_derives_applyConstantPropagation hg hround h
      have hname : f.1 = t := by
        rw [← fst_stripFact (identifyConstantPositions vc) f, hstrip]
      exact ⟨f.2, hname ▸ hf⟩
    have hg' := formed_applyConstantPropagation hg hround
    dsimp only
    split_ifs with hlast
    · exact ⟨⟨_, hg'⟩, rfl, hstep⟩
    · obtain ⟨hg'', htarget, hder⟩ := ih hg' (hrest.resolve_left hlast)
      refine ⟨hg'', htarget, fun t vs h => ?_⟩
      obtain ⟨vs', h'⟩ := hder t vs h
      exact hstep t vs' h'

/-- The rules that are dropped and the constraints that are stripped add nothing. -/
theorem derives_of_cleanup {vc : ChcVc} (hg : Formed Γ sig vc.rules) {f : Fact T}
    (hf : Derives T (stripTriviallyTrueConstraints (eliminateTriviallyFalseRules vc)).rules f) :
    Derives T vc.rules f := by
  refine hf.mono ?_
  rintro p f ⟨r', hr', ρ, hp, hc, hhead⟩
  obtain ⟨r, hr, rfl⟩ := List.mem_map.1 hr'
  have hmem : r ∈ vc.rules := (List.mem_filter.1 hr).1
  refine ⟨r, hmem, ρ, hp, fun c hcr => ?_, hhead⟩
  by_cases htrue : isTriviallyTrue c = true
  · exact (tryEvalToBool_holds (hg.constraint_sane hmem hcr) (beq_iff_eq.1 htrue) ρ).2 rfl
  · exact hc c (List.mem_filter.2 ⟨hcr, by simpa using htrue⟩)

/-- **No spurious error**: when its rounds are faithful and constant evaluation misreads no
term, the target is derivable in the result only if it is in the input. -/
theorem propagateConstants_no_spurious {vc : ChcVc} (hwf : vc.WellFormed) (hreg : RegularVc vc)
    (hrun : FaithfulRun vc) (T : Theory) (h : (propagateConstants vc).1.Unsafe T) :
    vc.Unsafe T := by
  obtain ⟨Γ, sig, hg⟩ := good_of_wellFormed hwf hreg
  obtain ⟨⟨sig', hg'⟩, htarget, hrounds⟩ :=
    exists_of_derives_propagateRounds (T := T) hg.formed hrun
  obtain ⟨t, vs, ht, hder⟩ := h
  obtain ⟨vs', hder'⟩ := hrounds t vs (derives_of_cleanup hg' hder)
  exact ⟨t, vs', htarget.symm.trans ht, hder'⟩

/-! ### Two runs -/

section Runs

/-- `R(3, 4)` and `R(x, z) ⇒ error`. -/
def testVc (z : ℤ) : ChcVc where
  vars := [("x", .int)]
  relations := [⟨"R", [.int, .int]⟩, ⟨"error", []⟩]
  rules := [⟨⟨none, []⟩, ⟨"R", [.intConst 3, .intConst 4]⟩⟩,
    ⟨⟨some ⟨"R", [.var "x" .int, .intConst z]⟩, []⟩, .nullary "error"⟩]
  target := some "error"
  triviallySafeDischarged := false

theorem wellFormed_testVc (z : ℤ) : (testVc z).WellFormed := by
  refine ⟨fun r hr => ?_, fun r hr => ?_, by simp [testVc], fun r hr => ?_, by simp [testVc]⟩ <;>
    simp only [testVc, List.mem_cons, List.not_mem_nil, or_false] at hr <;>
    rcases hr with rfl | rfl
  · exact ⟨by simp [Rule.terms, Op.accepts], by simp⟩
  · exact ⟨by simp [Rule.terms, Op.accepts, RelationApp.nullary], by simp⟩
  · simp [testVc, Rule.apps, Op.resultSort]
  · simp [testVc, Rule.apps, RelationApp.nullary, Op.resultSort]
  · simp [testVc, Rule.freeOccs, Rule.terms]
  · simp [testVc, Rule.freeOccs, Rule.terms, RelationApp.nullary]

/-- The rules without the test. -/
private def untestedRules : List Rule :=
  [⟨⟨none, []⟩, .nullary "R"⟩,
    ⟨⟨some (.nullary "R"), [(Expr.var "x" .int).eq (.intConst 3)]⟩, .nullary "error"⟩]

private theorem derives_untestedRules :
    Derives (default : Theory) untestedRules ("error", []) := by
  refine (derives_pair_iff rfl rfl (by decide) (by decide) rfl).2
    ⟨default, Theory.Env.ofVals fun _ => ofInt 3, by simp, rfl, ?_, rfl⟩
  rw [List.forall_mem_singleton, holds_eq, eval_var_ofVals (s := .int) rfl]
  simp [Op.interp]

/-- The test of the constant is dropped, and `error` stays derivable. -/
theorem propagateConstants_no_spurious_testVc : (testVc 4).Unsafe (default : Theory) := by
  refine propagateConstants_no_spurious (wellFormed_testVc 4) (by decide +kernel)
    (by decide +kernel) default ⟨"error", [], rfl, ?_⟩
  rw [show (propagateConstants (testVc 4)).1.rules = untestedRules by decide +kernel]
  exact derives_untestedRules

/-- **A spurious error.** `R(x, 5)` tests the dropped position for another value than the
constant `4`; the test is dropped all the same, and `error` becomes derivable. -/
theorem propagateConstants_drops_test :
    (testVc 5).WellFormed ∧ (propagateConstants (testVc 5)).1.Unsafe (default : Theory) ∧
      ¬ (testVc 5).Unsafe (default : Theory) := by
  refine ⟨wellFormed_testVc 5, ⟨"error", [], rfl, ?_⟩, ?_⟩
  · rw [show (propagateConstants (testVc 5)).1.rules = untestedRules by decide +kernel]
    exact derives_untestedRules
  · rintro ⟨t, vs, htarget, hder⟩
    obtain rfl : "error" = t := Option.some.inj htarget
    -- the premise of `error` is `R(x, 5)`, and the only fact of `R` is `R(3, 4)`
    obtain ⟨ρ, ρ', -, hprem, -, -⟩ :=
      (derives_pair_iff rfl rfl (by decide) (by decide) rfl).1 hder
    have hval := congrArg Prod.snd hprem
    simp [RelationApp.fact, Op.interp] at hval

end Runs

end ConstProp

end TrustMc
