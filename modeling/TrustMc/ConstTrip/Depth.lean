import TrustMc.ConstTrip.Execution
import TrustMc.LoopUnroll.DominatorsExact
import TrustMc.LoopUnroll.UnrollExact

/-!
# The derived depth is enough

How often the simulation has arrived at a header bounds the copies of the loop that an unrolled
execution is in.
-/

namespace TrustMc

namespace ConstTrip

open Machine
open LoopUnroll (Cfg NaturalLoop UnrollContext remapTarget checkSingleEntry naturalLoop
  sortDedup findLoopHeaders)

/-! ### The counts -/

/-- Where the first counts, the second has counted as much. -/
def Below (f g : ℕ → Option ℕ) : Prop :=
  ∀ h run, f h = some run → ∃ run', g h = some run' ∧ run ≤ run'

theorem Below.refl (f : ℕ → Option ℕ) : Below f f := fun _ run hrun => ⟨run, hrun, le_rfl⟩

theorem Below.trans {f g k : ℕ → Option ℕ} (hfg : Below f g) (hgk : Below g k) : Below f k := by
  intro h run hrun
  obtain ⟨run₁, hrun₁, hle₁⟩ := hfg h run hrun
  obtain ⟨run₂, hrun₂, hle₂⟩ := hgk h run₁ hrun₁
  exact ⟨run₂, hrun₂, hle₁.trans hle₂⟩

theorem below_raise (maxRun : ℕ → Option ℕ) (bb n : ℕ) : Below maxRun (raise maxRun bb n) := by
  intro h run hrun
  by_cases hbb : h = bb
  · subst hbb
    refine ⟨_, Function.update_self _ _ _, ?_⟩
    rw [hrun]
    exact le_max_left _ _
  · exact ⟨run, (Function.update_of_ne hbb _ _).trans hrun, le_rfl⟩

theorem exists_raise (maxRun : ℕ → Option ℕ) (bb n : ℕ) :
    ∃ run, raise maxRun bb n bb = some run ∧ n ≤ run :=
  ⟨_, Function.update_self _ _ _, le_max_right _ _⟩

section Counts

variable {b : MirBody} {loops : Loops} {st st' : SimState}

theorem below_arrive (loops : Loops) (st : SimState) :
    Below st.maxRun (arrive loops st).maxRun := by
  rw [arrive]
  split
  · exact .refl _
  · exact below_raise _ _ _

theorem below_depart (loops : Loops) (st : SimState) (next : ℕ) :
    Below st.maxRun (depart loops st next) := by
  rw [depart]
  split
  · exact .refl _
  · split_ifs
    · exact below_raise _ _ _
    · exact .refl _

/-- The counts of a round start from the arrival. -/
theorem arrive_below_simStep (h : simStep b loops st = .inl st') :
    Below (arrive loops st).maxRun st'.maxRun := by
  obtain ⟨_, next, _, -, -, -, rfl⟩ := simStep_inl h
  exact below_depart loops _ next

theorem simStep_inr {counts : TripCounts} (h : simStep b loops st = .inr counts) :
    counts.maxRun = (arrive loops st).maxRun := by
  rw [simStep] at h
  dsimp only at h
  split at h
  · obtain rfl := Sum.inr.inj h
    rfl
  · split at h
    · obtain rfl := Sum.inr.inj h
      rfl
    · obtain rfl := Sum.inr.inj h
      rfl
    · split_ifs at h
      obtain rfl := Sum.inr.inj h
      rfl

/-- What has been counted stays so. -/
theorem below_simRounds (left : ℕ) (st : SimState) :
    Below st.maxRun (simRounds b loops left st).maxRun := by
  induction left generalizing st with
  | zero => exact .refl _
  | succ left ih =>
    refine (below_arrive loops st).trans ?_
    rw [simRounds]
    split
    · rename_i st' hst'
      exact (arrive_below_simStep hst').trans (ih st')
    · rename_i counts hcounts
      rw [simStep_inr hcounts]
      exact .refl _

/-- A block that is simulated has been arrived at. -/
theorem arrive_below_simRounds (left : ℕ) (st : SimState) :
    Below (arrive loops st).maxRun (simRounds b loops (left + 1) st).maxRun := by
  rw [simRounds]
  split
  · rename_i st' hst'
    exact (arrive_below_simStep hst').trans (below_simRounds left st')
  · rename_i counts hcounts
    rw [simStep_inr hcounts]
    exact .refl _

theorem simRounds_of_simAt {n k : ℕ} (h : simAt b loops n = some st) :
    simRounds b loops (n + k) .start = simRounds b loops k st := by
  induction n generalizing k st with
  | zero =>
    obtain rfl := Option.some.inj h
    rw [Nat.zero_add]
  | succ n ih =>
    obtain ⟨st₁, hst₁, hst⟩ := Option.bind_eq_some_iff.1 h
    rw [Nat.add_assoc, Nat.add_comm 1, ih hst₁, simRounds, Sum.getLeft?_eq_some_iff.1 hst]

/-- What is counted up to a block that is simulated. -/
theorem arrive_below_simulate {n : ℕ} (hn : n < MAX_SIM_STEPS) (h : simAt b loops n = some st) :
    Below (arrive loops st).maxRun (simulate b loops).maxRun := by
  obtain ⟨left, hleft⟩ := Nat.exists_eq_add_of_lt hn
  rw [simulate, hleft, Nat.add_assoc, simRounds_of_simAt h]
  exact arrive_below_simRounds left st

end Counts

/-- A simulation that has got to a block has got to those before. -/
theorem simAt_isSome_of_le {b : MirBody} {loops : Loops} {n k : ℕ} (hk : k ≤ n)
    (h : (simAt b loops n).isSome) : (simAt b loops k).isSome := by
  induction hk with
  | refl => exact h
  | step _ ih =>
    obtain ⟨st, hst⟩ := Option.isSome_iff_exists.1 h
    obtain ⟨st₁, hst₁, -⟩ := Option.bind_eq_some_iff.1 hst
    exact ih (Option.isSome_iff_exists.2 ⟨st₁, hst₁⟩)

/-! ### Copies of a loop -/

/-- The copy of the loop that each block of a path is executed in. -/
def copyAt (lp : NaturalLoop) (x : ℕ → ℕ) : ℕ → ℕ
  | 0 => 0
  | i + 1 =>
    if x (i + 1) = lp.header then if lp.inLoop (x i) then copyAt lp x i + 1 else 0
    else copyAt lp x i

/-- A loop that is unrolled, in the graph `cfg` of a body that copies another one: its blocks copy
those of the loop of a header, and it has a single entry. -/
structure LoopCopy (loops : Loops) (cfg : Cfg) (pr : ℕ → Option ℕ) (lp : NaturalLoop) (h : ℕ) :
    Prop where
  graph : cfg.WellFormed
  loop : lp.Of cfg.size
  singleEntry : checkSingleEntry cfg lp = .ok ()
  header : pr lp.header = some h
  blocks : ∀ x, lp.inLoop x → ∃ v, pr x = some v ∧ insideNow loops v h

/-- A path from the first block. -/
structure Along (cfg : Cfg) (n : ℕ) (x : ℕ → ℕ) : Prop where
  start : x 0 = 0
  step : ∀ i < n, cfg.Edge (x i) (x (i + 1))

/-- The path enters the loop at its header. -/
def EntersAtHeader (lp : NaturalLoop) (n : ℕ) (x : ℕ → ℕ) : Prop :=
  ∀ i < n, lp.inLoop (x (i + 1)) → lp.inLoop (x i) = false → x (i + 1) = lp.header

section Copies

variable {b : MirBody} {loops : Loops} {cfg : Cfg} {pr : ℕ → Option ℕ} {lp : NaturalLoop}
  {h : ℕ}

theorem Along.reachable {n : ℕ} {x : ℕ → ℕ} (hx : Along cfg n x) {i : ℕ} (hi : i ≤ n) :
    Flow.Reachable cfg.Edge 0 (x i) := by
  induction i with
  | zero =>
    rw [hx.start]
    exact .entry
  | succ i ih => exact (ih (Nat.le_of_succ_le hi)).step (hx.step i hi)

/-- A loop with a single entry is entered at its header. -/
theorem LoopCopy.entersAtHeader (hcopy : LoopCopy loops cfg pr lp h) {n : ℕ} {x : ℕ → ℕ}
    (hx : Along cfg n x) : EntersAtHeader lp n x := by
  intro i hi hin hout
  by_contra hheader
  have hedge := hx.step i hi
  have hreach := hcopy.graph.reachable_iff.2 (hx.reachable hi.le)
  have hmem := (hcopy.loop.mem_iff _ (hcopy.graph.lt_of_edge hedge)).1 hin
  have hsingle := hcopy.singleEntry
  rw [checkSingleEntry] at hsingle
  split at hsingle
  · cases hsingle
  · rename_i hnone
    have hblock := List.findSome?_eq_none_iff.1 hnone _ hmem
    rw [if_neg hheader] at hblock
    have hpred := List.findSome?_eq_none_iff.1 hblock _ (hcopy.graph.mem_preds.2 hedge)
    simp [hreach, hout] at hpred

/-- A loop of the body itself. -/
theorem loopCopy_self {headers : ℕ → List ℕ} (hcfg : cfg.WellFormed) (hh : h < cfg.size)
    (hheaders : headers h ≠ [])
    (hsingle : checkSingleEntry cfg (naturalLoop cfg h (sortDedup (headers h))) = .ok ()) :
    LoopCopy (loopsOf cfg headers) cfg some (naturalLoop cfg h (sortDedup (headers h))) h where
  graph := hcfg
  loop := LoopUnroll.naturalLoop_of hh _
  singleEntry := hsingle
  header := rfl
  blocks := fun x hx => ⟨x, rfl, by
    rw [ConstTrip.insideNow, loopsOf, if_neg hheaders]
    exact hx⟩

theorem LoopCopy.insideNow (hcopy : LoopCopy loops cfg pr lp h) {x v : ℕ} (hx : lp.inLoop x)
    (hv : pr x = some v) : insideNow loops v h := by
  obtain ⟨v', hv', hinside⟩ := hcopy.blocks x hx
  obtain rfl := Option.some.inj (hv.symm.trans hv')
  exact hinside

/-- Arriving at a header from inside its loop counts. -/
theorem arrive_curRun {st : SimState} {prev : ℕ} (hbb : st.bb = h) (hprev : st.prev = some prev)
    (hinside : ConstTrip.insideNow loops prev h) :
    (arrive loops st).curRun h = some ((st.curRun h).getD 0 + 1) := by
  subst hbb
  obtain ⟨inLoop, hloops, hprev'⟩ := (Option.any_eq_true _ _).1 hinside
  rw [arrive, hloops]
  dsimp only
  rw [Function.update_self, hprev, Option.any_some, if_pos hprev']

theorem arrive_curRun_of_ne {st : SimState} (hbb : h ≠ st.bb) :
    (arrive loops st).curRun h = st.curRun h := by
  rw [arrive]
  split
  · rfl
  · exact Function.update_of_ne hbb _ _

/-- What is counted last is also counted at most. -/
theorem arrive_maxRun {st : SimState} (hbb : st.bb = h) (hheader : (loops h).isSome) :
    ∃ run, (arrive loops st).maxRun h = some run ∧
      ((arrive loops st).curRun h).getD 0 ≤ run := by
  subst hbb
  obtain ⟨inLoop, hloops⟩ := Option.isSome_iff_exists.1 hheader
  rw [arrive, hloops]
  dsimp only
  rw [Function.update_self, Option.getD_some]
  exact exists_raise _ _ _

/-- Leaving a header for a block of its loop counts. -/
theorem depart_maxRun {st : SimState} {next : ℕ} (hbb : st.bb = h)
    (hinside : ConstTrip.insideNow loops next h) :
    ∃ run, depart loops st next h = some run ∧ (st.curRun h).getD 0 + 1 ≤ run := by
  subst hbb
  obtain ⟨inLoop, hloops, hnext⟩ := (Option.any_eq_true _ _).1 hinside
  rw [depart, hloops]
  dsimp only
  rw [if_pos hnext]
  exact exists_raise _ _ _

/-- **The copy that is executed has been counted.** -/
theorem copyAt_le (hcopy : LoopCopy loops cfg pr lp h) {x : ℕ → ℕ} {n : ℕ} {st : SimState}
    (hentry : EntersAtHeader lp n x) (hst : simAt b loops n = some st)
    (hx : ∀ i ≤ n, ∀ st, simAt b loops i = some st → pr (x i) = some st.bb)
    (hin : lp.inLoop (x n)) :
    copyAt lp x n ≤ ((arrive loops st).curRun h).getD 0 := by
  induction n generalizing st with
  | zero => exact Nat.zero_le _
  | succ n ih =>
    obtain ⟨st₁, hst₁, hstep⟩ := Option.bind_eq_some_iff.1 hst
    obtain ⟨_, next, _, -, -, -, hnext⟩ := simStep_inl (Sum.getLeft?_eq_some_iff.1 hstep)
    have hcur : st.curRun = (arrive loops st₁).curRun := by rw [hnext]
    have hprev : st.prev = some st₁.bb := by rw [hnext]
    rw [copyAt]
    by_cases hbefore : lp.inLoop (x n)
    · -- on in the loop
      have hle := ih (fun i hi => hentry i (Nat.lt_succ_of_lt hi)) hst₁
        (fun i hi => hx i (Nat.le_succ_of_le hi)) hbefore
      rw [← hcur] at hle
      have hinside := hcopy.insideNow hbefore (hx n (Nat.le_succ n) st₁ hst₁)
      by_cases hheader : x (n + 1) = lp.header
      · have hbb : st.bb = h := by
          have hx' := hx (n + 1) le_rfl st hst
          rw [hheader, hcopy.header] at hx'
          exact (Option.some.inj hx').symm
        rw [if_pos hheader, if_pos hbefore, arrive_curRun hbb hprev hinside]
        exact Nat.succ_le_succ hle
      · rw [if_neg hheader]
        refine hle.trans ?_
        by_cases hbb : h = st.bb
        · rw [arrive_curRun hbb.symm hprev hinside]
          exact Nat.le_succ _
        · rw [arrive_curRun_of_ne hbb]
    · rw [if_pos (hentry n (Nat.lt_succ_self n) hin (by simpa using hbefore)), if_neg hbefore]
      exact Nat.zero_le _

variable {ucx : UnrollContext} {x : ℕ → ℕ} {n : ℕ}

/-- The copy that a back edge leaves is not the last. -/
theorem copyAt_lt_of_backEdge (hcopy : LoopCopy loops cfg pr lp h)
    (hentry : EntersAtHeader lp (n + 1) x) (hn : n + 1 < MAX_SIM_STEPS) {st' : SimState}
    (hst' : simAt b loops (n + 1) = some st')
    (hx : ∀ i ≤ n + 1, ∀ st, simAt b loops i = some st → pr (x i) = some st.bb) {depth : ℕ}
    (hdepth : ∀ run, (simulate b loops).maxRun h = some run → run ≤ depth)
    (hin : lp.inLoop (x n)) (hout : lp.inLoop (x (n + 1))) (hheader : x (n + 1) = lp.header) :
    copyAt lp x n < depth := by
  have hbb' := hx (n + 1) le_rfl st' hst'
  have hh : st'.bb = h := by
    rw [hheader, hcopy.header] at hbb'
    exact (Option.some.inj hbb').symm
  have hloops : (loops h).isSome := by
    obtain ⟨inLoop, hloops, -⟩ := (Option.any_eq_true _ _).1 (hcopy.insideNow hout hbb')
    exact hloops ▸ rfl
  obtain ⟨run, hrun, hle⟩ := arrive_maxRun hh hloops
  obtain ⟨total, htotal, hle'⟩ := arrive_below_simulate hn hst' h run hrun
  have hcopyAt : copyAt lp x (n + 1) = copyAt lp x n + 1 := by
    rw [copyAt, if_pos hheader, if_pos hin]
  calc
    copyAt lp x n + 1 = copyAt lp x (n + 1) := hcopyAt.symm
    _ ≤ ((arrive loops st').curRun h).getD 0 := copyAt_le hcopy hentry hst' hx hout
    _ ≤ run := hle
    _ ≤ total := hle'
    _ ≤ depth := hdepth total htotal

/-- The copy in which a header goes on into its loop is not the last. -/
theorem copyAt_lt_of_header (hcopy : LoopCopy loops cfg pr lp h)
    (hentry : EntersAtHeader lp (n + 1) x) (hn : n + 1 < MAX_SIM_STEPS) {st' : SimState}
    (hst' : simAt b loops (n + 1) = some st')
    (hx : ∀ i ≤ n + 1, ∀ st, simAt b loops i = some st → pr (x i) = some st.bb) {depth : ℕ}
    (hdepth : ∀ run, (simulate b loops).maxRun h = some run → run ≤ depth)
    (hin : lp.inLoop (x n)) (hout : lp.inLoop (x (n + 1))) (hheader : x n = lp.header) :
    copyAt lp x n < depth := by
  obtain ⟨st, hst, hstep⟩ := Option.bind_eq_some_iff.1 hst'
  have hbb := hx n (Nat.le_succ n) st hst
  have hh : (arrive loops st).bb = h := by
    rw [hheader, hcopy.header] at hbb
    rw [arrive_bb]
    exact (Option.some.inj hbb).symm
  have hinside := hcopy.insideNow hout (hx (n + 1) le_rfl st' hst')
  obtain ⟨_, next, _, -, -, -, hnext⟩ := simStep_inl (Sum.getLeft?_eq_some_iff.1 hstep)
  have hbb' : st'.bb = next := by rw [hnext]
  have hmax : st'.maxRun = depart loops (arrive loops st) next := by rw [hnext]
  obtain ⟨run, hrun, hle⟩ := depart_maxRun hh (hbb' ▸ hinside)
  obtain ⟨total, htotal, hle'⟩ :=
    ((below_arrive loops st').trans (arrive_below_simulate hn hst')) h run (hmax ▸ hrun)
  calc
    copyAt lp x n + 1 ≤ ((arrive loops st).curRun h).getD 0 + 1 :=
      Nat.succ_le_succ (copyAt_le hcopy (fun i hi => hentry i (Nat.lt_succ_of_lt hi)) hst
        (fun i hi => hx i (Nat.le_succ_of_le hi)) hin)
    _ ≤ run := hle
    _ ≤ total := hle'
    _ ≤ depth := hdepth total htotal

/-- **No edge of a loop that has been counted is cut**, where the depth is not below the count. -/
theorem remapTarget_eq (hcopy : LoopCopy loops cfg pr ucx.lp h)
    (hentry : EntersAtHeader ucx.lp (n + 1) x) (hn : n + 1 < MAX_SIM_STEPS)
    (hsim : (simAt b loops (n + 1)).isSome)
    (hx : ∀ i ≤ n + 1, ∀ st, simAt b loops i = some st → pr (x i) = some st.bb)
    (hdepth : ∀ run, (simulate b loops).maxRun h = some run → run ≤ ucx.unwindDepth)
    (hin : ucx.lp.inLoop (x n)) :
    remapTarget (x (n + 1)) (copyAt ucx.lp x n) (x n) ucx =
      if ucx.lp.inLoop (x (n + 1)) then (ucx.maps (copyAt ucx.lp x (n + 1))).get (x (n + 1))
      else x (n + 1) := by
  obtain ⟨st', hst'⟩ := Option.isSome_iff_exists.1 hsim
  rw [remapTarget]
  by_cases hout : ucx.lp.inLoop (x (n + 1))
  · rw [if_neg (by simp [hout]), if_pos hout]
    have hlast : ¬ (copyAt ucx.lp x n = ucx.unwindDepth ∧ x n = ucx.lp.header) := by
      rintro ⟨hlast, hheader⟩
      exact absurd hlast
        (copyAt_lt_of_header hcopy hentry hn hst' hx hdepth hin hout hheader).ne
    rw [if_neg hlast, copyAt]
    by_cases hheader : x (n + 1) = ucx.lp.header
    · rw [if_pos hheader, if_pos hheader, if_pos hin, hheader,
        if_pos (copyAt_lt_of_backEdge hcopy hentry hn hst' hx hdepth hin hout hheader)]
    · rw [if_neg hheader, if_neg hheader]
  · rw [if_pos (by simp [hout]), if_neg hout]

end Copies

/-! ### The depth -/

/-- The simulation has seen all of the loop, and has not counted above the cap. -/
structure TripCounts.Completed (counts : TripCounts) (h : ℕ) : Prop where
  complete : counts.outcome.incomplete h = false
  capped : ∀ run, counts.maxRun h = some run → run ≤ CONST_TRIP_DEPTH_CAP

theorem le_foldl_max {l : List ℕ} {acc : Option ℕ} {run : ℕ}
    (hrun : run ∈ l ∨ acc = some run) {d : ℕ}
    (hd : l.foldl (fun derived run => some (max (derived.getD 0) run)) acc = some d) :
    run ≤ d := by
  induction l generalizing acc run with
  | nil =>
    obtain h | rfl := hrun
    · cases h
    · exact (Option.some.inj hd).le
  | cons a l ih =>
    rcases hrun with h | rfl
    · rcases List.mem_cons.1 h with rfl | h
      · exact (le_max_right (acc.getD 0) run).trans (ih (.inr rfl) hd)
      · exact ih (.inl h) hd
    · exact (le_max_left run a).trans (ih (.inr rfl) hd)

section Depth

variable {b : MirBody} {d : ℕ}

theorem deriveConstTripUnrollDepth_eq_some (hd : deriveConstTripUnrollDepth b = some d) :
    ∃ headers, findLoopHeaders (Cfg.fromBody b.body) = .ok headers ∧
      ((List.range (Cfg.fromBody b.body).size).filterMap
        (simulate b (loopsOf (Cfg.fromBody b.body) headers)).derivedRun).foldl
          (fun derived run => some (max (derived.getD 0) run)) none = some d := by
  rw [deriveConstTripUnrollDepth] at hd
  dsimp only at hd
  split_ifs at hd
  split at hd
  · cases hd
  · rename_i headers hheaders
    split_ifs at hd
    exact ⟨headers, hheaders, hd⟩

/-- The depth is not below the count of a loop that has been completed. -/
theorem maxRun_le_depth {counts : TripCounts} {size h : ℕ} (hh : h < size)
    (hcounts : counts.Completed h)
    (hd : ((List.range size).filterMap counts.derivedRun).foldl
      (fun derived run => some (max (derived.getD 0) run)) none = some d)
    {run : ℕ} (hrun : counts.maxRun h = some run) : run ≤ d := by
  by_cases hzero : run = 0
  · exact hzero ▸ Nat.zero_le d
  · refine le_foldl_max (.inl (List.mem_filterMap.2 ⟨h, List.mem_range.2 hh, ?_⟩)) hd
    rw [TripCounts.derivedRun, hrun, Option.bind_some,
      if_neg (by simp [hcounts.complete, hzero]),
      if_neg (Nat.not_lt_of_le (hcounts.capped run hrun))]

/-- A header is a block. -/
theorem lt_of_insideNow (hvalid : b.body.Valid) {headers : ℕ → List ℕ}
    (hheaders : findLoopHeaders (Cfg.fromBody b.body) = .ok headers) {v h : ℕ}
    (hinside : insideNow (loopsOf (Cfg.fromBody b.body) headers) v h) :
    h < (Cfg.fromBody b.body).size := by
  have hcfg := LoopUnroll.fromBody_wellFormed hvalid
  obtain ⟨headers', hok, hmem⟩ := LoopUnroll.findLoopHeaders_ok hcfg
  obtain rfl := Except.ok.inj (hheaders.symm.trans hok)
  obtain ⟨inLoop, hloops, -⟩ := (Option.any_eq_true _ _).1 hinside
  have hne : headers h ≠ [] := by
    intro hnil
    rw [loopsOf, if_pos hnil] at hloops
    cases hloops
  obtain ⟨src, hsrc⟩ := List.exists_mem_of_ne_nil _ hne
  exact hcfg.lt_of_edge ((hmem src h).1 hsrc).2.1

/-- No edge that leaves a block of the loop is cut: it goes to the copy that is next. -/
def Uncut (ucx : UnrollContext) (n : ℕ) (x : ℕ → ℕ) : Prop :=
  ∀ i < n, ucx.lp.inLoop (x i) →
    remapTarget (x (i + 1)) (copyAt ucx.lp x i) (x i) ucx =
      if ucx.lp.inLoop (x (i + 1)) then (ucx.maps (copyAt ucx.lp x (i + 1))).get (x (i + 1))
      else x (i + 1)

/-- **The derived depth truncates nothing that has been simulated.** An execution follows the
blocks of the simulation and has the values of its store, and with at least that depth no edge of
it is cut in a loop, or in a copy of a loop, that has been completed. -/
theorem deriveConstTripUnrollDepth_exact (hvalid : b.body.Valid) (hplain : b.Plain)
    (hd : deriveConstTripUnrollDepth b = some d) :
    ∃ headers, findLoopHeaders (Cfg.fromBody b.body) = .ok headers ∧
      ∀ n c, Execution b n c → ∀ st,
        simAt b (loopsOf (Cfg.fromBody b.body) headers) n = some st →
        ((c n).1 = st.bb ∧ Agrees b st.store (c n).2) ∧
          (n < MAX_SIM_STEPS → ∀ cfg pr ucx h,
            LoopCopy (loopsOf (Cfg.fromBody b.body) headers) cfg pr ucx.lp h →
            (simulate b (loopsOf (Cfg.fromBody b.body) headers)).Completed h →
            d ≤ ucx.unwindDepth → ∀ x, Along cfg n x → (∀ i ≤ n, pr (x i) = some (c i).1) →
            Uncut ucx n x) := by
  obtain ⟨headers, hheaders, hmax⟩ := deriveConstTripUnrollDepth_eq_some hd
  refine ⟨headers, hheaders, fun n c hexec st hst => ⟨hexec.follows hplain hst, ?_⟩⟩
  intro hn cfg pr ucx h hcopy hcompleted hdepth x hx hpr i hi hin
  have hsim : ∀ {j}, j ≤ n → (simAt b (loopsOf (Cfg.fromBody b.body) headers) j).isSome :=
    fun hj => simAt_isSome_of_le hj (hst ▸ rfl)
  obtain ⟨v, -, hinside⟩ := hcopy.blocks _ hin
  refine remapTarget_eq hcopy (fun j hj => hcopy.entersAtHeader hx j (by omega)) (by omega)
    (hsim hi) (fun j hj st' hst' => ?_) (fun run hrun => ?_) hin
  · rw [hpr j (by omega), ((hexec.mono (by omega)).follows hplain hst').1]
  · exact (maxRun_le_depth (lt_of_insideNow hvalid hheaders hinside) hcompleted hmax hrun).trans
      hdepth

end Depth

/-! ### Two loops -/

def u8 : IntTy := ⟨false, 8, IntTy.eight_mem_widths⟩

def byteConst (n : ℕ) : Operand := .constant ⟨.int u8, some ⟨none, none, some n⟩⟩

/-- `while _1 != limit { _1 += 1 }`, from the block `head` on. -/
def countTo (head limit : ℕ) : List (LoopUnroll.BasicBlock mir) :=
  [⟨[], ⟨.switchInt (.copy ⟨1, []⟩) [(limit, head + 2)] (head + 1), ()⟩⟩,
   ⟨[.assign ⟨1, []⟩ (.binaryOp .add (.copy ⟨1, []⟩) (byteConst 1))], ⟨.goto head, ()⟩⟩]

/-- A loop of two iterations, and one of more than are counted. -/
def twoLoops : MirBody where
  body := ⟨[⟨[.assign ⟨1, []⟩ (.use (byteConst 0))], ⟨.goto 1, ()⟩⟩] ++ countTo 1 2 ++
    countTo 3 100 ++ [⟨[], ⟨.return, ()⟩⟩]⟩
  localCount := 2
  isUnion _ := false

theorem twoLoops_valid : twoLoops.body.Valid := ⟨by decide, by decide⟩

theorem twoLoops_plain : twoLoops.Plain where
  union_assign := fun _ _ _ _ _ _ _ _ => rfl
  union_call := fun _ _ _ _ _ _ _ _ _ _ _ => rfl
  aggregate := by
    intro block hblock place kind ops hmem
    simp only [twoLoops, countTo, List.cons_append, List.nil_append, List.mem_cons,
      List.not_mem_nil, or_false] at hblock
    rcases hblock with rfl | rfl | rfl | rfl | rfl | rfl
    all_goals simp at hmem

theorem twoLoops_depth : deriveConstTripUnrollDepth twoLoops = some 2 := by decide +kernel

/-- A memory with a byte. -/
def bytes (n : ℕ) : Memory :=
  Function.update (fun _ => ⟨.uninit, fun _ => .uninit⟩) 1
    ⟨.scalar (.int u8 (u8.wrap n)), fun _ => .uninit⟩

theorem bytes_self (n : ℕ) :
    bytes n 1 = ⟨.scalar (.int u8 (u8.wrap n)), fun _ => .uninit⟩ :=
  Function.update_self _ _ _

theorem constantValue_byteConst (n : ℕ) : ConstantValue ⟨.int u8, some ⟨none, none, some n⟩⟩
    (bytes n 1) := by
  rintro alloc ⟨⟩
  dsimp only
  refine ⟨fun hsigned => (nomatch hsigned), fun _ k hk => ?_⟩
  obtain rfl := Option.some.inj hk
  rw [bytes_self]

theorem weaker_refl (m : Memory) : Weaker m m := fun _ => .inl rfl

theorem writes_bytes (b : MirBody) (k n : ℕ) :
    Writes b (bytes k) ⟨1, []⟩ (bytes n 1) (bytes n) := by
  rw [Writes, placeSlot]
  dsimp only
  rw [bytes_self, bytes, bytes, Function.update_idem]

section BlockSteps

variable {b : MirBody} {bb limit inner exit next n : ℕ}

theorem blockStep_head (hblock : b.body.blocks[bb]? =
      some ⟨[], ⟨.switchInt (.copy ⟨1, []⟩) [(limit, exit)] inner, ()⟩⟩)
    {target : ℕ}
    (htarget : target = if CaseOf (.int u8 (u8.wrap n)) limit then exit else inner) :
    BlockStep b (bb, bytes n) (target, bytes n) := by
  refine ⟨_, bytes n, hblock, rfl, bytes n 1, ⟨rfl, ?_⟩, weaker_refl _, fun p hp => ?_⟩
  · rw [bytes_self]
    exact Content.noConfusion
  · rw [bytes_self] at hp
    obtain rfl := Content.scalar.inj hp
    rw [SwitchesTo, List.find?_singleton]
    by_cases hlimit : CaseOf (.int u8 (u8.wrap n)) limit
    · rw [if_pos (decide_eq_true hlimit)]
      exact htarget.trans (if_pos hlimit)
    · rw [if_neg (by simp [hlimit])]
      exact htarget.trans (if_neg hlimit)

theorem blockStep_next (hblock : b.body.blocks[bb]? =
      some ⟨[.assign ⟨1, []⟩ (.binaryOp .add (.copy ⟨1, []⟩) (byteConst 1))], ⟨.goto next, ()⟩⟩)
    (hadd : mirBinop .add (.int u8 (u8.wrap n)) (.int u8 (u8.wrap 1)) =
      some (some (.int u8 (u8.wrap (n + 1 : ℕ))))) :
    BlockStep b (bb, bytes n) (next, bytes (n + 1)) := by
  refine ⟨_, bytes (n + 1), hblock, ⟨_, ⟨bytes (n + 1) 1, bytes n, ?_, weaker_refl _,
    writes_bytes b n (n + 1)⟩, rfl⟩, rfl, rfl⟩
  refine ⟨bytes n 1, bytes 1 1, ⟨rfl, ?_⟩, constantValue_byteConst 1,
    fun p q hp hq => ⟨some (.int u8 (u8.wrap (n + 1 : ℕ))), ?_, ?_⟩⟩
  · rw [bytes_self]
    exact Content.noConfusion
  · rw [bytes_self] at hp hq
    obtain rfl := Content.scalar.inj hp
    obtain rfl := Content.scalar.inj hq
    exact hadd
  · rw [bytes_self, Value.IsResult]

end BlockSteps

/-- What `twoLoops` executes first. -/
def twoLoopsRun : List (ℕ × ℕ) :=
  [(0, 0), (1, 0), (2, 0), (1, 1), (2, 1), (1, 2), (3, 2), (4, 2), (3, 3), (4, 3), (3, 4), (4, 4)]

def twoLoopsAt (i : ℕ) : ℕ × Memory :=
  ((twoLoopsRun.getD i (0, 0)).1, bytes (twoLoopsRun.getD i (0, 0)).2)

theorem twoLoops_execution : Execution twoLoops 11 twoLoopsAt where
  start := rfl
  step := by
    intro i hi
    interval_cases i
    · exact ⟨_, bytes 0, rfl, ⟨_, ⟨bytes 0 1, bytes 0, constantValue_byteConst 0, weaker_refl _,
        writes_bytes twoLoops 0 0⟩, rfl⟩, rfl, rfl⟩
    · exact blockStep_head rfl (by decide)
    · exact blockStep_next rfl (by decide)
    · exact blockStep_head rfl (by decide)
    · exact blockStep_next rfl (by decide)
    · exact blockStep_head rfl (by decide)
    · exact blockStep_head rfl (by decide)
    · exact blockStep_next rfl (by decide)
    · exact blockStep_head rfl (by decide)
    · exact blockStep_next rfl (by decide)
    · exact blockStep_head rfl (by decide)

def twoLoopsCfg : Cfg := Cfg.fromBody twoLoops.body

def twoLoopsHeaders : ℕ → List ℕ := (findLoopHeaders twoLoopsCfg).toOption.getD fun _ => []

theorem twoLoops_headers {headers : ℕ → List ℕ}
    (h : findLoopHeaders (Cfg.fromBody twoLoops.body) = .ok headers) :
    headers = twoLoopsHeaders := by
  rw [twoLoopsHeaders, twoLoopsCfg, h]
  rfl

/-- The loop of a header of `twoLoops`, unrolled twice. -/
def twoLoopsUnroll (header : ℕ) : UnrollContext where
  lp := naturalLoop twoLoopsCfg header (sortDedup (twoLoopsHeaders header))
  maps _ := .identity
  unwindDepth := 2
  failBb := 6
  silentFailBb := 7
  unwindingAssertions := true

theorem twoLoops_copy {header : ℕ} (h : header = 1 ∨ header = 3) :
    LoopCopy (loopsOf twoLoopsCfg twoLoopsHeaders) twoLoopsCfg some
      (twoLoopsUnroll header).lp header := by
  refine loopCopy_self (LoopUnroll.fromBody_wellFormed twoLoops_valid) ?_ ?_ ?_
  all_goals rcases h with rfl | rfl
  · decide
  · decide
  · decide +kernel
  · decide +kernel
  · decide +kernel
  · decide +kernel

theorem twoLoops_along : Along twoLoopsCfg 11 fun i => (twoLoopsAt i).1 where
  start := rfl
  step := by
    have hsuccs : ∀ i < 11, (twoLoopsAt (i + 1)).1 ∈ twoLoopsCfg.succs (twoLoopsAt i).1 := by
      decide
    exact hsuccs

/-- With the two copies that are derived, the other loop is cut. -/
theorem twoLoops_cut :
    deriveConstTripUnrollDepth twoLoops = some (twoLoopsUnroll 3).unwindDepth ∧
      Execution twoLoops 11 twoLoopsAt ∧
      (simAt twoLoops (loopsOf twoLoopsCfg twoLoopsHeaders) 11).isSome ∧
      LoopCopy (loopsOf twoLoopsCfg twoLoopsHeaders) twoLoopsCfg some (twoLoopsUnroll 3).lp 3 ∧
      (simulate twoLoops (loopsOf twoLoopsCfg twoLoopsHeaders)).outcome.incomplete 3 = false ∧
      Along twoLoopsCfg 11 (fun i => (twoLoopsAt i).1) ∧
      ¬ Uncut (twoLoopsUnroll 3) 11 fun i => (twoLoopsAt i).1 := by
  refine ⟨twoLoops_depth, twoLoops_execution, by decide +kernel, twoLoops_copy (.inr rfl),
    by decide +kernel, twoLoops_along, fun huncut => ?_⟩
  have hedge := huncut 10 (by decide) (by decide +kernel)
  exact absurd hedge (by decide +kernel)

theorem Along.mono {cfg : Cfg} {n k : ℕ} {x : ℕ → ℕ} (h : Along cfg n x) (hk : k ≤ n) :
    Along cfg k x where
  start := h.start
  step := fun i hi => h.step i (Nat.lt_of_lt_of_le hi hk)

theorem twoLoops_completed :
    (simulate twoLoops (loopsOf twoLoopsCfg twoLoopsHeaders)).Completed 1 where
  complete := by decide +kernel
  capped := by
    have hrun : (simulate twoLoops (loopsOf twoLoopsCfg twoLoopsHeaders)).maxRun 1 = some 2 := by
      decide +kernel
    intro run h
    obtain rfl := Option.some.inj (hrun.symm.trans h)
    decide

theorem deriveConstTripUnrollDepth_exact_twoLoops :
    ∃ st, simAt twoLoops (loopsOf twoLoopsCfg twoLoopsHeaders) 5 = some st ∧ st.bb = 1 ∧
      st.store (1, none) = some (.int u8 (u8.wrap 2)) ∧
      Agrees twoLoops st.store (twoLoopsAt 5).2 ∧
      Uncut (twoLoopsUnroll 1) 5 fun i => (twoLoopsAt i).1 := by
  obtain ⟨headers, hheaders, hexact⟩ :=
    deriveConstTripUnrollDepth_exact twoLoops_valid twoLoops_plain twoLoops_depth
  obtain rfl := twoLoops_headers hheaders
  have hstore : (simAt twoLoops (loopsOf twoLoopsCfg twoLoopsHeaders) 5).map
      (fun st => st.store (1, none)) = some (some (.int u8 (u8.wrap 2))) := by
    decide +kernel
  obtain ⟨st, hst, hstore⟩ := Option.map_eq_some_iff.1 hstore
  obtain ⟨⟨hbb, hagrees⟩, huncut⟩ :=
    hexact 5 twoLoopsAt (twoLoops_execution.mono (by decide)) st hst
  exact ⟨st, hst, hbb.symm, hstore, hagrees, huncut (by decide) twoLoopsCfg some
    (twoLoopsUnroll 1) 1 (twoLoops_copy (.inl rfl)) twoLoops_completed (le_refl 2) _
    (twoLoops_along.mono (by decide)) fun _ _ => rfl⟩

end ConstTrip

end TrustMc
