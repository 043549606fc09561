import TrustMc.Mir.PanicFilter

/-!
# Executions that can only fail

The blocks without a relation are the dead ends (`hasRelation_eq_false_iff`): they lead to no
`Return` and meet no cleanup chain that is retained. Executions in them fail unless they run
forever, are stopped, or leave by an unwind edge of inline assembly, and as far as the terminators
tell they can do so exactly where there is a loop, a terminator that may stop, or such an edge
(`only_fail_iff`).
-/

namespace TrustMc.Mir

open Relation Flow
open LoopUnroll (Mir TerminatorKind UnwindAction predecessorsOf mem_predecessorsOf)

/-! ### Marks -/

section Marks

variable {next : ℕ → List ℕ} {size : ℕ} {seeds : List ℕ}

theorem mem_pushLast (work : List ℕ) (bb x : ℕ) :
    x ∈ pushLast work bb ↔ x ∈ work ∨ (x = bb ∧ True) := by
  rw [pushLast, List.mem_cons, or_comm, and_true]

theorem markFrom_sound {P : ℕ → Prop} (hstep : ∀ v, P v → ∀ w ∈ next v, P w)
    (hseeds : ∀ v ∈ seeds, P v) {v : ℕ} (hv : markFrom next size seeds v = true) : P v := by
  refine search_sound mem_pushLast hstep (fun x hx => ?_) (fun x hx => ?_) hv
  · exact hseeds x ((push_mark.1 hx).resolve_left (by simp))
  · exact hseeds x (((push_work mem_pushLast).1 hx).resolve_left (by simp)).1

theorem markFrom_closed (hnext : ∀ v, ∀ w ∈ next v, w < size) (hseeds : ∀ v ∈ seeds, v < size)
    {v w : ℕ} (hv : markFrom next size seeds v = true) (hw : w ∈ next v) :
    markFrom next size seeds w = true := by
  have hlen : ∀ work bb, (pushLast work bb).length ≤ work.length + 1 := fun _ _ => le_rfl
  have hpot := @push_potential pushLast size hlen (fun _ => false) [] _ hseeds
  have hle := unmarked_le size fun _ => false
  rw [List.length_nil] at hpot
  refine search_closed mem_pushLast hlen hnext (by omega) (fun x hx _ => .inl ?_) hv trivial w hw
  exact (push_work mem_pushLast).2 (.inr ⟨(push_mark.1 hx).resolve_left (by simp), rfl, trivial⟩)

/-- What is marked is what the seeds lead to. -/
theorem markFrom_iff (hnext : ∀ v, ∀ w ∈ next v, w < size) (hseeds : ∀ v ∈ seeds, v < size)
    {v : ℕ} : markFrom next size seeds v = true ↔
      ∃ s ∈ seeds, ReflTransGen (fun v w => w ∈ next v) s v := by
  constructor
  · refine markFrom_sound (P := fun v => ∃ s ∈ seeds, ReflTransGen (fun v w => w ∈ next v) s v)
      (fun x hx w hw => ?_) fun s hs => ⟨s, hs, .refl⟩
    obtain ⟨s, hs, hsx⟩ := hx
    exact ⟨s, hs, hsx.tail hw⟩
  · rintro ⟨s, hs, hsv⟩
    induction hsv with
    | refl => exact search_mono (push_mark.2 (.inr hs))
    | tail _ hw ih => exact markFrom_closed hnext hseeds ih hw

end Marks

section Relations

variable {M : Mir} (body : Blocks M) (facts : CalleeFacts M)

/-! ### Blocks without a relation -/

/-- The edges that the filter sees. -/
def CfgEdge (v w : ℕ) : Prop := w ∈ body.succs v

/-- The block leads to a return, or to a block that a retained cleanup chain leads to as well. -/
def Relevant (v : ℕ) : Prop :=
  (∃ r, ReflTransGen (CfgEdge body) v r ∧ body.blocks[r]? = some .return) ∨
    ∃ c ∈ cleanupSeeds body facts, ∃ w, ReflTransGen (CfgEdge body) c w ∧
      ReflTransGen (CfgEdge body) v w

def DeadEnd (v : ℕ) : Prop := v ≠ 0 ∧ ¬ Relevant body facts v

variable {body facts}

theorem mem_succs {v w : ℕ} :
    w ∈ body.succs v ↔ ∃ kind, body.blocks[v]? = some kind ∧ w ∈ allSuccessors kind := by
  rw [Blocks.succs, Blocks.successors, List.getD_eq_getElem?_getD, List.getElem?_map]
  cases body.blocks[v]? <;> simp

theorem lt_of_mem_succs {v w : ℕ} (h : w ∈ body.succs v) : w < body.size := by
  obtain ⟨kind, hkind, hmem⟩ := mem_succs.1 h
  exact body.target_lt kind (List.mem_of_getElem? hkind) w (List.mem_append_left _ hmem)

theorem lt_of_mem_preds {v w : ℕ} (h : v ∈ body.preds w) : v < body.size := by
  obtain ⟨kind, hkind, -⟩ := mem_succs.1 (mem_predecessorsOf.1 h)
  exact (List.getElem?_eq_some_iff.1 hkind).1

theorem lt_of_mem_cleanupSeeds {c : ℕ} (h : c ∈ cleanupSeeds body facts) : c < body.size := by
  obtain ⟨kind, hkind, hc⟩ := List.mem_flatMap.1 h
  split_ifs at hc
  · exact body.target_lt kind hkind c (List.mem_append_left _ (List.mem_append_right _ hc))
  · cases hc

/-- The search against the edges finds what leads to a seed. -/
theorem reverseReachableFromSeeds_iff {seeds : List ℕ} (hseeds : ∀ s ∈ seeds, s < body.size)
    {v : ℕ} : reverseReachableFromSeeds body seeds v = true ↔
      ∃ s ∈ seeds, ReflTransGen (CfgEdge body) v s := by
  have hpreds : (fun v w => w ∈ body.preds v) = Function.swap (CfgEdge body) := by
    funext v w
    exact propext mem_predecessorsOf
  rw [reverseReachableFromSeeds, markFrom_iff (fun _ _ => lt_of_mem_preds) hseeds, hpreds]
  exact exists_congr fun s => and_congr_right fun _ => reflTransGen_swap

theorem mem_blocksWhere_isReturn {v : ℕ} :
    v ∈ blocksWhere body isReturn ↔ body.blocks[v]? = some .return := by
  have hreturn : ∀ kind : TerminatorKind M, isReturn kind = true ↔ kind = .return := fun kind => by
    cases kind <;> simp [isReturn]
  rw [blocksWhere, List.mem_filter, List.mem_range, Option.any_eq_true]
  constructor
  · rintro ⟨-, kind, hkind, hret⟩
    rw [hkind, (hreturn kind).1 hret]
  · exact fun h => ⟨(List.getElem?_eq_some_iff.1 h).1, _, h, rfl⟩

theorem computeReturnReachableBlocks_iff {v : ℕ} : computeReturnReachableBlocks body v = true ↔
    ∃ r, ReflTransGen (CfgEdge body) v r ∧ body.blocks[r]? = some .return := by
  have hlt : ∀ r ∈ blocksWhere body isReturn, r < body.size :=
    fun r hr => (List.getElem?_eq_some_iff.1 (mem_blocksWhere_isReturn.1 hr)).1
  rw [computeReturnReachableBlocks, reverseReachableFromSeeds_iff hlt]
  exact exists_congr fun r => (and_congr_left' mem_blocksWhere_isReturn).trans and_comm

theorem computeCleanupChainBlocks_iff {v : ℕ} : computeCleanupChainBlocks body facts v = true ↔
    ∃ c ∈ cleanupSeeds body facts, ReflTransGen (CfgEdge body) c v :=
  markFrom_iff (fun _ _ => lt_of_mem_succs) fun _ => lt_of_mem_cleanupSeeds

theorem lt_of_reach {v w : ℕ} (hv : v < body.size) (h : ReflTransGen (CfgEdge body) v w) :
    w < body.size := by
  rcases ReflTransGen.cases_tail h with rfl | ⟨u, -, hmem⟩
  · exact hv
  · exact lt_of_mem_succs hmem

theorem computeCleanupRelevantBlocks_iff {v : ℕ} :
    computeCleanupRelevantBlocks body facts v = true ↔
      ∃ c ∈ cleanupSeeds body facts, ∃ w, ReflTransGen (CfgEdge body) c w ∧
        ReflTransGen (CfgEdge body) v w := by
  have hchain : ∀ w, w ∈ (List.range body.size).filter (computeCleanupChainBlocks body facts) ↔
      w < body.size ∧ ∃ c ∈ cleanupSeeds body facts, ReflTransGen (CfgEdge body) c w := fun w => by
    rw [List.mem_filter, List.mem_range, computeCleanupChainBlocks_iff]
  rw [computeCleanupRelevantBlocks, reverseReachableFromSeeds_iff fun w hw => ((hchain w).1 hw).1]
  constructor
  · rintro ⟨w, hw, hvw⟩
    obtain ⟨-, c, hc, hcw⟩ := (hchain w).1 hw
    exact ⟨c, hc, w, hcw, hvw⟩
  · rintro ⟨c, hc, w, hcw, hvw⟩
    exact ⟨w, (hchain w).2 ⟨lt_of_reach (lt_of_mem_cleanupSeeds hc) hcw, c, hc, hcw⟩, hvw⟩

/-- **The blocks without a relation.** -/
theorem hasRelation_eq_false_iff {v : ℕ} (hv : v < body.size) :
    hasRelation body facts v = false ↔ DeadEnd body facts v := by
  have hretained : retainedBlocks body facts v = true ↔ Relevant body facts v := by
    rw [retainedBlocks, Bool.or_eq_true, computeReturnReachableBlocks_iff,
      computeCleanupRelevantBlocks_iff]
    rfl
  rw [DeadEnd, ← hretained, hasRelation]
  simp [hv, and_comm]

/-- What leads to a relevant block is relevant. -/
theorem Relevant.head {v w : ℕ} (h : CfgEdge body v w) (hw : Relevant body facts w) :
    Relevant body facts v := by
  rcases hw with ⟨r, hwr, hr⟩ | ⟨c, hc, x, hcx, hwx⟩
  · exact .inl ⟨r, hwr.head h, hr⟩
  · exact .inr ⟨c, hc, x, hcx, hwx.head h⟩

theorem DeadEnd.of_edge {v w : ℕ} (h : CfgEdge body v w) (hv : DeadEnd body facts v) :
    DeadEnd body facts w := by
  refine ⟨?_, fun hw => hv.2 (hw.head h)⟩
  rintro rfl
  obtain ⟨kind, hkind, hmem⟩ := mem_succs.1 h
  exact body.entry_notMem kind (List.mem_of_getElem? hkind) (List.mem_append_left _ hmem)

end Relations

/-! ### Executions -/

/-- What a block does from a state. -/
inductive Outcome (S : Type)
  | goto (bb : ℕ) (s : S)
  | returned
  /-- A panic or undefined behaviour. -/
  | failed
  /-- An assumption that does not hold, the end of the process, or a callee that never returns. -/
  | stopped

section Executions

variable {M : Mir} (body : Blocks M) (mayStop : TerminatorKind M → Prop)

/-- Control may pass from one block to the other. -/
def MirEdge (v w : ℕ) : Prop :=
  ∃ kind, body.blocks[v]? = some kind ∧ w ∈ allSuccessors kind ++ asmCleanup kind

/-- Control may pass without unwinding. -/
def NormalEdge (v w : ℕ) : Prop := ∃ kind, body.blocks[v]? = some kind ∧ w ∈ kind.targets

/-- A block that is reached without unwinding. -/
def NonCleanup (v : ℕ) : Prop := ReflTransGen (NormalEdge body) 0 v

/-- The executions of a body with these terminators: what its blocks may do from which states.
An execution may stop at the terminators that `mayStop` names. -/
structure Program where
  State : Type
  step : ℕ → State → Outcome State → Prop
  step_goto : ∀ {v s w s'}, step v s (.goto w s') → MirEdge body v w
  step_returned : ∀ {v s}, step v s .returned → body.blocks[v]? = some .return
  step_stopped : ∀ {v s}, step v s .stopped → ∃ kind, body.blocks[v]? = some kind ∧ mayStop kind
  /-- Every block does something. -/
  progress : ∀ v s, v < body.size → ∃ o, step v s o

variable {body mayStop} (facts : CalleeFacts M)

/-- Blocks and states of an execution, one after the other. -/
def Program.Step (P : Program body mayStop) (x y : ℕ × P.State) : Prop :=
  P.step x.1 x.2 (.goto y.1 y.2)

/-- Every execution from here ends with a failure, and reaches no block with a relation. -/
def Program.CanOnlyFail (P : Program body mayStop) (x : ℕ × P.State) : Prop :=
  ¬ RunsForever P.Step x ∧ ∀ y, ReflTransGen P.Step x y → hasRelation body facts y.1 = false ∧
    ∀ o, P.step y.1 y.2 o → o = .failed ∨ ∃ w s, o = .goto w s

variable (body mayStop)

/-- Every execution that enters a block whose edges lead to error, from a block that is no cleanup
block, can only fail. -/
def OnlyFail : Prop :=
  ∀ (P : Program body mayStop) (s : P.State) (x y : ℕ × P.State), ReflTransGen P.Step (0, s) x →
    NonCleanup body x.1 → P.Step x y → emitGotoRule body facts y.1 = .error → P.CanOnlyFail facts y

/-- The blocks without a relation that a non-cleanup block leads to reach no loop, no terminator
that may stop, and no inline assembly that unwinds to a block with a relation. -/
def NoWayOut : Prop :=
  ∀ u v, NonCleanup body u → MirEdge body u v → DeadEnd body facts v →
    ∀ w, ReflTransGen (MirEdge body) v w → ¬ TransGen (MirEdge body) w w ∧
      ∀ kind, body.blocks[w]? = some kind → ¬ mayStop kind ∧
        ∀ c ∈ asmCleanup kind, DeadEnd body facts c

variable {body mayStop facts}

theorem emitGotoRule_eq_error_iff {v : ℕ} :
    emitGotoRule body facts v = .error ↔ hasRelation body facts v = false := by
  rw [emitGotoRule]
  split_ifs with h <;> simp [h]

theorem NormalEdge.mirEdge {v w : ℕ} (h : NormalEdge body v w) : MirEdge body v w := by
  obtain ⟨kind, hkind, hmem⟩ := h
  exact ⟨kind, hkind, List.mem_append_left _ (List.mem_append_left _ hmem)⟩

theorem finite_reach (v : ℕ) : {w | ReflTransGen (MirEdge body) v w}.Finite := by
  refine ((Set.finite_lt_nat body.size).insert v).subset fun w hw => ?_
  rcases ReflTransGen.cases_tail hw with rfl | ⟨u, -, kind, hkind, hmem⟩
  · exact Set.mem_insert _ _
  · exact Set.mem_insert_of_mem _ (body.target_lt kind (List.mem_of_getElem? hkind) w hmem)

/-- The program that may do whatever the terminators allow. -/
def anyProgram (body : Blocks M) (mayStop : TerminatorKind M → Prop) : Program body mayStop where
  State := Unit
  step v _ o :=
    match o with
    | .goto w _ => MirEdge body v w
    | .returned => body.blocks[v]? = some .return
    | .failed => True
    | .stopped => ∃ kind, body.blocks[v]? = some kind ∧ mayStop kind
  step_goto h := h
  step_returned h := h
  step_stopped h := h
  progress _ _ _ := ⟨.failed, trivial⟩

theorem reach_anyProgram (mayStop : TerminatorKind M → Prop) {v w : ℕ}
    (h : ReflTransGen (MirEdge body) v w) :
    ReflTransGen (anyProgram body mayStop).Step (v, ()) (w, ()) :=
  ReflTransGen.lift (fun v => (v, ())) (fun _ _ h => h) _ _ h

theorem MirEdge.lt {v w : ℕ} (h : MirEdge body v w) : w < body.size := by
  obtain ⟨kind, hkind, hmem⟩ := h
  exact body.target_lt kind (List.mem_of_getElem? hkind) w hmem

/-- Without a way out, a dead end leads to dead ends. -/
theorem DeadEnd.of_reach {v w : ℕ}
    (hasm : ∀ w, ReflTransGen (MirEdge body) v w → ∀ kind, body.blocks[w]? = some kind →
      ∀ c ∈ asmCleanup kind, DeadEnd body facts c)
    (hv : DeadEnd body facts v) (h : ReflTransGen (MirEdge body) v w) : DeadEnd body facts w := by
  induction h with
  | refl => exact hv
  | tail hreach hedge ih =>
    obtain ⟨kind, hkind, hmem⟩ := hedge
    rcases List.mem_append.1 hmem with hmem | hmem
    · exact ih.of_edge (mem_succs.2 ⟨kind, hkind, hmem⟩)
    · exact hasm _ hreach kind hkind _ hmem

theorem DeadEnd.not_return {v : ℕ} (h : DeadEnd body facts v) : body.blocks[v]? ≠ some .return :=
  fun hret => h.2 (.inl ⟨v, .refl, hret⟩)

/-- Where every execution can only fail, there is no way out: the program that may do whatever the
terminators allow would take it. -/
theorem noWayOut_of_onlyFail (hfail : OnlyFail body mayStop facts) :
    NoWayOut body mayStop facts := by
  intro u v hu huv hv w hvw
  have hedges : ReflTransGen (MirEdge body) 0 u :=
    ReflTransGen.mono (fun _ _ h => h.mirEdge) _ _ hu
  have hreach := reach_anyProgram mayStop hedges
  have herror : emitGotoRule body facts v = .error :=
    emitGotoRule_eq_error_iff.2 ((hasRelation_eq_false_iff huv.lt).2 hv)
  obtain ⟨hends, hall⟩ :=
    hfail (anyProgram body mayStop) () (u, ()) (v, ()) hreach hu huv herror
  have hvw' := reach_anyProgram mayStop hvw
  refine ⟨fun hcycle => hends ?_, fun kind hkind => ⟨fun hstop => ?_, fun c hc => ?_⟩⟩
  · have hforever := (runsForever_of_cycle hcycle).of_reach hvw
    exact hforever.map (S := (anyProgram body mayStop).Step) (fun v => (v, ())) fun _ _ h => h
  · rcases (hall _ hvw').2 .stopped ⟨kind, hkind, hstop⟩ with h | ⟨w', s, h⟩ <;> cases h
  · have hwc : MirEdge body w c := ⟨kind, hkind, List.mem_append_right _ hc⟩
    exact (hasRelation_eq_false_iff hwc.lt).1 (hall (c, ()) (hvw'.tail hwc)).1

theorem onlyFail_of_noWayOut (hout : NoWayOut body mayStop facts) :
    OnlyFail body mayStop facts := by
  intro P s x y _ hx hxy hy
  have hv : DeadEnd body facts y.1 :=
    (hasRelation_eq_false_iff (P.step_goto hxy).lt).1 (emitGotoRule_eq_error_iff.1 hy)
  have hway := hout x.1 y.1 hx (P.step_goto hxy) hv
  have hproj : ∀ z z' : ℕ × P.State, P.Step z z' → MirEdge body z.1 z'.1 :=
    fun _ _ h => P.step_goto h
  refine ⟨fun hforever => ?_, fun z hz => ?_⟩
  · obtain ⟨w, hvw, hcycle⟩ :=
      (runsForever_iff_cycle (finite_reach y.1)).1 (hforever.map Prod.fst hproj)
    exact (hway w hvw).1 hcycle
  · have hyz : ReflTransGen (MirEdge body) y.1 z.1 := ReflTransGen.lift Prod.fst hproj _ _ hz
    have hdead := hv.of_reach (fun w hw kind hkind => ((hway w hw).2 kind hkind).2) hyz
    have hlt : z.1 < body.size := by
      rcases ReflTransGen.cases_tail hyz with h | ⟨u, -, hedge⟩
      · exact h ▸ (P.step_goto hxy).lt
      · exact hedge.lt
    refine ⟨(hasRelation_eq_false_iff hlt).2 hdead, fun o ho => ?_⟩
    cases o with
    | goto w s' => exact .inr ⟨w, s', rfl⟩
    | failed => exact .inl rfl
    | returned => exact absurd (P.step_returned ho) hdead.not_return
    | stopped =>
      obtain ⟨kind, hkind, hstop⟩ := P.step_stopped ho
      exact absurd hstop ((hway z.1 hyz).2 kind hkind).1

/-- **Blocks without a relation.** Every execution of every body with these terminators that enters
a block without a relation can only fail, if and only if there is no way out. -/
theorem only_fail_iff : OnlyFail body mayStop facts ↔ NoWayOut body mayStop facts :=
  ⟨noWayOut_of_onlyFail, onlyFail_of_noWayOut⟩

end Executions

/-! ### A loop -/

def unitMir : Mir where
  Operand := Unit
  Place := Unit
  AssertMessage := Unit
  InlineAsm := Unit
  Statement := Unit
  Span := Unit

/-- `if c { loop {} }`. -/
def spinBody : Blocks unitMir where
  blocks := [.switchInt () [(0, 2)] 1, .goto 1, .return]
  target_lt := by decide
  entry_notMem := by decide

/-- No callee is known. -/
def noFacts : CalleeFacts unitMir where
  triviallyNoDrop _ := none
  isDropImpl _ := false
  definitelySuppressesCallCleanup _ _ := false
  callEmitsDirectError _ := false

/-- **A loop is turned into an error.** The branch into the loop is emitted as an edge to error, and
an execution that takes it runs forever. -/
theorem loop_emits_error :
    emitGotoRule spinBody noFacts 1 = .error ∧ ¬ OnlyFail spinBody (fun _ => False) noFacts := by
  have herror : emitGotoRule spinBody noFacts 1 = .error := by decide
  refine ⟨herror, fun hfail => ?_⟩
  have henter : MirEdge spinBody 0 1 := ⟨_, rfl, by decide⟩
  have hspin : MirEdge spinBody 1 1 := ⟨_, rfl, by decide⟩
  obtain ⟨hends, -⟩ := hfail (anyProgram spinBody _) () (0, ()) (1, ()) .refl .refl henter herror
  exact hends (runsForever_of_cycle (.single hspin))

end TrustMc.Mir
