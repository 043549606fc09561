import TrustMc.LoopUnroll.Dominators
import TrustMc.Flow.Semidominator

/-!
# The numbering walk is a numbered search tree

`WalkInv` is the invariant of the walk: the stack holds the discovered blocks without a number,
their parents lie on one tree path, and no block on the stack hangs below a block whose subtree
was left. `numbering_inv` carries it to the end of the walk, where the stack is empty, and
`Walk.searchTree` reads the arrays as a numbered search tree. Its late edges are the edges
`v → w` whose target waits on the stack when `v` is visited.
-/

namespace TrustMc.LoopUnroll

namespace Walk

/-- `u` is the parent of `v`. -/
def Tree (s : Walk) (u v : ℕ) : Prop := s.parent v = some u

def Anc (s : Walk) (u v : ℕ) : Prop := Relation.ReflTransGen s.Tree u v

/-- The successors discovered by a visit. -/
structure Discovers (n v : ℕ) (l : List ℕ) (s s' : Walk) (new : List ℕ) : Prop where
  nodup : new.Nodup
  mem : ∀ x, x ∈ new ↔ x ∈ l ∧ x < n ∧ s.discovered x = false
  stack : s'.stack = new ++ s.stack
  discovered : ∀ x, s'.discovered x = true ↔ s.discovered x = true ∨ x ∈ new
  parent_new : ∀ x ∈ new, s'.parent x = some v
  parent_old : ∀ x, x ∉ new → s'.parent x = s.parent x
  dfsNum : s'.dfsNum = s.dfsNum
  vertex : s'.vertex = s.vertex
  dfsCount : s'.dfsCount = s.dfsCount

theorem foldl_discover (n v : ℕ) (l : List ℕ) (s : Walk) :
    ∃ new, Discovers n v l s (l.foldl (discover n v) s) new := by
  induction l generalizing s with
  | nil => exact ⟨[], by simp, by simp, by simp, by simp, by simp, by simp, rfl, rfl, rfl⟩
  | cons w l ih =>
    rw [List.foldl_cons]
    obtain ⟨new, h⟩ := ih (discover n v s w)
    by_cases hw : (decide (w < n) && !s.discovered w) = true
    · have hs : discover n v s w = { s with
          discovered := Function.update s.discovered w true
          parent := Function.update s.parent w (some v)
          stack := w :: s.stack } := if_pos hw
      simp only [Bool.and_eq_true, decide_eq_true_eq, Bool.not_eq_true'] at hw
      rw [hs] at h ⊢
      have hmem : ∀ x, x ∈ new ↔ x ∈ l ∧ x < n ∧ Function.update s.discovered w true x = false :=
        h.mem
      have hwnew : w ∉ new := by simp [hmem]
      refine ⟨new ++ [w], ?_, fun x => ?_, ?_, fun x => ?_, fun x hx => ?_, fun x hx => ?_,
        h.dfsNum, h.vertex, h.dfsCount⟩
      · refine List.nodup_append.2 ⟨h.nodup, by simp, fun x hx y hy hxy => hwnew ?_⟩
        obtain rfl : y = w := by simpa using hy
        exact hxy ▸ hx
      · by_cases hxw : x = w
        · subst hxw
          simp [hw]
        · simp [hmem, hxw]
      · simp [h.stack]
      · rw [h.discovered]
        by_cases hxw : x = w
        · simp [hxw]
        · simp [hxw]
      · rcases List.mem_append.1 hx with hx | hx
        · exact h.parent_new x hx
        · obtain rfl : x = w := by simpa using hx
          rw [h.parent_old x hwnew]
          simp
      · rw [List.mem_append, not_or] at hx
        have hxw : x ≠ w := by simpa using hx.2
        rw [h.parent_old x hx.1]
        simp [hxw]
    · have hs : discover n v s w = s := if_neg hw
      rw [hs] at h ⊢
      refine ⟨new, h.nodup, fun x => ?_, h.stack, h.discovered, h.parent_new, h.parent_old,
        h.dfsNum, h.vertex, h.dfsCount⟩
      rw [h.mem, List.mem_cons]
      refine ⟨fun hx => ⟨.inr hx.1, hx.2⟩, fun hx => ⟨hx.1.resolve_left ?_, hx.2⟩⟩
      rintro rfl
      simp [hx.2] at hw

/-- A visit discovers as many blocks as it pushes. -/
theorem foldl_discover_potential (n v : ℕ) (l : List ℕ) (s : Walk) :
    Flow.unmarked n (l.foldl (discover n v) s).discovered +
        (l.foldl (discover n v) s).stack.length =
      Flow.unmarked n s.discovered + s.stack.length := by
  induction l generalizing s with
  | nil => rfl
  | cons w l ih =>
    rw [List.foldl_cons, ih]
    by_cases hw : (decide (w < n) && !s.discovered w) = true
    · have hs : discover n v s w = { s with
          discovered := Function.update s.discovered w true
          parent := Function.update s.parent w (some v)
          stack := w :: s.stack } := if_pos hw
      simp only [Bool.and_eq_true, decide_eq_true_eq, Bool.not_eq_true'] at hw
      have := Flow.unmarked_update hw.1 hw.2
      simp only [hs, List.length_cons]
      omega
    · rw [show discover n v s w = s from if_neg hw]

end Walk

/-- The invariant of the walk. -/
structure WalkInv (cfg : Cfg) (s : Walk) : Prop where
  entry : s.discovered 0 = true
  entry_num : s.dfsNum 0 = some 0 ∨ (s.stack = [0] ∧ s.dfsCount = 0)
  disc_lt : ∀ {v}, s.discovered v = true → v < cfg.size
  disc_iff : ∀ {v}, s.discovered v = true ↔ (∃ i, s.dfsNum v = some i) ∨ v ∈ s.stack
  stack_nodup : s.stack.Nodup
  stack_fresh : ∀ {v}, v ∈ s.stack → s.dfsNum v = none
  vertex_iff : ∀ {v i}, s.vertex i = some v ↔ s.dfsNum v = some i
  num_lt : ∀ {v i}, s.dfsNum v = some i → i < s.dfsCount
  num_ex : ∀ {i}, i < s.dfsCount → ∃ v, s.dfsNum v = some i
  parent_entry : s.parent 0 = none
  parent_ex : ∀ {v}, s.discovered v = true → v ≠ 0 → ∃ u, s.parent v = some u
  parent_num : ∀ {u v}, s.parent v = some u → s.discovered v = true ∧ cfg.Edge u v ∧
    ∃ i, s.dfsNum u = some i ∧ ∀ j, s.dfsNum v = some j → i < j
  /-- The parents of the blocks on the stack lie on one tree path, the deepest on top. -/
  chain : s.stack.Pairwise fun a b => ∀ q, s.parent b = some q →
    ∃ p, s.parent a = some p ∧ s.Anc q p
  /-- Below a block whose subtree was left, no block waits. -/
  closed : ∀ {u w i j}, s.dfsNum u = some i → s.dfsNum w = some j → i < j → ¬ s.Anc u w →
    ∀ x ∈ s.stack, ¬ s.Anc u x
  interval : ∀ {u w v i j k}, s.dfsNum u = some i → s.dfsNum w = some j → s.dfsNum v = some k →
    i ≤ j → j ≤ k → s.Anc u v → s.Anc u w
  edges : ∀ {v w i}, s.dfsNum v = some i → cfg.Edge v w → s.discovered w = true ∧
    ((∃ j, s.dfsNum w = some j ∧ j ≤ i) ∨ s.Anc v w ∨
      ∃ u k, s.parent w = some u ∧ s.dfsNum u = some k ∧ k < i)

namespace WalkInv

variable {cfg : Cfg} {s : Walk}

theorem start (h : 0 < cfg.size) : WalkInv cfg Walk.start where
  entry := rfl
  entry_num := .inr ⟨rfl, rfl⟩
  disc_lt hv := by
    obtain rfl : _ = 0 := by simpa [Walk.start] using hv
    exact h
  disc_iff := by simp [Walk.start]
  stack_nodup := by simp [Walk.start]
  stack_fresh _ := rfl
  vertex_iff := by simp [Walk.start]
  num_lt hv := by simp [Walk.start] at hv
  num_ex hi := by simp [Walk.start] at hi
  parent_entry := rfl
  parent_ex hv hne := absurd (by simpa [Walk.start] using hv) hne
  parent_num hv := by simp [Walk.start] at hv
  chain := by simp [Walk.start]
  closed hu := by simp [Walk.start] at hu
  interval hu := by simp [Walk.start] at hu
  edges hv := by simp [Walk.start] at hv

/-- The parts of a state after the visit of `v`, the top of the stack. -/
structure Visits (cfg : Cfg) (s : Walk) (v : ℕ) (st : List ℕ) (s' : Walk) (new : List ℕ) :
    Prop where
  stack : s.stack = v :: st
  mem : ∀ {x}, x ∈ new ↔ cfg.Edge v x ∧ x < cfg.size ∧ s.discovered x = false
  nodup : new.Nodup
  stack' : s'.stack = new ++ st
  discovered : ∀ {x}, s'.discovered x = true ↔ s.discovered x = true ∨ x ∈ new
  parent_new : ∀ {x}, x ∈ new → s'.parent x = some v
  parent_old : ∀ {x}, s.discovered x = true → s'.parent x = s.parent x
  parent_none : ∀ {x}, x ∉ new → s'.parent x = s.parent x
  num_self : s'.dfsNum v = some s.dfsCount
  num_old : ∀ {x}, x ≠ v → s'.dfsNum x = s.dfsNum x
  vertex : s'.vertex = Function.update s.vertex s.dfsCount (some v)
  count : s'.dfsCount = s.dfsCount + 1

theorem visits (h : WalkInv cfg s) {v : ℕ} {st : List ℕ} (hs : s.stack = v :: st) :
    ∃ new, Visits cfg s v st (Walk.visit cfg { s with stack := st } v) new := by
  have hv : s.dfsNum v = none := h.stack_fresh (by simp [hs])
  obtain ⟨new, hd⟩ := Walk.foldl_discover cfg.size v (cfg.succs v)
    { s with
      stack := st
      dfsNum := Function.update s.dfsNum v (some s.dfsCount)
      vertex := Function.update s.vertex s.dfsCount (some v)
      dfsCount := s.dfsCount + 1 }
  have hvisit : Walk.visit cfg { s with stack := st } v = (cfg.succs v).foldl
      (Walk.discover cfg.size v)
      { s with
        stack := st
        dfsNum := Function.update s.dfsNum v (some s.dfsCount)
        vertex := Function.update s.vertex s.dfsCount (some v)
        dfsCount := s.dfsCount + 1 } := by
    rw [Walk.visit, if_neg (by simp [hv])]
  rw [← hvisit] at hd
  refine ⟨new, hs, hd.mem _, hd.nodup, hd.stack, hd.discovered _, hd.parent_new _, fun hx => ?_,
    hd.parent_old _, ?_, fun hx => ?_, hd.vertex, hd.dfsCount⟩
  · refine hd.parent_old _ fun hnew => ?_
    have hf : s.discovered _ = false := ((hd.mem _).1 hnew).2.2
    simp [hf] at hx
  · simp [hd.dfsNum]
  · simp [hd.dfsNum, hx]

section Visit

variable {v : ℕ} {st new : List ℕ} {s' : Walk}

/-- A numbered block was discovered, and so was its parent. -/
theorem parent_disc (h : WalkInv cfg s) {u x : ℕ} (hp : s.parent x = some u) :
    s.discovered u = true := by
  obtain ⟨-, -, i, hi, -⟩ := h.parent_num hp
  exact h.disc_iff.2 (.inl ⟨i, hi⟩)

/-- The visit keeps the ancestors of the blocks discovered before. -/
theorem anc_old (h : WalkInv cfg s) (hv : Visits cfg s v st s' new) {u x : ℕ}
    (hx : s.discovered x = true) : s'.Anc u x ↔ s.Anc u x := by
  constructor
  · intro hanc
    induction hanc with
    | refl => exact .refl
    | @tail p x _ hpx ih =>
      have hp : s.parent x = some p := by
        rw [← hv.parent_old hx]
        exact hpx
      exact (ih (h.parent_disc hp)).tail hp
  · intro hanc
    induction hanc with
    | refl => exact .refl
    | @tail p x _ hpx ih =>
      refine (ih (h.parent_disc hpx)).tail ?_
      show s'.parent x = some p
      rw [hv.parent_old hx]
      exact hpx

theorem disc_self (h : WalkInv cfg s) (hv : Visits cfg s v st s' new) :
    s.discovered v = true := h.disc_iff.2 (.inr (by simp [hv.stack]))

/-- The discovered blocks hang below the visited one. -/
theorem anc_new (h : WalkInv cfg s) (hv : Visits cfg s v st s' new) {u x : ℕ} (hx : x ∈ new) :
    s'.Anc u x ↔ u = x ∨ s.Anc u v := by
  have hpx : s'.parent x = some v := hv.parent_new hx
  rw [← anc_old h hv (disc_self h hv)]
  constructor
  · intro hanc
    rcases Relation.ReflTransGen.cases_tail hanc with rfl | ⟨p, hup, hp⟩
    · exact .inl rfl
    · obtain rfl : v = p := Option.some.inj (hpx.symm.trans hp)
      exact .inr hup
  · rintro (rfl | hanc)
    · exact .refl
    · exact hanc.tail hpx

/-- The parent of the visited block is an ancestor of the parents of the blocks below the top:
every ancestor of a waiting block, other than itself, is an ancestor of `v`. -/
theorem anc_of_waiting (h : WalkInv cfg s) (hv : Visits cfg s v st s' new) {u x : ℕ}
    (hx : x ∈ st) (hanc : s.Anc u x) : u = x ∨ s.Anc u v := by
  rcases Relation.ReflTransGen.cases_tail hanc with rfl | ⟨q, huq, hq⟩
  · exact .inl rfl
  · have hchain := h.chain
    rw [hv.stack, List.pairwise_cons] at hchain
    obtain ⟨p, hp, hqp⟩ := hchain.1 x hx q hq
    exact .inr ((huq.trans hqp).tail hp)

theorem fresh_self (h : WalkInv cfg s) (hv : Visits cfg s v st s' new) : s.dfsNum v = none :=
  h.stack_fresh (by simp [hv.stack])

/-- The numbers after the visit. -/
theorem num_iff (h : WalkInv cfg s) (hv : Visits cfg s v st s' new) {x i : ℕ} :
    s'.dfsNum x = some i ↔ (x = v ∧ i = s.dfsCount) ∨ s.dfsNum x = some i := by
  by_cases hx : x = v
  · subst hx
    simp [hv.num_self, fresh_self h hv, eq_comm]
  · simp [hv.num_old hx, hx]

theorem disc_of_num (h : WalkInv cfg s) (hv : Visits cfg s v st s' new) {x i : ℕ}
    (hx : s'.dfsNum x = some i) : s.discovered x = true := by
  rcases (num_iff h hv).1 hx with ⟨rfl, -⟩ | hx
  · exact disc_self h hv
  · exact h.disc_iff.2 (.inl ⟨i, hx⟩)

theorem not_new (hv : Visits cfg s v st s' new) {x : ℕ} (hx : s.discovered x = true) :
    x ∉ new := by
  intro hnew
  simp [(hv.mem.1 hnew).2.2] at hx

theorem disc_of_waiting (h : WalkInv cfg s) (hv : Visits cfg s v st s' new) {x : ℕ}
    (hx : x ∈ st) : s.discovered x = true := h.disc_iff.2 (.inr (by simp [hv.stack, hx]))

theorem waiting_ne (h : WalkInv cfg s) (hv : Visits cfg s v st s' new) {x : ℕ} (hx : x ∈ st) :
    x ≠ v := by
  rintro rfl
  have hnodup := h.stack_nodup
  rw [hv.stack, List.nodup_cons] at hnodup
  exact hnodup.1 hx

/-- Two blocks of one number are one block. -/
theorem num_inj (h : WalkInv cfg s) {x y i : ℕ} (hx : s.dfsNum x = some i)
    (hy : s.dfsNum y = some i) : x = y :=
  Option.some.inj ((h.vertex_iff.2 hx).symm.trans (h.vertex_iff.2 hy))

theorem step_chain (h : WalkInv cfg s) (hv : Visits cfg s v st s' new) :
    s'.stack.Pairwise fun a b => ∀ q, s'.parent b = some q →
      ∃ p, s'.parent a = some p ∧ s'.Anc q p := by
  have hchain := h.chain
  rw [hv.stack, List.pairwise_cons] at hchain
  rw [hv.stack', List.pairwise_append]
  refine ⟨?_, ?_, fun a ha b hb q hq => ?_⟩
  · refine hv.nodup.imp_of_mem fun {a b} ha hb _ q hq => ⟨v, hv.parent_new ha, ?_⟩
    obtain rfl : v = q := Option.some.inj ((hv.parent_new hb).symm.trans hq)
    exact .refl
  · refine hchain.2.imp_of_mem fun {a b} ha hb hab q hq => ?_
    rw [hv.parent_old (disc_of_waiting h hv hb)] at hq
    obtain ⟨p, hp, hqp⟩ := hab q hq
    refine ⟨p, ?_, (anc_old h hv (h.parent_disc hp)).2 hqp⟩
    rw [hv.parent_old (disc_of_waiting h hv ha), hp]
  · rw [hv.parent_old (disc_of_waiting h hv hb)] at hq
    obtain ⟨p, hp, hqp⟩ := hchain.1 b hb q hq
    have hqv : s.Anc q v := hqp.tail hp
    exact ⟨v, hv.parent_new ha, (anc_old h hv (disc_self h hv)).2 hqv⟩

theorem step_closed (h : WalkInv cfg s) (hv : Visits cfg s v st s' new) {u w i j : ℕ}
    (hu : s'.dfsNum u = some i) (hw : s'.dfsNum w = some j) (hij : i < j)
    (hanc : ¬ s'.Anc u w) : ∀ x ∈ s'.stack, ¬ s'.Anc u x := by
  rw [anc_old h hv (disc_of_num h hv hw)] at hanc
  have hdu := disc_of_num h hv hu
  -- `u` was numbered before, and nothing new hangs below it
  have hu' : s.dfsNum u = some i := by
    rcases (num_iff h hv).1 hu with ⟨rfl, rfl⟩ | hu'
    · rcases (num_iff h hv).1 hw with ⟨-, rfl⟩ | hw'
      · omega
      · have := h.num_lt hw'
        omega
    · exact hu'
  have huv : ¬ s.Anc u v := by
    rcases (num_iff h hv).1 hw with ⟨rfl, -⟩ | hw'
    · exact hanc
    · exact h.closed hu' hw' hij hanc v (by simp [hv.stack])
  intro x hx hux
  rw [hv.stack', List.mem_append] at hx
  rcases hx with hx | hx
  · rcases (anc_new h hv hx).1 hux with rfl | hux
    · exact not_new hv hdu hx
    · exact huv hux
  · rw [anc_old h hv (disc_of_waiting h hv hx)] at hux
    rcases anc_of_waiting h hv hx hux with rfl | hux
    · have := h.stack_fresh (v := u) (by simp [hv.stack, hx])
      simp [hu'] at this
    · exact huv hux

theorem step_interval (h : WalkInv cfg s) (hv : Visits cfg s v st s' new) {u w x i j k : ℕ}
    (hu : s'.dfsNum u = some i) (hw : s'.dfsNum w = some j) (hx : s'.dfsNum x = some k)
    (hij : i ≤ j) (hjk : j ≤ k) (hux : s'.Anc u x) : s'.Anc u w := by
  rw [anc_old h hv (disc_of_num h hv hx)] at hux
  rw [anc_old h hv (disc_of_num h hv hw)]
  have hlt : ∀ {y n}, s.dfsNum y = some n → n < s.dfsCount := fun hy => h.num_lt hy
  rcases (num_iff h hv).1 hw with ⟨rfl, rfl⟩ | hw'
  · -- only the visited block has the last number
    rcases (num_iff h hv).1 hx with ⟨rfl, -⟩ | hx'
    · exact hux
    · have := hlt hx'
      omega
  have hu' : s.dfsNum u = some i := by
    rcases (num_iff h hv).1 hu with ⟨rfl, rfl⟩ | hu'
    · have := hlt hw'
      omega
    · exact hu'
  rcases (num_iff h hv).1 hx with ⟨rfl, rfl⟩ | hx'
  · by_contra hanc
    have hne : i ≠ j := by
      rintro rfl
      obtain rfl := num_inj h hu' hw'
      exact hanc .refl
    exact h.closed hu' hw' (by omega) hanc x (by simp [hv.stack]) hux
  · exact h.interval hu' hw' hx' hij hjk hux

theorem step_edges (h : WalkInv cfg s) (hcfg : cfg.WellFormed)
    (hv : Visits cfg s v st s' new) {x w i : ℕ} (hx : s'.dfsNum x = some i)
    (hE : cfg.Edge x w) : s'.discovered w = true ∧
      ((∃ j, s'.dfsNum w = some j ∧ j ≤ i) ∨ s'.Anc x w ∨
        ∃ u k, s'.parent w = some u ∧ s'.dfsNum u = some k ∧ k < i) := by
  rcases (num_iff h hv).1 hx with ⟨rfl, rfl⟩ | hx'
  · by_cases hw : s.discovered w = true
    · refine ⟨hv.discovered.2 (.inl hw), ?_⟩
      rcases h.disc_iff.1 hw with ⟨j, hj⟩ | hstack
      · exact .inl ⟨j, (num_iff h hv).2 (.inr hj), Nat.le_of_lt (h.num_lt hj)⟩
      · rw [hv.stack, List.mem_cons] at hstack
        rcases hstack with rfl | hst
        · exact .inr (.inl .refl)
        · -- the target waits on the stack: its parent came before `x`
          have hw0 : w ≠ 0 := by
            rintro rfl
            rcases h.entry_num with h0 | ⟨h0, -⟩
            · have := h.stack_fresh (v := 0) (by simp [hv.stack, hst])
              simp [h0] at this
            · rw [hv.stack, List.cons.injEq] at h0
              simp [h0.2] at hst
          obtain ⟨u, hu⟩ := h.parent_ex hw hw0
          obtain ⟨-, -, k, hk, -⟩ := h.parent_num hu
          refine .inr (.inr ⟨u, k, ?_, (num_iff h hv).2 (.inr hk), h.num_lt hk⟩)
          rw [hv.parent_old hw, hu]
    · have hnew : w ∈ new := hv.mem.2 ⟨hE, hcfg.lt_of_edge hE, by simpa using hw⟩
      exact ⟨hv.discovered.2 (.inr hnew), .inr (.inl ((anc_new h hv hnew).2 (.inr .refl)))⟩
  · obtain ⟨hw, hcase⟩ := h.edges hx' hE
    refine ⟨hv.discovered.2 (.inl hw), ?_⟩
    rcases hcase with ⟨j, hj, hji⟩ | hanc | ⟨u, k, hu, hk, hki⟩
    · exact .inl ⟨j, (num_iff h hv).2 (.inr hj), hji⟩
    · exact .inr (.inl ((anc_old h hv hw).2 hanc))
    · refine .inr (.inr ⟨u, k, ?_, (num_iff h hv).2 (.inr hk), hki⟩)
      rw [hv.parent_old hw, hu]

/-- **One visit keeps the invariant.** -/
theorem step (h : WalkInv cfg s) (hcfg : cfg.WellFormed) (hv : Visits cfg s v st s' new) :
    WalkInv cfg s' where
  entry := hv.discovered.2 (.inl h.entry)
  entry_num := by
    rcases h.entry_num with h0 | ⟨h0, hc⟩
    · exact .inl ((num_iff h hv).2 (.inr h0))
    · rw [hv.stack, List.cons.injEq] at h0
      exact .inl ((num_iff h hv).2 (.inl ⟨h0.1.symm, hc.symm⟩))
  disc_lt := fun {x} hx => by
    rcases hv.discovered.1 hx with hx | hx
    · exact h.disc_lt hx
    · exact (hv.mem.1 hx).2.1
  disc_iff := fun {x} => by
    rw [hv.discovered, h.disc_iff, hv.stack, hv.stack']
    simp only [num_iff h hv, List.mem_cons, List.mem_append]
    constructor
    · rintro ((⟨i, hi⟩ | rfl | hx) | hx)
      · exact .inl ⟨i, .inr hi⟩
      · exact .inl ⟨_, .inl ⟨rfl, rfl⟩⟩
      · exact .inr (.inr hx)
      · exact .inr (.inl hx)
    · rintro (⟨i, ⟨rfl, -⟩ | hi⟩ | hx | hx)
      · exact .inl (.inr (.inl rfl))
      · exact .inl (.inl ⟨i, hi⟩)
      · exact .inr hx
      · exact .inl (.inr (.inr hx))
  stack_nodup := by
    have hnodup := h.stack_nodup
    rw [hv.stack, List.nodup_cons] at hnodup
    rw [hv.stack', List.nodup_append]
    refine ⟨hv.nodup, hnodup.2, fun x hx y hy hxy => ?_⟩
    subst hxy
    exact not_new hv (disc_of_waiting h hv hy) hx
  stack_fresh := fun {x} hx => by
    rw [hv.stack', List.mem_append] at hx
    cases hn : s'.dfsNum x with
    | none => rfl
    | some i =>
      rcases hx with hx | hx
      · exact absurd hx (not_new hv (disc_of_num h hv hn))
      · rw [hv.num_old (waiting_ne h hv hx)] at hn
        have := h.stack_fresh (v := x) (by simp [hv.stack, hx])
        simp [hn] at this
  vertex_iff := fun {x i} => by
    rw [hv.vertex, num_iff h hv]
    by_cases hi : i = s.dfsCount
    · subst hi
      have hlast : s.dfsNum x ≠ some s.dfsCount := fun hx => Nat.lt_irrefl _ (h.num_lt hx)
      simp [hlast, eq_comm]
    · simp [hi, h.vertex_iff]
  num_lt := fun {x i} hx => by
    rw [hv.count]
    rcases (num_iff h hv).1 hx with ⟨-, rfl⟩ | hx
    · omega
    · have := h.num_lt hx
      omega
  num_ex := fun {i} hi => by
    rw [hv.count] at hi
    by_cases hic : i = s.dfsCount
    · exact ⟨v, (num_iff h hv).2 (.inl ⟨rfl, hic⟩)⟩
    · obtain ⟨x, hx⟩ := h.num_ex (show i < s.dfsCount by omega)
      exact ⟨x, (num_iff h hv).2 (.inr hx)⟩
  parent_entry := by
    rw [hv.parent_old h.entry, h.parent_entry]
  parent_ex := fun {x} hx hne => by
    rcases hv.discovered.1 hx with hx | hx
    · rw [hv.parent_old hx]
      exact h.parent_ex hx hne
    · exact ⟨v, hv.parent_new hx⟩
  parent_num := fun {u x} hp => by
    by_cases hx : x ∈ new
    · obtain rfl : v = u := Option.some.inj ((hv.parent_new hx).symm.trans hp)
      refine ⟨hv.discovered.2 (.inr hx), (hv.mem.1 hx).1, _, hv.num_self, fun j hj => ?_⟩
      exact absurd hx (not_new hv (disc_of_num h hv hj))
    · rw [hv.parent_none hx] at hp
      obtain ⟨hdx, hE, i, hi, hlt⟩ := h.parent_num hp
      refine ⟨hv.discovered.2 (.inl hdx), hE, i, (num_iff h hv).2 (.inr hi), fun j hj => ?_⟩
      rcases (num_iff h hv).1 hj with ⟨-, rfl⟩ | hj
      · exact h.num_lt hi
      · exact hlt j hj
  chain := step_chain h hv
  closed := step_closed h hv
  interval := step_interval h hv
  edges := step_edges h hcfg hv

end Visit

/-- The walk ends with an empty stack. -/
theorem walkLoop (h : WalkInv cfg s) (hcfg : cfg.WellFormed) {fuel : ℕ}
    (hfuel : Flow.unmarked cfg.size s.discovered + s.stack.length ≤ fuel) :
    WalkInv cfg (walkLoop cfg fuel s) ∧ (LoopUnroll.walkLoop cfg fuel s).stack = [] := by
  induction fuel generalizing s with
  | zero =>
    have hnil : s.stack = [] := List.length_eq_zero_iff.1 (by omega)
    exact ⟨h, hnil⟩
  | succ fuel ih =>
    cases hs : s.stack with
    | nil =>
      rw [LoopUnroll.walkLoop, hs]
      exact ⟨h, hs⟩
    | cons v st =>
      obtain ⟨new, hv⟩ := h.visits hs
      have hpot := Walk.foldl_discover_potential cfg.size v (cfg.succs v)
        { s with
          stack := st
          dfsNum := Function.update s.dfsNum v (some s.dfsCount)
          vertex := Function.update s.vertex s.dfsCount (some v)
          dfsCount := s.dfsCount + 1 }
      have hfresh : s.dfsNum v = none := h.stack_fresh (by simp [hs])
      rw [LoopUnroll.walkLoop, hs]
      refine ih (h.step hcfg hv) ?_
      rw [Walk.visit, if_neg (by simp [hfresh]), hpot]
      simp only [hs, List.length_cons] at hfuel
      simp only
      omega

end WalkInv

section Numbering

variable {cfg : Cfg} (hcfg : cfg.WellFormed)

include hcfg

theorem numbering_inv : WalkInv cfg (numbering cfg) ∧ (numbering cfg).stack = [] := by
  refine (WalkInv.start hcfg.nonempty).walkLoop hcfg ?_
  have hpot : Flow.unmarked cfg.size (Function.update (fun _ => false) 0 true) + 1 =
      Flow.unmarked cfg.size fun _ => false := Flow.unmarked_update hcfg.nonempty rfl
  have hinit : Walk.start.discovered = Function.update (fun _ => false) 0 true := by
    funext v
    by_cases hv : v = 0 <;> simp [Walk.start, hv]
  have hle := Flow.unmarked_le cfg.size fun _ => false
  rw [hinit]
  simp only [Walk.start, List.length_singleton]
  omega

/-- A discovered block has a number. -/
theorem numbered_of_discovered {v : ℕ} (hv : (numbering cfg).discovered v = true) :
    ∃ i, (numbering cfg).dfsNum v = some i := by
  obtain ⟨h, hnil⟩ := numbering_inv hcfg
  simpa [hnil] using h.disc_iff.1 hv

/-- A block is numbered when it hangs on the entry. -/
theorem anc_of_numbered {v i : ℕ} (hv : (numbering cfg).dfsNum v = some i) :
    (numbering cfg).Anc 0 v := by
  obtain ⟨h, -⟩ := numbering_inv hcfg
  -- by induction on the number: the parent has a smaller one
  induction i using Nat.strongRecOn generalizing v with
  | _ i ih =>
    by_cases hv0 : v = 0
    · subst hv0
      exact .refl
    · obtain ⟨u, hu⟩ := h.parent_ex (h.disc_iff.2 (.inl ⟨i, hv⟩)) hv0
      obtain ⟨-, -, k, hk, hlt⟩ := h.parent_num hu
      exact (ih k (hlt i hv) hk).tail hu

theorem numbered_of_anc {v : ℕ} (hv : (numbering cfg).Anc 0 v) :
    ∃ i, (numbering cfg).dfsNum v = some i := by
  obtain ⟨h, -⟩ := numbering_inv hcfg
  rcases Relation.ReflTransGen.cases_tail hv with rfl | ⟨p, -, hp⟩
  · exact numbered_of_discovered hcfg h.entry
  · exact numbered_of_discovered hcfg (h.parent_num hp).1

/-- **The walk numbers a search tree.** -/
def searchTree : Flow.SearchTree cfg.Edge 0 where
  num v := ((numbering cfg).dfsNum v).getD 0
  tree := (numbering cfg).Tree
  tree_edge h := ((numbering_inv hcfg).1.parent_num h).2.1
  tree_inj h h' := Option.some.inj (h.symm.trans h')
  num_lt := fun {u v} h => by
    obtain ⟨hv, -, i, hi, hlt⟩ := (numbering_inv hcfg).1.parent_num h
    obtain ⟨j, hj⟩ := numbered_of_discovered hcfg hv
    simpa [hi, hj] using hlt j hj
  reached := fun {v} h => by
    obtain ⟨hinv, -⟩ := numbering_inv hcfg
    have hnum : ∃ i, (numbering cfg).dfsNum v = some i := by
      induction h with
      | refl => exact numbered_of_discovered hcfg hinv.entry
      | tail _ hE ih =>
        obtain ⟨i, hi⟩ := ih
        exact numbered_of_discovered hcfg (hinv.edges hi hE).1
    obtain ⟨i, hi⟩ := hnum
    exact anc_of_numbered hcfg hi
  num_inj := fun {u v} hu hv h => by
    obtain ⟨i, hi⟩ := numbered_of_anc hcfg hu
    obtain ⟨j, hj⟩ := numbered_of_anc hcfg hv
    obtain rfl : i = j := by simpa [hi, hj] using h
    exact (numbering_inv hcfg).1.num_inj hi hj
  interval := fun {u v w} hu huv hw h₁ h₂ => by
    obtain ⟨i, hi⟩ := numbered_of_anc hcfg hu
    obtain ⟨j, hj⟩ := numbered_of_anc hcfg hw
    obtain ⟨k, hk⟩ := numbered_of_anc hcfg (hu.trans huv)
    simp only [hi, hj, hk, Option.getD_some] at h₁ h₂
    exact (numbering_inv hcfg).1.interval hi hj hk h₁ h₂ huv
  edge_anc := fun {v w} hv hE hlt => by
    obtain ⟨hinv, -⟩ := numbering_inv hcfg
    obtain ⟨i, hi⟩ := numbered_of_anc hcfg hv
    obtain ⟨-, ⟨j, hj, hji⟩ | hanc | ⟨u, k, hu, hk, hki⟩⟩ := hinv.edges hi hE
    · simp only [hi, hj, Option.getD_some] at hlt
      omega
    · exact .inl hanc
    · exact .inr ⟨u, hu, by simpa [hi, hk] using hki⟩

omit hcfg in
theorem foldl_discover_count (n v : ℕ) (l : List ℕ) (s : Walk) :
    (l.foldl (Walk.discover n v) s).dfsCount = s.dfsCount := by
  obtain ⟨new, h⟩ := Walk.foldl_discover n v l s
  exact h.dfsCount

omit hcfg in
/-- A round gives one number at most. -/
theorem walkLoop_count_le (fuel : ℕ) (s : Walk) :
    (walkLoop cfg fuel s).dfsCount ≤ s.dfsCount + fuel := by
  induction fuel generalizing s with
  | zero => exact Nat.le_refl _
  | succ fuel ih =>
    cases hs : s.stack with
    | nil =>
      rw [walkLoop, hs]
      exact Nat.le_add_right _ _
    | cons v st =>
      rw [walkLoop, hs]
      refine Nat.le_trans (ih _) ?_
      have hvisit : (Walk.visit cfg { s with stack := st } v).dfsCount ≤ s.dfsCount + 1 := by
        rw [Walk.visit]
        split
        · exact Nat.le_succ _
        · rw [foldl_discover_count]
      omega

/-- How the arrays of the walk are read off the search tree. -/
structure Reads (cfg : Cfg) (walk : Walk) (T : Flow.SearchTree cfg.Edge 0) : Prop where
  visited_iff : ∀ {v}, T.Visited v ↔ ∃ i, walk.dfsNum v = some i
  num_eq : ∀ {v i}, walk.dfsNum v = some i → T.num v = i
  vertex_iff : ∀ {v i}, walk.vertex i = some v ↔ walk.dfsNum v = some i
  num_lt : ∀ {v i}, walk.dfsNum v = some i → i < walk.dfsCount
  num_ex : ∀ {i}, i < walk.dfsCount → ∃ v, walk.dfsNum v = some i
  tree_iff : ∀ {u v}, T.tree u v ↔ walk.parent v = some u
  count_le : walk.dfsCount ≤ cfg.size
  lt_size : ∀ {v}, T.Visited v → v < cfg.size

theorem reads : Reads cfg (numbering cfg) (searchTree hcfg) where
  visited_iff := ⟨numbered_of_anc hcfg, fun ⟨_, hi⟩ => anc_of_numbered hcfg hi⟩
  num_eq h := by simp [searchTree, h]
  vertex_iff := (numbering_inv hcfg).1.vertex_iff
  num_lt := (numbering_inv hcfg).1.num_lt
  num_ex := (numbering_inv hcfg).1.num_ex
  tree_iff := Iff.rfl
  count_le := by
    have hle : (numbering cfg).dfsCount ≤ Walk.start.dfsCount + cfg.size :=
      walkLoop_count_le cfg.size Walk.start
    have hstart : Walk.start.dfsCount = 0 := rfl
    omega
  lt_size h := by
    obtain ⟨i, hi⟩ := numbered_of_anc hcfg h
    have hinv := (numbering_inv hcfg).1
    exact hinv.disc_lt (hinv.disc_iff.2 (.inl ⟨i, hi⟩))

end Numbering

namespace Reads

variable {cfg : Cfg} {walk : Walk} {T : Flow.SearchTree cfg.Edge 0} (h : Reads cfg walk T)

include h

theorem num_lt_iff {a b : ℕ} (ha : T.Visited a) (hb : T.Visited b) :
    numLt walk.dfsNum a b = true ↔ T.num a < T.num b := by
  obtain ⟨i, hi⟩ := h.visited_iff.1 ha
  obtain ⟨j, hj⟩ := h.visited_iff.1 hb
  simp [numLt, hi, hj, h.num_eq hi, h.num_eq hj]

theorem num_lt_count {v : ℕ} (hv : T.Visited v) : T.num v < walk.dfsCount := by
  obtain ⟨i, hi⟩ := h.visited_iff.1 hv
  rw [h.num_eq hi]
  exact h.num_lt hi

theorem num_entry : T.num 0 = 0 := by
  obtain ⟨v, hv⟩ := h.num_ex (i := 0) (Nat.zero_lt_of_lt (h.num_lt_count .refl))
  have hroot : T.num 0 ≤ T.num v := Flow.SearchTree.Anc.num_le (h.visited_iff.2 ⟨0, hv⟩)
  rw [h.num_eq hv] at hroot
  omega

omit h in
theorem pos_of_ne {v : ℕ} (hv : T.Visited v) (hne : v ≠ 0) : 0 < T.num v := by
  have := hv.num_lt_of_ne hne
  omega

theorem ne_of_pos {v : ℕ} (hv : 0 < T.num v) : v ≠ 0 := by
  rintro rfl
  rw [h.num_entry] at hv
  exact Nat.lt_irrefl _ hv

end Reads

end TrustMc.LoopUnroll
