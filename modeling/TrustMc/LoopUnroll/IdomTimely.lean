import TrustMc.LoopUnroll.LinkEval

/-!
# The computed dominators are those of the timely edges

The main loop keeps `LinkInv`: the blocks numbered above `i` have their semidominators, and
each of them waits in the bucket of its semidominator or is settled. After the last pass the
table holds, for every reachable block, its immediate dominator in the graph without the late
edges of the numbering walk (`computeIdom_timely`).
-/

namespace TrustMc.LoopUnroll

variable {cfg : Cfg} {walk : Walk} {T : Flow.SearchTree cfg.Edge 0}

/-! ### Semidominators -/

/-- `c` lies below every candidate of `w` that the predecessor `v` gives. -/
def Covered (T : Flow.SearchTree cfg.Edge 0) (w c v : ℕ) : Prop :=
  T.Visited v → (T.num v < T.num w → T.num c ≤ T.num v) ∧
    ∀ u, T.Visited u → T.Anc u v → T.num w < T.num u → ∀ c', T.Cand u c' → T.num c ≤ T.num c'

theorem Covered.mono {w c c' v : ℕ} (h : Covered T w c v) (hle : T.num c' ≤ T.num c) :
    Covered T w c' v := fun hv =>
  ⟨fun hlt => Nat.le_trans hle ((h hv).1 hlt), fun u hu huv hlt d hd =>
    Nat.le_trans hle ((h hv).2 u hu huv hlt d hd)⟩

/-- The state of the scan of the predecessors of `w`, of which those in `seen` are done. -/
structure LowerInv (T : Flow.SearchTree cfg.Edge 0) (w : ℕ) (s₀ s : LinkState) (seen : List ℕ) :
    Prop where
  forest : ForestOk T s.semi (T.num w) s.forest
  frame : ∀ v, v ≠ w → s.semi v = s₀.semi v
  bucket : s.bucket = s₀.bucket
  idom : s.idom = s₀.idom
  cand : s.semi w = w ∨ T.Cand w (s.semi w)
  covered : ∀ v ∈ seen, Covered T w (s.semi w) v

section Lower

variable {w : ℕ} {s₀ s : LinkState} {seen : List ℕ}

theorem LowerInv.visited (h : LowerInv T w s₀ s seen) (hw : T.Visited w) :
    T.Visited (s.semi w) := by
  rcases h.cand with hc | hc
  · rw [hc]
    exact hw
  · exact hc.visited

/-- What `eval` finds for a predecessor `v` of `w`. -/
theorem LowerInv.eval (hr : Reads cfg walk T) (hw : T.Visited w) (h : LowerInv T w s₀ s seen)
    (hdone : ∀ v, T.Visited v → T.num w < T.num v → T.IsSemi v (s₀.semi v))
    (htodo : ∀ v, T.Visited v → T.num v < T.num w → s₀.semi v = v) {v : ℕ}
    (hE : cfg.Edge v w) (hv : T.Visited v) :
    T.Visited (s.semi (eval cfg.size walk s.semi s.forest v).1) ∧
      Covered T w (s.semi (LoopUnroll.eval cfg.size walk s.semi s.forest v).1) v ∧
      (s.semi (LoopUnroll.eval cfg.size walk s.semi s.forest v).1 = s.semi w ∨
        T.Cand w (s.semi (LoopUnroll.eval cfg.size walk s.semi s.forest v).1)) := by
  obtain ⟨-, hroot, hlinked⟩ := h.forest.eval hr hv
  have hsame : ∀ x, T.Visited x → T.num w < T.num x → T.IsSemi x (s.semi x) := fun x hx hwx => by
    rw [h.frame x (by rintro rfl; omega)]
    exact hdone x hx hwx
  by_cases hwv : T.num w < T.num v
  · obtain ⟨huv, hu, hwu, hmin⟩ := hlinked hwv
    refine ⟨(hsame _ hu hwu).1.visited, fun _ => ⟨fun hlt => by omega, fun x hx hxv hwx c hc => ?_⟩,
      .inr (.up hv hE hu huv hwu (hsame _ hu hwu).1)⟩
    exact Nat.le_trans (hmin x hx hxv hwx) ((hsame x hx hwx).2 c hc)
  · -- a block that is not linked stands for itself
    rw [hroot (by omega)]
    have hup : ∀ x, T.Anc x v → ¬ T.num w < T.num x := fun x hxv => by
      have := hxv.num_le
      omega
    by_cases hvw : v = w
    · subst hvw
      exact ⟨h.visited hw, fun _ => ⟨fun hlt => by omega,
        fun x _ hxv hwx => absurd hwx (hup x hxv)⟩, .inl rfl⟩
    · have hlt : T.num v < T.num w := by
        have : T.num v ≠ T.num w := fun hn => hvw (T.num_inj hv hw hn)
        omega
      rw [h.frame v hvw, htodo v hv hlt]
      exact ⟨hv, fun _ => ⟨fun _ => Nat.le_refl _, fun x _ hxv hwx => absurd hwx (hup x hxv)⟩,
        .inr (.edge hv hE hlt)⟩

/-- **One predecessor** keeps the state of the scan. -/
theorem LowerInv.step (hr : Reads cfg walk T) (hw : T.Visited w) (h : LowerInv T w s₀ s seen)
    (hdone : ∀ v, T.Visited v → T.num w < T.num v → T.IsSemi v (s₀.semi v))
    (htodo : ∀ v, T.Visited v → T.num v < T.num w → s₀.semi v = v) {v : ℕ}
    (hE : cfg.Edge v w) : LowerInv T w s₀ (lowerSemi cfg.size walk w s v) (v :: seen) := by
  by_cases hskip : cfg.size ≤ v ∨ walk.dfsNum v = none
  · have hnv : ¬ T.Visited v := by
      intro hv
      rcases hskip with hn | hn
      · have := hr.lt_size hv
        omega
      · obtain ⟨i, hi⟩ := hr.visited_iff.1 hv
        simp [hn] at hi
    rw [lowerSemi, if_pos hskip]
    refine ⟨h.forest, h.frame, h.bucket, h.idom, h.cand, fun x hx => ?_⟩
    rcases List.mem_cons.1 hx with rfl | hx
    · exact fun hv => absurd hv hnv
    · exact h.covered x hx
  · have hv : T.Visited v := by
      rw [not_or] at hskip
      exact hr.visited_iff.2 (Option.ne_none_iff_exists'.1 hskip.2)
    obtain ⟨hum, hcov, hcand⟩ := h.eval hr hw hdone htodo hE hv
    obtain ⟨hok, -⟩ := h.forest.eval hr hv
    rw [lowerSemi, if_neg hskip]
    generalize LoopUnroll.eval cfg.size walk s.semi s.forest v = uf at hum hcov hcand hok ⊢
    obtain ⟨u, f⟩ := uf
    simp only [hr.num_lt_iff hum (h.visited hw)]
    by_cases hlt : T.num (s.semi u) < T.num (s.semi w)
    · simp only [hlt, if_true]
      refine ⟨hok.congr fun x _ hx => ?_, fun x hx => ?_, h.bucket, h.idom, ?_, fun x hx => ?_⟩
      · have hxw : x ≠ w := by
          rintro rfl
          omega
        simp [hxw]
      · simp [hx, h.frame x hx]
      · have hne : s.semi u ≠ s.semi w := fun he => by simp [he] at hlt
        exact .inr (by simpa using hcand.resolve_left hne)
      · simp only [Function.update_self]
        rcases List.mem_cons.1 hx with rfl | hx
        · exact hcov
        · exact (h.covered x hx).mono (Nat.le_of_lt hlt)
    · simp only [hlt, if_false]
      refine ⟨hok, h.frame, h.bucket, h.idom, h.cand, fun x hx => ?_⟩
      rcases List.mem_cons.1 hx with rfl | hx
      · exact hcov.mono (Nat.le_of_not_lt hlt)
      · exact h.covered x hx

theorem LowerInv.foldl (hr : Reads cfg walk T) (hw : T.Visited w)
    (hdone : ∀ v, T.Visited v → T.num w < T.num v → T.IsSemi v (s₀.semi v))
    (htodo : ∀ v, T.Visited v → T.num v < T.num w → s₀.semi v = v) {preds : List ℕ}
    (hE : ∀ v ∈ preds, cfg.Edge v w) (h : LowerInv T w s₀ s seen) :
    LowerInv T w s₀ (preds.foldl (lowerSemi cfg.size walk w) s) (preds.reverse ++ seen) := by
  induction preds generalizing s seen with
  | nil => exact h
  | cons v preds ih =>
    have hstep := h.step hr hw hdone htodo (hE v List.mem_cons_self)
    have hrest := ih (fun x hx => hE x (List.mem_cons_of_mem _ hx)) hstep
    simpa using hrest

/-- After the scan `w` has its semidominator. -/
theorem LowerInv.isSemi (hcfg : cfg.WellFormed) (hw : T.Visited w) (hne : w ≠ 0)
    (h : LowerInv T w s₀ s seen) (hseen : ∀ v ∈ cfg.preds w, v ∈ seen) :
    T.IsSemi w (s.semi w) := by
  have hcov : ∀ {v}, cfg.Edge v w → Covered T w (s.semi w) v := fun hE =>
    h.covered _ (hseen _ (hcfg.mem_preds.2 hE))
  obtain ⟨p, hp, hpv⟩ := hw.parent hne
  have hplt := T.num_lt hp
  have hle := (hcov (T.tree_edge hp) hpv).1 hplt
  refine ⟨h.cand.resolve_left fun he => ?_, fun c hc => ?_⟩
  · rw [he] at hle
    omega
  · cases hc with
    | edge hcv hE hlt => exact (hcov hE hcv).1 hlt
    | up hv hE hu huv hlt hc => exact (hcov hE hv).2 _ hu huv hlt c hc

end Lower

/-! ### Settling -/

/-- The entry of `v`: its semidominator, where that is the least on the stretch below it, or a
block of the stretch with a smaller, the least, semidominator. -/
inductive Settled (T : Flow.SearchTree cfg.Edge 0) (semi : ℕ → ℕ) (v : ℕ) : Option ℕ → Prop
  | semi (hmin : ∀ z, T.Anc (semi v) z → z ≠ semi v → T.Anc z v →
      T.num (semi v) ≤ T.num (semi z)) : Settled T semi v (some (semi v))
  | deferred {u : ℕ} (hu : Least T semi (semi v) v u) (hlt : T.num (semi u) < T.num (semi v)) :
      Settled T semi v (some u)

/-- What is settled stays so where the semidominators of the stretch stay. -/
theorem Settled.congr {semi semi' : ℕ → ℕ} {v : ℕ} {o : Option ℕ} {i : ℕ}
    (h : Settled T semi v o) (hst : Stretch T i (semi v) v) (hv : semi' v = semi v)
    (hs : ∀ z, i < T.num z → semi' z = semi z) : Settled T semi' v o := by
  cases h with
  | semi hmin =>
    rw [← hv]
    refine .semi fun z haz hza hzv => ?_
    rw [hv] at haz hza ⊢
    rw [hs z (hst.linked z haz hza hzv)]
    exact hmin z haz hza hzv
  | @deferred u hu hlt =>
    have hsu := hs u (hst.linked u hu.below hu.ne hu.anc)
    refine .deferred ?_ (by rwa [hsu, hv])
    rw [hv]
    refine ⟨hu.below, hu.ne, hu.anc, fun z haz hza hzv => ?_⟩
    rw [hs z (hst.linked z haz hza hzv), hsu]
    exact hu.le z haz hza hzv

theorem Stretch.mono {i j a v : ℕ} (h : Stretch T j a v) (hij : i ≤ j) : Stretch T i a v :=
  ⟨h.anc, h.ne, fun z haz hza hzv => Nat.lt_of_le_of_lt hij (h.linked z haz hza hzv)⟩

/-- The invariant of the main loop, when the blocks numbered above `i` are done. -/
structure LinkInv (T : Flow.SearchTree cfg.Edge 0) (i : ℕ) (s : LinkState) : Prop where
  forest : ForestOk T s.semi i s.forest
  semi_done : ∀ v, T.Visited v → i < T.num v → T.IsSemi v (s.semi v)
  semi_todo : ∀ v, T.Visited v → T.num v ≤ i → s.semi v = v
  /-- A waiting block is done, and the child of its semidominator above it is not. -/
  bucket_mem : ∀ q, ∀ v ∈ s.bucket q, T.Visited v ∧ i < T.num v ∧ s.semi v = q ∧
    ∀ z, T.tree q z → T.Anc z v → T.num z ≤ i
  settled : ∀ v, T.Visited v → i < T.num v →
    v ∈ s.bucket (s.semi v) ∨ (Stretch T i (s.semi v) v ∧ Settled T s.semi v (s.idom v))
  idom_none : ∀ v, s.idom v ≠ none → T.Visited v ∧ i < T.num v

section Settle

variable {i p w : ℕ} {s s₀ : LinkState}

/-- The state of the scan of the bucket of `p`. -/
structure SettleInv (T : Flow.SearchTree cfg.Edge 0) (i : ℕ) (s₀ s : LinkState)
    (seen : List ℕ) : Prop where
  forest : ForestOk T s.semi i s.forest
  semi : s.semi = s₀.semi
  bucket : s.bucket = s₀.bucket
  settled : ∀ v ∈ seen, Stretch T i (s.semi v) v ∧ Settled T s.semi v (s.idom v)
  frame : ∀ v, v ∉ seen → s.idom v = s₀.idom v

/-- The stretch between a block of the bucket and `p` is linked once `w`, the child of `p` that
is processed, is linked. -/
theorem linked_below (hw : T.tree p w) (hwv : T.Visited w) (hnum : T.num w = i + 1)
    (hpvis : T.Visited p) {v : ℕ} (hi : i < T.num v) {z : ℕ} (hpz : T.Anc p z)
    (hzp : z ≠ p) (hzv : T.Anc z v) : i < T.num z := by
  by_contra hle
  have hplt := T.num_lt hw
  -- `z` comes before `w` and its subtree reaches beyond, so `w` hangs below `z`
  have hzw : T.Anc z w := T.interval (hpvis.trans hpz) hzv hwv (by omega) (by omega)
  rcases hzw.of_tree hw with rfl | hzp'
  · omega
  · have := hpz.eq_or_lt.resolve_left (Ne.symm hzp)
    have := hzp'.num_le
    omega

theorem SettleInv.step (hr : Reads cfg walk T) (hw : T.tree p w) (hwv : T.Visited w)
    (hnum : T.num w = i + 1) {seen : List ℕ} (h : SettleInv T i s₀ s seen)
    (hdone : ∀ v, T.Visited v → i < T.num v → T.IsSemi v (s₀.semi v)) {v : ℕ}
    (hv : T.Visited v) (hi : i < T.num v) (hsv : s₀.semi v = p) :
    SettleInv T i s₀ (settle cfg.size walk p s v) (v :: seen) := by
  obtain ⟨hok, -, hlinked⟩ := h.forest.eval hr hv
  obtain ⟨huv, hu, hiu, hmin⟩ := hlinked hi
  rw [settle]
  generalize LoopUnroll.eval cfg.size walk s.semi s.forest v = uf at hok huv hu hiu hmin ⊢
  obtain ⟨u, f⟩ := uf
  have hv0 : v ≠ 0 := hr.ne_of_pos (by omega)
  have hsemi := hdone v hv hi
  have hl := hsemi.ladder hv hv0
  rw [hsv] at hsemi hl
  have hsv' : s.semi v = p := by
    rw [h.semi, hsv]
  -- the linked ancestors of `v` are the stretch below `p`
  have hpi : T.num p ≤ i := by
    have := T.num_lt hw
    omega
  have hpu : T.Anc p u := hl.anc.comparable huv (by simp only at hiu; omega)
  have hup : u ≠ p := by
    rintro rfl
    simp only at hiu
    omega
  have hst : Stretch T i p v := ⟨hl.anc, hl.ne, fun z hpz hzp hzv =>
    linked_below hw hwv hnum hsemi.1.visited hi hpz hzp hzv⟩
  have hleast : Least T s.semi p v u := ⟨hpu, hup, huv, fun z hpz hzp hzv =>
    hmin z (hsemi.1.visited.trans hpz) hzv (hst.linked z hpz hzp hzv)⟩
  refine ⟨hok, h.semi, h.bucket, fun x hx => ?_, fun x hx => ?_⟩
  · by_cases hxv : x = v
    · subst hxv
      refine ⟨by simpa only [hsv'] using hst, ?_⟩
      simp only [Function.update_self]
      by_cases heq : s.semi u = s.semi x
      · rw [if_pos heq, ← hsv']
        refine .semi fun z hpz hzp hzv => ?_
        rw [hsv'] at hpz hzp
        have := hleast.le z hpz hzp hzv
        rw [← heq]
        exact this
      · rw [if_neg heq]
        have hle := hleast.le x hl.anc hl.ne.symm .refl
        have hvu : T.Visited (s.semi u) := by
          rw [h.semi]
          exact (hdone u hu hiu).1.visited
        have hvx : T.Visited (s.semi x) := by
          rw [hsv']
          exact hsemi.1.visited
        refine .deferred (by rw [hsv']; exact hleast) ?_
        have hne : T.num (s.semi u) ≠ T.num (s.semi x) := fun hn => heq (T.num_inj hvu hvx hn)
        omega
    · have hxs : x ∈ seen := by simpa [hxv] using hx
      simpa [Function.update_of_ne hxv] using h.settled x hxs
  · rw [List.mem_cons, not_or] at hx
    simpa [Function.update_of_ne hx.1] using h.frame x hx.2

theorem SettleInv.foldl (hr : Reads cfg walk T) (hw : T.tree p w) (hwv : T.Visited w)
    (hnum : T.num w = i + 1)
    (hdone : ∀ v, T.Visited v → i < T.num v → T.IsSemi v (s₀.semi v)) {bucket : List ℕ}
    (hbucket : ∀ v ∈ bucket, T.Visited v ∧ i < T.num v ∧ s₀.semi v = p) {seen : List ℕ}
    (h : SettleInv T i s₀ s seen) :
    SettleInv T i s₀ (bucket.foldl (settle cfg.size walk p) s) (bucket.reverse ++ seen) := by
  induction bucket generalizing s seen with
  | nil => exact h
  | cons v bucket ih =>
    obtain ⟨hv, hi, hsv⟩ := hbucket v List.mem_cons_self
    have hstep := h.step hr hw hwv hnum hdone hv hi hsv
    have hrest := ih (fun x hx => hbucket x (List.mem_cons_of_mem _ hx)) hstep
    simpa using hrest

/-- **One vertex** of the main loop. -/
theorem LinkInv.process (hcfg : cfg.WellFormed) (hr : Reads cfg walk T)
    (h : LinkInv T (i + 1) s) (hwv : T.Visited w) (hnum : T.num w = i + 1) :
    LinkInv T i (processVertex cfg walk s w) := by
  have hw0 : w ≠ 0 := hr.ne_of_pos (by omega)
  obtain ⟨p, hp, hpv⟩ := hwv.parent hw0
  have hplt := T.num_lt hp
  have hlast : ∀ {x}, T.Visited x → i < T.num x → x ≠ w → i + 1 < T.num x := fun {x} hx hi hxw => by
    have : T.num x ≠ T.num w := fun hn => hxw (T.num_inj hx hwv hn)
    omega
  -- the semidominator of `w`
  have hlow₀ : LowerInv T w s s [] :=
    ⟨by rw [hnum]; exact h.forest, fun _ _ => rfl, rfl, rfl,
      .inl (h.semi_todo w hwv (by omega)), by simp⟩
  have hlow : LowerInv T w s ((cfg.preds w).foldl (lowerSemi cfg.size walk w) s)
      ((cfg.preds w).reverse ++ []) :=
    hlow₀.foldl hr hwv (fun v hv hlt => h.semi_done v hv (by omega))
      (fun v hv hlt => h.semi_todo v hv (by omega)) (fun v hv => hcfg.mem_preds.1 hv)
  rw [processVertex]
  generalize (cfg.preds w).foldl (lowerSemi cfg.size walk w) s = s₁ at hlow ⊢
  have hsemi := hlow.isSemi hcfg hwv hw0 (fun v hv => by simpa using hv)
  have hdone : ∀ v, T.Visited v → i < T.num v → T.IsSemi v (s₁.semi v) := fun v hv hi => by
    by_cases hvw : v = w
    · subst hvw
      exact hsemi
    · rw [hlow.frame v hvw]
      exact h.semi_done v hv (hlast hv hi hvw)
  have htodo : ∀ v, T.Visited v → T.num v ≤ i → s₁.semi v = v := fun v hv hi => by
    have hvw : v ≠ w := by
      rintro rfl
      omega
    rw [hlow.frame v hvw]
    exact h.semi_todo v hv (by omega)
  -- `w` waits in the bucket of its semidominator, with those that waited there before
  have hbucket : ∀ q v, v ∈ Function.update s₁.bucket (s₁.semi w) (s₁.bucket (s₁.semi w) ++ [w]) q ↔
      (v = w ∧ q = s₁.semi w) ∨ v ∈ s.bucket q := fun q v => by
    rw [hlow.bucket]
    by_cases hq : q = s₁.semi w
    · subst hq
      simp [or_comm]
    · simp [hq]
  have hwait : ∀ q, ∀ v ∈ Function.update s₁.bucket (s₁.semi w) (s₁.bucket (s₁.semi w) ++ [w]) q,
      T.Visited v ∧ i < T.num v ∧ s₁.semi v = q ∧
        ∀ z, T.tree q z → T.Anc z v → T.num z ≤ i + 1 := fun q v hv => by
    rcases (hbucket q v).1 hv with ⟨rfl, rfl⟩ | hv
    · exact ⟨hwv, by omega, rfl, fun z _ hzv => by
        have := hzv.num_le
        omega⟩
    · obtain ⟨hvis, hlt, hsv, hz⟩ := h.bucket_mem q v hv
      have hvw : v ≠ w := by
        rintro rfl
        omega
      exact ⟨hvis, by omega, by rw [hlow.frame v hvw]; exact hsv, hz⟩
  have hforest : ForestOk T s₁.semi i (link s₁.forest p w) := by
    refine ForestOk.link ?_ hwv hp hpv hnum hsemi.1.visited
    rw [← hnum]
    exact hlow.forest
  rw [hr.tree_iff.1 hp]
  simp only
  generalize Function.update s₁.bucket (s₁.semi w) (s₁.bucket (s₁.semi w) ++ [w]) = bucket
    at hbucket hwait ⊢
  generalize hs₃ : ({ s₁ with
      forest := link s₁.forest p w, bucket := Function.update bucket p [] } : LinkState) = s₃
  have hsemi₃ : s₃.semi = s₁.semi := by rw [← hs₃]
  have hidom₃ : s₃.idom = s₁.idom := by rw [← hs₃]
  have hbucket₃ : s₃.bucket = Function.update bucket p [] := by rw [← hs₃]
  have hset₀ : SettleInv T i s₃ s₃ [] :=
    ⟨by rw [← hs₃]; exact hforest, rfl, rfl, by simp, fun _ _ => rfl⟩
  have hset : SettleInv T i s₃ ((bucket p).foldl (settle cfg.size walk p) s₃)
      ((bucket p).reverse ++ []) :=
    hset₀.foldl hr hp hwv hnum (by rw [hsemi₃]; exact hdone) fun v hv => by
      obtain ⟨hvis, hlt, hsv, -⟩ := hwait p v hv
      exact ⟨hvis, hlt, by rw [hsemi₃, hsv]⟩
  generalize (bucket p).foldl (settle cfg.size walk p) s₃ = s₂ at hset ⊢
  have hs₂ : s₂.semi = s₁.semi := hset.semi.trans hsemi₃
  have hb : s₂.bucket = Function.update bucket p [] := hset.bucket.trans hbucket₃
  have hframe : ∀ v, v ∉ bucket p → s₂.idom v = s.idom v := fun v hv => by
    rw [← hlow.idom, ← hidom₃]
    exact hset.frame v (by simpa using hv)
  refine ⟨hset.forest, ?_, ?_, fun q v hv => ?_, fun v hv hi => ?_, fun v hv => ?_⟩
  · rw [hs₂]
    exact hdone
  · rw [hs₂]
    exact htodo
  · rw [hb] at hv
    have hqp : q ≠ p := by
      rintro rfl
      simp at hv
    rw [Function.update_of_ne hqp] at hv
    obtain ⟨hvis, hlt, hsv, hz⟩ := hwait q v hv
    rw [hs₂]
    refine ⟨hvis, hlt, hsv, fun z hqz hzv => ?_⟩
    -- the child numbered `i + 1` is `w`, whose parent is `p`
    have hle := hz z hqz hzv
    have hne : T.num z ≠ i + 1 := fun hzi => hqp <| by
      have hzvis : T.Visited z := by
        have hq : T.Visited q := hsv ▸ (hdone v hvis hlt).1.visited
        exact hq.tail hqz
      obtain rfl := T.num_inj hzvis hwv (by omega)
      exact T.tree_inj hqz hp
    omega
  · rw [hs₂, hb]
    by_cases hmem : v ∈ bucket p
    · have := hset.settled v (by simpa using hmem)
      rw [hs₂] at this
      exact .inr this
    · by_cases hvw : v = w
      · subst hvw
        have hin : v ∈ bucket (s₁.semi v) := (hbucket _ _).2 (.inl ⟨rfl, rfl⟩)
        have hq : s₁.semi v ≠ p := by
          rintro rfl
          exact hmem hin
        exact .inl (by simpa [Function.update_of_ne hq] using hin)
      · have hsame : s₁.semi v = s.semi v := hlow.frame v hvw
        rcases h.settled v hv (hlast hv hi hvw) with hin | ⟨hst, hset'⟩
        · have hin' : v ∈ bucket (s₁.semi v) := (hbucket _ _).2 (.inr (by rwa [hsame]))
          have hq : s₁.semi v ≠ p := by
            intro hq
            exact hmem (hq ▸ hin')
          exact .inl (by simpa [Function.update_of_ne hq] using hin')
        · rw [hframe v hmem]
          refine .inr ⟨by rw [hsame]; exact hst.mono (Nat.le_succ i), ?_⟩
          refine hset'.congr hst hsame fun z hz => hlow.frame z ?_
          rintro rfl
          omega
  · by_cases hmem : v ∈ bucket p
    · exact ⟨(hwait p v hmem).1, (hwait p v hmem).2.1⟩
    · rw [hframe v hmem] at hv
      obtain ⟨hvis, hlt⟩ := h.idom_none v hv
      exact ⟨hvis, by omega⟩

end Settle

/-! ### The whole computation -/

section Whole

variable {s : LinkState}

theorem LinkInv.start (hr : Reads cfg walk T) :
    LinkInv T (walk.dfsCount - 1) LinkState.start := by
  have hno : ∀ {v}, T.Visited v → ¬ walk.dfsCount - 1 < T.num v := fun hv hlt => by
    have := hr.num_lt_count hv
    omega
  exact
    { forest := ⟨fun _ _ => ⟨rfl, rfl⟩, fun hv hi => absurd hi (hno hv),
        fun hv hi => absurd hi (hno hv)⟩
      semi_done := fun v hv hi => absurd hi (hno hv)
      semi_todo := fun _ _ _ => rfl
      bucket_mem := fun q v hv => by simp [LinkState.start] at hv
      settled := fun v hv hi => absurd hi (hno hv)
      idom_none := fun v hv => by simp [LinkState.start] at hv }

/-- **The main loop**, by induction on the numbers left. -/
theorem LinkInv.processDown (hcfg : cfg.WellFormed) (hr : Reads cfg walk T) {i : ℕ}
    (hi : i < walk.dfsCount) (h : LinkInv T i s) :
    LinkInv T 0 (processDown cfg walk i s) := by
  induction i generalizing s with
  | zero => exact h
  | succ i ih =>
    obtain ⟨w, hw⟩ := hr.num_ex hi
    have hwv : T.Visited w := hr.visited_iff.2 ⟨_, hw⟩
    rw [LoopUnroll.processDown, hr.vertex_iff.2 hw]
    exact ih (by omega) (h.process hcfg hr hwv (hr.num_eq hw))

/-- At the end nothing waits. -/
theorem LinkInv.settled_zero (hr : Reads cfg walk T) (h : LinkInv T 0 s) {v : ℕ}
    (hv : T.Visited v) (hpos : 0 < T.num v) : Settled T s.semi v (s.idom v) := by
  rcases h.settled v hv hpos with hin | ⟨-, hset⟩
  · -- the child of the semidominator above `v` has a positive number
    obtain ⟨-, -, -, hz⟩ := h.bucket_mem _ v hin
    have hl := (h.semi_done v hv hpos).ladder hv (hr.ne_of_pos hpos)
    rcases Relation.ReflTransGen.cases_head hl.anc with heq | ⟨z, hqz, hzv⟩
    · exact absurd heq hl.ne
    · have := hz z hqz hzv
      have := T.num_lt hqz
      omega
  · exact hset

/-- The state of the last pass, when the numbers up to `k` are final. -/
structure FinalInv (T : Flow.SearchTree cfg.Edge 0) (s : LinkState) (k : ℕ)
    (idom : ℕ → Option ℕ) : Prop where
  final : ∀ v, T.Visited v → 0 < T.num v → T.num v ≤ k →
    ∃ d, idom v = some d ∧ Flow.IsIdom T.Timely 0 d v
  frame : ∀ v, ¬ (T.Visited v ∧ T.num v ≤ k) → idom v = s.idom v
  entry : idom 0 = none

theorem finalizeVertex_inv (hr : Reads cfg walk T) (h : LinkInv T 0 s) {k w : ℕ}
    {idom : ℕ → Option ℕ} (hf : FinalInv T s k idom) (hw : T.Visited w)
    (hnum : T.num w = k + 1) : FinalInv T s (k + 1) (finalizeVertex s.semi idom w) := by
  have hw0 : w ≠ 0 := hr.ne_of_pos (by omega)
  have hpos : 0 < T.num w := by omega
  have hsemi := h.semi_done w hw hpos
  have hl := hsemi.ladder hw hw0
  have hsv : T.Visited (s.semi w) := hsemi.1.visited
  have hset := h.settled_zero hr hw hpos
  have hlast : ∀ {v}, T.Visited v → T.num v ≤ k + 1 → v ≠ w → T.num v ≤ k := by
    intro v hv hle hvw
    have : T.num v ≠ T.num w := fun hn => hvw (T.num_inj hv hw hn)
    omega
  have hidom : idom w = s.idom w := hf.frame w fun hle => by omega
  -- candidates are bounded by the semidominator of their vertex
  have hcand : ∀ z, T.Anc (s.semi w) z → z ≠ s.semi w → ∀ c, T.Cand z c →
      T.num (s.semi z) ≤ T.num c := fun z haz hza c hc => by
    have hz : T.Visited z := hsv.trans haz
    have hlt := haz.eq_or_lt.resolve_left (Ne.symm hza)
    exact (h.semi_done z hz (by omega)).2 c hc
  -- the entry of `w` becomes its immediate dominator
  have hentry : ∃ d, finalizeVertex s.semi idom w = Function.update idom w (some d) ∧
      Flow.IsIdom T.Timely 0 d w := by
    generalize ho : s.idom w = o at hset
    rw [ho] at hidom
    cases hset with
    | semi hmin =>
      refine ⟨s.semi w, ?_, ?_⟩
      · rw [finalizeVertex, hidom]
        simp [← hidom]
      · refine Flow.SearchTree.isIdom_of_semi_eq hw hw0 hsemi fun z haz hza hzw c hc => ?_
        exact Nat.le_trans (hmin z haz hza hzw) (hcand z haz hza c hc)
    | @deferred u hu hlt =>
      have huv : T.Visited u := hsv.trans hu.below
      have hlow := hu.below.eq_or_lt.resolve_left (Ne.symm hu.ne)
      have huw : u ≠ w := by
        rintro rfl
        omega
      obtain ⟨d, hd, hid⟩ := hf.final u huv (by omega)
        (hlast huv (by have := hu.anc.num_le; omega) huw)
      refine ⟨d, ?_, ?_⟩
      · rw [finalizeVertex, hidom]
        simp [hu.ne, hd]
      · refine Flow.SearchTree.isIdom_of_semi_lt hw hw0 hsemi (h.semi_done u huv (by omega))
          hu.below hu.ne hu.anc (fun z haz hza hzw c hc => ?_) hid
        exact Nat.le_trans (hu.le z haz hza hzw) (hcand z haz hza c hc)
  obtain ⟨d, hupd, hid⟩ := hentry
  rw [hupd]
  refine ⟨fun v hv hvpos hle => ?_, fun v hv => ?_, ?_⟩
  · by_cases hvw : v = w
    · subst hvw
      exact ⟨d, by simp, hid⟩
    · rw [Function.update_of_ne hvw]
      exact hf.final v hv hvpos (hlast hv hle hvw)
  · have hvw : v ≠ w := by
      rintro rfl
      exact hv ⟨hw, by omega⟩
    rw [Function.update_of_ne hvw]
    exact hf.frame v fun hle => hv ⟨hle.1, by omega⟩
  · rw [Function.update_of_ne (Ne.symm hw0)]
    exact hf.entry

theorem finalizeUp_inv (hr : Reads cfg walk T) (h : LinkInv T 0 s) {k : ℕ}
    (hk : k < walk.dfsCount) : FinalInv T s k (finalizeUp walk s.semi k s.idom) := by
  induction k with
  | zero =>
    refine ⟨fun v _ hpos hle => by omega, fun _ _ => rfl, ?_⟩
    by_contra hne
    have := (h.idom_none 0 hne).2
    rw [hr.num_entry] at this
    omega
  | succ k ih =>
    obtain ⟨w, hw⟩ := hr.num_ex hk
    have hwv : T.Visited w := hr.visited_iff.2 ⟨_, hw⟩
    rw [finalizeUp, hr.vertex_iff.2 hw]
    exact finalizeVertex_inv hr h (ih (by omega)) hwv (hr.num_eq hw)

end Whole

section Exact

variable (hcfg : cfg.WellFormed)

theorem computeIdom_inv : ∃ s, FinalInv (searchTree hcfg) s ((numbering cfg).dfsCount - 1)
    (computeIdomLengauerTarjan cfg) ∧ LinkInv (searchTree hcfg) 0 s := by
  have hr := reads hcfg
  have hcount : 0 < (numbering cfg).dfsCount :=
    Nat.lt_of_le_of_lt (Nat.zero_le _) (hr.num_lt_count (v := 0) .refl)
  have hlink := (LinkInv.start hr).processDown hcfg hr (i := (numbering cfg).dfsCount - 1)
    (by omega)
  refine ⟨_, ?_, hlink⟩
  have hfinal := finalizeUp_inv hr hlink (k := (numbering cfg).dfsCount - 1) (by omega)
  have hsize : cfg.size ≠ 0 := Nat.ne_of_gt hcfg.nonempty
  rw [computeIdomLengauerTarjan, if_neg hsize]
  simp only [Nat.ne_of_gt hcount, if_false]
  exact hfinal

/-- Every block of the tree but the entry has an entry, its immediate dominator over the timely
edges. -/
theorem computeIdom_some {v : ℕ} (hv : (searchTree hcfg).Visited v) (hne : v ≠ 0) :
    ∃ d, computeIdomLengauerTarjan cfg v = some d ∧
      Flow.IsIdom (searchTree hcfg).Timely 0 d v := by
  obtain ⟨s, hf, -⟩ := computeIdom_inv hcfg
  refine hf.final v hv (Reads.pos_of_ne hv hne) ?_
  have := (reads hcfg).num_lt_count hv
  omega

include hcfg in
theorem computeIdom_entry : computeIdomLengauerTarjan cfg 0 = none := by
  obtain ⟨s, hf, -⟩ := computeIdom_inv hcfg
  exact hf.entry

theorem computeIdom_unreachable {v : ℕ} (hv : ¬ (searchTree hcfg).Visited v) :
    computeIdomLengauerTarjan cfg v = none := by
  obtain ⟨s, hf, hlink⟩ := computeIdom_inv hcfg
  rw [hf.frame v fun h => hv h.1]
  by_contra hne
  exact hv (hlink.idom_none v hne).1

/-- **The computed table** is exact for the timely edges of the numbering walk. -/
theorem computeIdom_timely {v : ℕ} (hv : (searchTree hcfg).Visited v) (d : ℕ) :
    computeIdomLengauerTarjan cfg v = some d ↔ Flow.IsIdom (searchTree hcfg).Timely 0 d v := by
  by_cases hv0 : v = 0
  · subst hv0
    rw [computeIdom_entry hcfg]
    exact iff_of_false (by simp) fun h => Flow.not_strictDom_entry h.1
  · obtain ⟨d', hd', hid⟩ := computeIdom_some hcfg hv hv0
    rw [hd', Option.some.injEq]
    constructor
    · rintro rfl
      exact hid
    · have hreach : Flow.Reachable (searchTree hcfg).Timely 0 v :=
        Flow.SearchTree.reachable_timely_iff.1 (Flow.SearchTree.reachable_iff_visited.2 hv)
      exact fun h => hid.unique hreach h

/-- An immediate dominator has a smaller number. -/
theorem computeIdom_num_lt {v d : ℕ} (h : computeIdomLengauerTarjan cfg v = some d) :
    (searchTree hcfg).Visited d ∧ (searchTree hcfg).num d < (searchTree hcfg).num v := by
  have hv : (searchTree hcfg).Visited v := by
    by_contra hv
    simp [computeIdom_unreachable hcfg hv] at h
  have hid := (computeIdom_timely hcfg hv d).1 h
  obtain ⟨hd, hanc, hne, -⟩ := (Flow.SearchTree.strictDom_iff hv).1 hid.1
  exact ⟨hd, hanc.eq_or_lt.resolve_left hne⟩

end Exact

end TrustMc.LoopUnroll
