import TrustMc.LoopUnroll.Numbering

/-!
# The link-eval forest

`ForestOk T semi i f` says that the forest `f` links exactly the blocks numbered above `i`: an
ancestor entry points up the tree over linked blocks only, and the label is a block with the
least semidominator on that stretch. Compression (`compress_spec`) keeps this and brings the
entry of the block to a root, so that `eval` finds the least semidominator over all linked
ancestors (`eval_spec`).
-/

namespace TrustMc.LoopUnroll

variable {cfg : Cfg} {walk : Walk} {T : Flow.SearchTree cfg.Edge 0}

/-- `a` lies strictly above `v` in the tree, over linked blocks only. -/
structure Stretch (T : Flow.SearchTree cfg.Edge 0) (i a v : ℕ) : Prop where
  anc : T.Anc a v
  ne : a ≠ v
  linked : ∀ z, T.Anc a z → z ≠ a → T.Anc z v → i < T.num z

/-- `u` has the least semidominator on the stretch from below `a` to `v`. -/
structure Least (T : Flow.SearchTree cfg.Edge 0) (semi : ℕ → ℕ) (a v u : ℕ) : Prop where
  below : T.Anc a u
  ne : u ≠ a
  anc : T.Anc u v
  le : ∀ z, T.Anc a z → z ≠ a → T.Anc z v → T.num (semi u) ≤ T.num (semi z)

structure ForestOk (T : Flow.SearchTree cfg.Edge 0) (semi : ℕ → ℕ) (i : ℕ) (f : Forest) :
    Prop where
  /-- A block that is not linked is a root and its own label. -/
  root : ∀ {v}, T.Visited v → T.num v ≤ i → f.ancestor v = none ∧ f.label v = v
  linked : ∀ {v}, T.Visited v → i < T.num v →
    ∃ a, f.ancestor v = some a ∧ T.Visited a ∧ Stretch T i a v ∧ Least T semi a v (f.label v)
  /-- Semidominators of linked blocks are blocks of the tree. -/
  semi_visited : ∀ {v}, T.Visited v → i < T.num v → T.Visited (semi v)

section Stretch

variable {i a b v u : ℕ} {semi : ℕ → ℕ}

theorem Stretch.num_lt (h : Stretch T i a v) : T.num a < T.num v :=
  h.anc.eq_or_lt.resolve_left h.ne

/-- A stretch on top of another. -/
theorem Stretch.trans (h : Stretch T i b a) (h' : Stretch T i a v) : Stretch T i b v where
  anc := h.anc.trans h'.anc
  ne := by
    have := h.num_lt
    have := h'.num_lt
    rintro rfl
    omega
  linked z hbz hzb hzv := by
    -- `z` lies on the upper stretch or on the lower one
    by_cases hle : T.num z ≤ T.num a
    · exact h.linked z hbz hzb (hzv.comparable h'.anc hle)
    · have haz : T.Anc a z := h'.anc.comparable hzv (by omega)
      exact h'.linked z haz (by rintro rfl; omega) hzv

/-- The least of two stretches is the lesser of the least ones. -/
theorem Least.trans (ha : Stretch T i b a) (hv : Stretch T i a v) {u' : ℕ}
    (h : Least T semi b a u) (h' : Least T semi a v u') :
    Least T semi b v (if T.num (semi u) < T.num (semi u') then u else u') := by
  have hcases : ∀ z, T.Anc b z → z ≠ b → T.Anc z v →
      T.num (semi u) ≤ T.num (semi z) ∨ T.num (semi u') ≤ T.num (semi z) := fun z hbz hzb hzv => by
    by_cases hle : T.num z ≤ T.num a
    · exact .inl (h.le z hbz hzb (hzv.comparable hv.anc hle))
    · have haz : T.Anc a z := hv.anc.comparable hzv (by omega)
      exact .inr (h'.le z haz (by rintro rfl; omega) hzv)
  split
  · refine ⟨h.below, h.ne, h.anc.trans hv.anc, fun z hbz hzb hzv => ?_⟩
    rcases hcases z hbz hzb hzv with hz | hz <;> omega
  · refine ⟨ha.anc.trans h'.below, ?_, h'.anc, fun z hbz hzb hzv => ?_⟩
    · have := ha.num_lt
      have := h'.below.num_le
      rintro rfl
      omega
    · rcases hcases z hbz hzb hzv with hz | hz <;> omega

end Stretch

namespace ForestOk

variable {semi : ℕ → ℕ} {i : ℕ} {f : Forest}

/-- The forest reads the semidominators of the linked blocks only. -/
theorem congr (h : ForestOk T semi i f) {semi' : ℕ → ℕ}
    (hs : ∀ v, T.Visited v → i < T.num v → semi' v = semi v) : ForestOk T semi' i f where
  root := h.root
  linked := fun {v} hv hi => by
    obtain ⟨a, ha, hva, hst, hl⟩ := h.linked hv hi
    have hsame : ∀ z, T.Anc a z → z ≠ a → T.Anc z v → semi' z = semi z := fun z haz hza hzv =>
      hs z (hva.trans haz) (hst.linked z haz hza hzv)
    refine ⟨a, ha, hva, hst, hl.below, hl.ne, hl.anc, fun z haz hza hzv => ?_⟩
    rw [hsame z haz hza hzv, hsame _ hl.below hl.ne hl.anc]
    exact hl.le z haz hza hzv
  semi_visited := fun {v} hv hi => by
    rw [hs v hv hi]
    exact h.semi_visited hv hi

/-- An entry is present exactly for the linked blocks. -/
theorem isSome_iff (h : ForestOk T semi i f) {v : ℕ} (hv : T.Visited v) :
    (f.ancestor v).isSome = true ↔ i < T.num v := by
  constructor
  · intro hs
    by_contra hle
    simp [(h.root hv (by omega)).1] at hs
  · intro hi
    obtain ⟨a, ha, -⟩ := h.linked hv hi
    simp [ha]

/-- Compressing a block below a linked one keeps the forest. -/
theorem compressNode (h : ForestOk T semi i f) (hr : Reads cfg walk T) {v a b : ℕ}
    (hv : T.Visited v) (hi : i < T.num v) (ha : f.ancestor v = some a)
    (hb : f.ancestor a = some b) :
    ForestOk T semi i (LoopUnroll.compressNode walk semi f v) := by
  obtain ⟨a', ha', hva, hst, hl⟩ := h.linked hv hi
  obtain rfl : a' = a := Option.some.inj (ha'.symm.trans ha)
  have hia : i < T.num a' := (h.isSome_iff hva).1 (by simp [hb])
  obtain ⟨b', hb', hvb, hst', hl'⟩ := h.linked hva hia
  obtain rfl : b' = b := Option.some.inj (hb'.symm.trans hb)
  have hnode : LoopUnroll.compressNode walk semi f v =
      { ancestor := Function.update f.ancestor v (some b')
        label := Function.update f.label v
          (if T.num (semi (f.label a')) < T.num (semi (f.label v)) then f.label a'
            else f.label v) } := by
    have hla : T.Visited (semi (f.label a')) :=
      h.semi_visited (hvb.trans hl'.below) (hst'.linked _ hl'.below hl'.ne hl'.anc)
    have hlv : T.Visited (semi (f.label v)) :=
      h.semi_visited (hva.trans hl.below) (hst.linked _ hl.below hl.ne hl.anc)
    rw [LoopUnroll.compressNode, ha]
    simp only [hb, hr.num_lt_iff hla hlv]
    by_cases hlt : T.num (semi (f.label a')) < T.num (semi (f.label v))
    · simp [hlt]
    · simp [hlt]
  rw [hnode]
  refine ⟨fun {x} hx hxi => ?_, fun {x} hx hxi => ?_, h.semi_visited⟩
  · have hxv : x ≠ v := by
      rintro rfl
      omega
    simpa [hxv] using h.root hx hxi
  · by_cases hxv : x = v
    · subst hxv
      exact ⟨b', by simp, hvb, hst'.trans hst, by simpa using Least.trans hst' hst hl' hl⟩
    · simpa [hxv] using h.linked hx hxi

/-- **Compression** keeps the forest and brings the entry of the block to a root. -/
theorem compress (h : ForestOk T semi i f) (hr : Reads cfg walk T) {fuel v : ℕ}
    (hv : T.Visited v) (hi : i < T.num v) (hfuel : T.num v ≤ fuel) :
    ForestOk T semi i
        ((compressPath f.ancestor fuel v).reverse.foldl (LoopUnroll.compressNode walk semi) f) ∧
      (∃ a, ((compressPath f.ancestor fuel v).reverse.foldl
          (LoopUnroll.compressNode walk semi) f).ancestor v = some a ∧ T.Visited a ∧
        T.num a ≤ i) ∧
      ∀ x, T.num v < T.num x → ((compressPath f.ancestor fuel v).reverse.foldl
          (LoopUnroll.compressNode walk semi) f).ancestor x = f.ancestor x := by
  induction fuel generalizing v with
  | zero => omega
  | succ fuel ih =>
    obtain ⟨a, ha, hva, hst, hl⟩ := h.linked hv hi
    have hav := hst.num_lt
    by_cases hsome : (f.ancestor a).isSome = true
    · have hia : i < T.num a := (h.isSome_iff hva).1 hsome
      obtain ⟨hok, ⟨b, hb, hvb, hbi⟩, hframe⟩ := ih hva hia (by omega)
      have hpath : compressPath f.ancestor (fuel + 1) v =
          v :: compressPath f.ancestor fuel a := by
        rw [compressPath, ha]
        simp [hsome]
      rw [hpath, List.reverse_cons, List.foldl_append, List.foldl_cons, List.foldl_nil]
      -- the upper part is compressed first, so the entry of `a` is its root by now
      generalize hf₁ : (compressPath f.ancestor fuel a).reverse.foldl
        (LoopUnroll.compressNode walk semi) f = f₁ at hok hb hframe
      have ha₁ : f₁.ancestor v = some a := by
        rw [hframe v hav, ha]
      refine ⟨hok.compressNode hr hv hi ha₁ hb, ⟨b, ?_, hvb, hbi⟩, fun x hx => ?_⟩
      · rw [LoopUnroll.compressNode, ha₁]
        simp [hb]
      · have hxv : x ≠ v := by
          rintro rfl
          omega
        rw [LoopUnroll.compressNode, ha₁]
        simp only [Function.update_of_ne hxv]
        exact hframe x (by omega)
    · have hpath : compressPath f.ancestor (fuel + 1) v = [] := by
        rw [compressPath, ha]
        simp [hsome]
      rw [hpath]
      refine ⟨h, ⟨a, ha, hva, ?_⟩, fun _ _ => rfl⟩
      by_contra hia
      exact hsome ((h.isSome_iff hva).2 (by omega))

/-- **Evaluation** finds the least semidominator over the linked ancestors. -/
theorem eval (h : ForestOk T semi i f) (hr : Reads cfg walk T) {v : ℕ} (hv : T.Visited v) :
    ForestOk T semi i (eval cfg.size walk semi f v).2 ∧
      (T.num v ≤ i → (LoopUnroll.eval cfg.size walk semi f v).1 = v) ∧
      (i < T.num v → T.Anc (LoopUnroll.eval cfg.size walk semi f v).1 v ∧
        T.Visited (LoopUnroll.eval cfg.size walk semi f v).1 ∧
        i < T.num (LoopUnroll.eval cfg.size walk semi f v).1 ∧
        ∀ z, T.Visited z → T.Anc z v → i < T.num z →
          T.num (semi (LoopUnroll.eval cfg.size walk semi f v).1) ≤ T.num (semi z)) := by
  by_cases hi : i < T.num v
  · obtain ⟨a, ha, -⟩ := h.linked hv hi
    have hfuel : T.num v ≤ cfg.size := by
      have := hr.num_lt_count hv
      have := hr.count_le
      omega
    obtain ⟨hok, ⟨b, hb, hvb, hbi⟩, -⟩ := h.compress hr hv hi hfuel
    have heval : LoopUnroll.eval cfg.size walk semi f v =
        ((LoopUnroll.compress cfg.size walk semi f v).label v,
          LoopUnroll.compress cfg.size walk semi f v) := by
      rw [LoopUnroll.eval, ha]
    rw [heval]
    obtain ⟨b', hb', -, hst, hl⟩ := hok.linked hv hi
    obtain rfl : b' = b := Option.some.inj (hb'.symm.trans hb)
    refine ⟨hok, fun hle => by omega, fun _ => ⟨hl.anc, hvb.trans hl.below, ?_, ?_⟩⟩
    · exact hst.linked _ hl.below hl.ne hl.anc
    · intro z hz hzv hzi
      have hbz : T.Anc b' z := hst.anc.comparable hzv (by omega)
      exact hl.le z hbz (by rintro rfl; omega) hzv
  · have heval : LoopUnroll.eval cfg.size walk semi f v = (v, f) := by
      rw [LoopUnroll.eval, (h.root hv (by omega)).1]
    rw [heval]
    exact ⟨h, fun _ => rfl, fun hi' => absurd hi' hi⟩

/-- **Linking** the block numbered `i + 1` below its parent. -/
theorem link (h : ForestOk T semi (i + 1) f) {p w : ℕ} (hw : T.Visited w)
    (hp : T.tree p w) (hpv : T.Visited p) (hnum : T.num w = i + 1) (hs : T.Visited (semi w)) :
    ForestOk T semi i (link f p w) := by
  have hplt := T.num_lt hp
  have hself : ∀ {x}, T.Visited x → T.num x = i + 1 → x = w := fun hx hxi =>
    T.num_inj hx hw (by omega)
  refine ⟨fun {x} hx hxi => ?_, fun {x} hx hxi => ?_, fun {x} hx hxi => ?_⟩
  · have hxw : x ≠ w := by
      rintro rfl
      omega
    simpa [LoopUnroll.link, hxw] using h.root hx (by omega)
  · by_cases hxw : x = w
    · subst hxw
      -- only `x` itself lies on the stretch below its parent
      have honly : ∀ z, T.Anc p z → z ≠ p → T.Anc z x → z = x := fun z hpz hzp hzx => by
        rcases hzx.of_tree hp with rfl | hzp'
        · rfl
        · have := hpz.eq_or_lt.resolve_left (Ne.symm hzp)
          have := hzp'.num_le
          omega
      have hlabel : f.label x = x := (h.root hx (by omega)).2
      refine ⟨p, by simp [LoopUnroll.link], hpv, ⟨.single hp, ?_, fun z hpz hzp hzx => ?_⟩, ?_⟩
      · rintro rfl
        omega
      · rw [honly z hpz hzp hzx]
        exact hxi
      · refine ⟨?_, ?_, ?_, fun z hpz hzp hzx => ?_⟩
        · simp only [LoopUnroll.link, hlabel]
          exact .single hp
        · simp only [LoopUnroll.link, hlabel]
          rintro rfl
          omega
        · simp only [LoopUnroll.link, hlabel]
          exact .refl
        · rw [honly z hpz hzp hzx]
          simp [LoopUnroll.link, hlabel]
    · have hlt : i + 1 < T.num x := by
        have : T.num x ≠ i + 1 := fun hxi => hxw (hself hx hxi)
        omega
      obtain ⟨a, ha, hva, hst, hl⟩ := h.linked hx hlt
      refine ⟨a, by simpa [LoopUnroll.link, hxw] using ha, hva, ⟨hst.anc, hst.ne, ?_⟩, hl⟩
      intro z haz hza hzx
      have := hst.linked z haz hza hzx
      omega
  · by_cases hxw : x = w
    · subst hxw
      exact hs
    · refine h.semi_visited hx ?_
      have : T.num x ≠ i + 1 := fun hxi => hxw (hself hx hxi)
      omega

end ForestOk

end TrustMc.LoopUnroll
