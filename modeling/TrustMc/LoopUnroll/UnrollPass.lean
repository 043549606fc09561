import TrustMc.LoopUnroll.Projection

/-!
# One unrolled loop

The copies of the blocks of a loop are pushed at fresh positions (`CopyInv`), and every copy
gets its own terminator (`foldl_write`). `unrollNaturalLoop_projects` puts them together: the
body with one loop unrolled projects to the body, whatever set of blocks the loop is.
-/

namespace TrustMc.LoopUnroll

variable {M : Mir}

/-! ### Pushed copies -/

/-- The blocks `blocks` extend `orig` by copies: `pos i b` is the position of copy `i` of the
block `b`, for the pairs in `done`. -/
structure CopyInv (orig : List (BasicBlock M)) (done : ℕ → ℕ → Prop)
    (blocks : List (BasicBlock M)) (pos : ℕ → ℕ → ℕ) : Prop where
  le : orig.length ≤ blocks.length
  old : ∀ {x}, x < orig.length → blocks[x]? = orig[x]?
  copy : ∀ {i b}, done i b → orig.length ≤ pos i b ∧ pos i b < blocks.length ∧
    blocks[pos i b]? = orig[b]?
  inj : ∀ {i b j c}, done i b → done j c → pos i b = pos j c → i = j ∧ b = c
  surj : ∀ {x}, orig.length ≤ x → x < blocks.length → ∃ i b, done i b ∧ pos i b = x

namespace CopyInv

variable {orig blocks : List (BasicBlock M)} {done : ℕ → ℕ → Prop} {pos : ℕ → ℕ → ℕ}

theorem start (orig : List (BasicBlock M)) (pos : ℕ → ℕ → ℕ) :
    CopyInv orig (fun _ _ => False) orig pos where
  le := Nat.le_refl _
  old _ := rfl
  copy h := h.elim
  inj h := h.elim
  surj h h' := by omega

/-- The positions matter for the finished pairs only. -/
theorem congr (h : CopyInv orig done blocks pos) {done' : ℕ → ℕ → Prop} {pos' : ℕ → ℕ → ℕ}
    (hdone : ∀ i b, done' i b ↔ done i b) (hpos : ∀ i b, done i b → pos' i b = pos i b) :
    CopyInv orig done' blocks pos' where
  le := h.le
  old := h.old
  copy := fun {i b} hib => by
    rw [hpos i b ((hdone i b).1 hib)]
    exact h.copy ((hdone i b).1 hib)
  inj := fun {i b j c} hib hjc heq => by
    rw [hpos i b ((hdone i b).1 hib), hpos j c ((hdone j c).1 hjc)] at heq
    exact h.inj ((hdone i b).1 hib) ((hdone j c).1 hjc) heq
  surj := fun {x} hx hlt => by
    obtain ⟨i, b, hib, heq⟩ := h.surj hx hlt
    exact ⟨i, b, (hdone i b).2 hib, (hpos i b hib).trans heq⟩

/-- One more copy. -/
theorem push (h : CopyInv orig done blocks pos) {i b : ℕ} {t : BasicBlock M}
    (hb : orig[b]? = some t) (hnew : ¬ done i b) :
    CopyInv orig (fun j c => done j c ∨ (j = i ∧ c = b)) (blocks ++ [t])
      (fun j c => if j = i ∧ c = b then blocks.length else pos j c) := by
  have hold : ∀ {j c}, done j c → ¬ (j = i ∧ c = b) := by
    rintro j c hjc ⟨rfl, rfl⟩
    exact hnew hjc
  have hle := h.le
  refine ⟨by simp; omega, fun {x} hx => ?_, fun {j c} hjc => ?_, fun {j c k e} hjc hke heq => ?_,
    fun {x} hx hlt => ?_⟩
  · rw [List.getElem?_append_left (by omega)]
    exact h.old hx
  · rcases hjc with hjc | ⟨rfl, rfl⟩
    · obtain ⟨h₁, h₂, h₃⟩ := h.copy hjc
      rw [if_neg (hold hjc), List.getElem?_append_left h₂]
      exact ⟨h₁, by simp; omega, h₃⟩
    · simp [hb, hle]
  · rcases hjc with hjc | hjc <;> rcases hke with hke | hke
    · rw [if_neg (hold hjc), if_neg (hold hke)] at heq
      exact h.inj hjc hke heq
    · rw [if_neg (hold hjc), if_pos hke] at heq
      have := (h.copy hjc).2.1
      omega
    · rw [if_pos hjc, if_neg (hold hke)] at heq
      have := (h.copy hke).2.1
      omega
    · exact ⟨hjc.1.trans hke.1.symm, hjc.2.trans hke.2.symm⟩
  · rw [List.length_append, List.length_singleton] at hlt
    by_cases hlast : x < blocks.length
    · obtain ⟨j, c, hjc, hpos⟩ := h.surj hx hlast
      exact ⟨j, c, .inl hjc, by rw [if_neg (hold hjc), hpos]⟩
    · exact ⟨i, b, .inr ⟨rfl, rfl⟩, by simp; omega⟩

end CopyInv

/-- The map of a copy under way sends the finished blocks to their copies. -/
theorem foldl_pushCopy {orig : List (BasicBlock M)} {i : ℕ}
    {templates : List (ℕ × BasicBlock M)} (hnd : (templates.map Prod.fst).Nodup)
    (htemplates : ∀ p ∈ templates, orig[p.1]? = some p.2)
    {done : ℕ → ℕ → Prop} {blocks : List (BasicBlock M)} {map : BlockMap} {pos : ℕ → ℕ → ℕ}
    (hnew : ∀ b ∈ templates.map Prod.fst, ¬ done i b) (h : CopyInv orig done blocks pos)
    (hpos : ∀ b, done i b → pos i b = map.get b) :
    ∃ blocks' map', templates.foldl
        (fun (blocks, map) (bb, template) =>
          (blocks ++ [template], (⟨Function.update map.remaps bb (some blocks.length)⟩ : BlockMap)))
        (blocks, map) = (blocks', map') ∧
      CopyInv orig (fun j b => done j b ∨ (j = i ∧ b ∈ templates.map Prod.fst)) blocks'
        (fun j b => if j = i then map'.get b else pos j b) ∧
      ∀ b, b ∉ templates.map Prod.fst → map'.remaps b = map.remaps b := by
  induction templates generalizing done blocks map pos with
  | nil =>
    refine ⟨blocks, map, rfl, h.congr (by simp) fun j b hjb => ?_, fun _ _ => rfl⟩
    by_cases hj : j = i
    · subst hj
      rw [if_pos rfl, hpos b hjb]
    · rw [if_neg hj]
  | cons p templates ih =>
    obtain ⟨b, t⟩ := p
    rw [List.map_cons, List.nodup_cons] at hnd
    have hb : orig[b]? = some t := htemplates (b, t) List.mem_cons_self
    have hpush := h.push hb (hnew b (by simp))
    obtain ⟨blocks', map', hfold, hinv, hother⟩ :=
      @ih hnd.2 (fun p hp => htemplates p (List.mem_cons_of_mem _ hp))
        (fun j c => done j c ∨ (j = i ∧ c = b)) (blocks ++ [t])
        ⟨Function.update map.remaps b (some blocks.length)⟩
        (fun j c => if j = i ∧ c = b then blocks.length else pos j c)
        (fun c hc => by
          rintro (hic | ⟨-, rfl⟩)
          · exact hnew c (List.mem_cons_of_mem _ hc) hic
          · exact hnd.1 hc)
        hpush
        (fun c hc => by
          by_cases hcb : c = b
          · simp [hcb, BlockMap.get]
          · have hic : done i c := hc.resolve_right fun h => hcb h.2
            simp only [hcb, and_false, if_false]
            rw [hpos c hic]
            simp [BlockMap.get, hcb])
    refine ⟨blocks', map', hfold, hinv.congr (fun j c => ?_) fun j c hjc => ?_, fun c hc => ?_⟩
    · simp only [List.map_cons, List.mem_cons]
      constructor
      · rintro (hd | ⟨hj, rfl | hc⟩)
        · exact .inl (.inl hd)
        · exact .inl (.inr ⟨hj, rfl⟩)
        · exact .inr ⟨hj, hc⟩
      · rintro ((hd | ⟨hj, rfl⟩) | ⟨hj, hc⟩)
        · exact .inl hd
        · exact .inr ⟨hj, .inl rfl⟩
        · exact .inr ⟨hj, .inr hc⟩
    · by_cases hj : j = i
      · simp [hj]
      · simp [hj]
    · rw [List.map_cons, List.mem_cons, not_or] at hc
      rw [hother c hc.2]
      simp [hc.1]

/-- The copies `iter + 1, …, iter + count`. -/
theorem pushCopies_inv {orig : List (BasicBlock M)} {templates : List (ℕ × BasicBlock M)}
    (hnd : (templates.map Prod.fst).Nodup)
    (htemplates : ∀ p ∈ templates, orig[p.1]? = some p.2) {count iter : ℕ}
    {blocks : List (BasicBlock M)} {maps : ℕ → BlockMap}
    (h : CopyInv orig (fun j b => 0 < j ∧ j ≤ iter ∧ b ∈ templates.map Prod.fst) blocks
      (fun j b => (maps j).get b)) (hother : ∀ j b, b ∉ templates.map Prod.fst →
        (maps j).get b = b) (hzero : maps 0 = BlockMap.identity) :
    ∃ blocks' maps', pushCopies templates count iter blocks maps = (blocks', maps') ∧
      CopyInv orig (fun j b => 0 < j ∧ j ≤ iter + count ∧ b ∈ templates.map Prod.fst) blocks'
        (fun j b => (maps' j).get b) ∧
      (∀ j b, b ∉ templates.map Prod.fst → (maps' j).get b = b) ∧
      maps' 0 = BlockMap.identity := by
  induction count generalizing iter blocks maps with
  | zero => exact ⟨blocks, maps, rfl, h, hother, hzero⟩
  | succ count ih =>
    obtain ⟨blocks₁, map₁, hfold, hinv, hmap⟩ :=
      @foldl_pushCopy M orig (iter + 1) templates hnd htemplates _ blocks BlockMap.identity _
        (fun b _ hdone => by omega) h (fun b hdone => by omega)
    have hcopy : pushCopy blocks templates = (blocks₁, map₁) := hfold
    rw [pushCopies, hcopy]
    obtain ⟨blocks', maps', hpush, hinv', hother', hzero'⟩ :=
      @ih (iter + 1) blocks₁ (Function.update maps (iter + 1) map₁)
        (hinv.congr (fun j b => by
            constructor
            · rintro ⟨hpos, hle, hb⟩
              by_cases hj : j = iter + 1
              · exact .inr ⟨hj, hb⟩
              · exact .inl ⟨hpos, by omega, hb⟩
            · rintro (⟨hpos, hle, hb⟩ | ⟨rfl, hb⟩)
              · exact ⟨hpos, by omega, hb⟩
              · exact ⟨by omega, Nat.le_refl _, hb⟩)
          fun j b _ => by
            by_cases hj : j = iter + 1
            · simp [hj]
            · simp [hj])
        (fun j b hb => by
          by_cases hj : j = iter + 1
          · subst hj
            rw [Function.update_self, BlockMap.get, hmap b hb]
            rfl
          · rw [Function.update_of_ne hj]
            exact hother j b hb)
        (by rw [Function.update_of_ne (by omega), hzero])
    refine ⟨blocks', maps', hpush, hinv'.congr (fun j b => ?_) fun _ _ _ => rfl, hother', hzero'⟩
    rw [Nat.add_right_comm, Nat.add_assoc]

/-! ### Rewritten terminators -/

/-- Terminators written at distinct positions. -/
theorem foldl_write {writes : List (ℕ × Terminator M)} (hnd : (writes.map Prod.fst).Nodup)
    (blocks : List (BasicBlock M)) :
    (∀ p ∈ writes, (writes.foldl (fun blocks p => setTerminator blocks p.1 p.2) blocks)[p.1]? =
        (blocks[p.1]?).map fun block => { block with terminator := p.2 }) ∧
      (∀ x, x ∉ writes.map Prod.fst →
        (writes.foldl (fun blocks p => setTerminator blocks p.1 p.2) blocks)[x]? = blocks[x]?) := by
  induction writes generalizing blocks with
  | nil => simp
  | cons w writes ih =>
    rw [List.map_cons, List.nodup_cons] at hnd
    obtain ⟨hin, hout⟩ := ih hnd.2 (setTerminator blocks w.1 w.2)
    have hset : ∀ x, (setTerminator blocks w.1 w.2)[x]? =
        if w.1 = x then (blocks[x]?).map fun block => { block with terminator := w.2 }
        else blocks[x]? := fun x => by
      rw [setTerminator, List.getElem?_modify]
      by_cases hx : w.1 = x
      · simp [hx]
      · cases hb : blocks[x]? <;> simp [hx]
    refine ⟨fun p hp => ?_, fun x hx => ?_⟩
    · rw [List.foldl_cons]
      rcases List.mem_cons.1 hp with rfl | hp
      · rw [hout _ hnd.1, hset, if_pos rfl]
      · have hne : w.1 ≠ p.1 := fun h => hnd.1 (h ▸ List.mem_map_of_mem hp)
        rw [hin p hp, hset, if_neg hne]
    · rw [List.map_cons, List.mem_cons, not_or] at hx
      rw [List.foldl_cons, hout x hx.2, hset, if_neg (Ne.symm hx.1)]

/-- All terminators of the copies, in the order in which they are written. -/
def writes (templates : List (ℕ × BasicBlock M)) (ucx : UnrollContext) (depth : ℕ) :
    List (ℕ × Terminator M) :=
  (List.range (depth + 1)).flatMap fun iter => templates.map fun p =>
    ((ucx.maps iter).get p.1, rewriteTerminator p.2.terminator iter p.1 ucx)

theorem foldl_rewriteCopy (templates : List (ℕ × BasicBlock M)) (ucx : UnrollContext)
    (depth : ℕ) (blocks : List (BasicBlock M)) :
    (List.range (depth + 1)).foldl (rewriteCopy templates ucx) blocks =
      (writes templates ucx depth).foldl (fun blocks p => setTerminator blocks p.1 p.2)
        blocks := by
  rw [writes, List.foldl_flatMap]
  congr 1
  funext blocks iter
  rw [List.foldl_map]
  rfl

/-! ### The unrolled body -/

/-- What a natural loop is made of, as far as the unrolling goes. -/
structure NaturalLoop.Of (lp : NaturalLoop) (n : ℕ) : Prop where
  nodup : lp.blocks.Nodup
  lt : ∀ b ∈ lp.blocks, b < n
  mem_iff : ∀ b < n, lp.inLoop b = true ↔ b ∈ lp.blocks
  header : lp.header ∈ lp.blocks

/-- The blocks of the unrolled body: copies at the positions `pos`, with their own terminators,
and two end blocks. -/
structure Unrolled (body body' : Body M) (lp : NaturalLoop) (ucx : UnrollContext) : Prop where
  map_zero : ucx.maps 0 = BlockMap.identity
  map_other : ∀ i b, b ∉ lp.blocks → (ucx.maps i).get b = b
  outside : ∀ {x}, x < body.blocks.length → x ∉ lp.blocks → body'.blocks[x]? = body.blocks[x]?
  copy : ∀ {i b block}, i ≤ ucx.unwindDepth → b ∈ lp.blocks → body.blocks[b]? = some block →
    body'.blocks[(ucx.maps i).get b]? =
      some { block with terminator := rewriteTerminator block.terminator i b ucx }
  fresh : ∀ {i b}, 0 < i → i ≤ ucx.unwindDepth → b ∈ lp.blocks →
    body.blocks.length ≤ (ucx.maps i).get b ∧ (ucx.maps i).get b < ucx.failBb
  inj : ∀ {i b j c}, 0 < i → i ≤ ucx.unwindDepth → b ∈ lp.blocks → 0 < j →
    j ≤ ucx.unwindDepth → c ∈ lp.blocks → (ucx.maps i).get b = (ucx.maps j).get c → b = c
  surj : ∀ {x}, body.blocks.length ≤ x → x < ucx.failBb →
    ∃ i b, 0 < i ∧ i ≤ ucx.unwindDepth ∧ b ∈ lp.blocks ∧ (ucx.maps i).get b = x
  le_fail : body.blocks.length ≤ ucx.failBb
  silent : ucx.silentFailBb = ucx.failBb + 1
  fail : ∃ span, body'.blocks[ucx.failBb]? =
    some { statements := [], terminator := { kind := .unreachable, span } }
  silentFail : ∃ span, body'.blocks[ucx.silentFailBb]? =
    some { statements := [], terminator := { kind := .return, span } }
  length : body'.blocks.length = ucx.failBb + 2

theorem setTerminator_length (blocks : List (BasicBlock M)) (bb : ℕ) (term : Terminator M) :
    (setTerminator blocks bb term).length = blocks.length := by
  simp [setTerminator]

theorem foldl_write_length (writes : List (ℕ × Terminator M)) (blocks : List (BasicBlock M)) :
    (writes.foldl (fun blocks p => setTerminator blocks p.1 p.2) blocks).length =
      blocks.length := by
  induction writes generalizing blocks with
  | nil => rfl
  | cons w writes ih => rw [List.foldl_cons, ih, setTerminator_length]

section Copies

variable {body : Body M} {lp : NaturalLoop}

/-- The blocks that every iteration copies. -/
def loopTemplates (body : Body M) (lp : NaturalLoop) : List (ℕ × BasicBlock M) :=
  lp.blocks.filterMap fun bb => (body.blocks[bb]?).map fun block => (bb, block)

theorem getElem?_of_mem_loopTemplates {p : ℕ × BasicBlock M} (hp : p ∈ loopTemplates body lp) :
    body.blocks[p.1]? = some p.2 := by
  rw [loopTemplates, List.mem_filterMap] at hp
  obtain ⟨b, -, hp⟩ := hp
  obtain ⟨block, hblock, rfl⟩ := Option.map_eq_some_iff.1 hp
  exact hblock

theorem map_fst_loopTemplates (hlp : lp.Of body.blocks.length) :
    (loopTemplates body lp).map Prod.fst = lp.blocks := by
  rw [loopTemplates, List.map_filterMap]
  have hall : ∀ b ∈ lp.blocks,
      Option.map Prod.fst ((body.blocks[b]?).map fun block => (b, block)) = some b := by
    intro b hb
    simp [List.getElem?_eq_getElem (hlp.lt b hb)]
  rw [List.filterMap_congr hall]
  simp

/-- The positions of the copies, of which those of the first iteration are the blocks
themselves. -/
structure Placed (lp : NaturalLoop) (n total : ℕ) (ucx : UnrollContext) : Prop where
  zero : ucx.maps 0 = BlockMap.identity
  ge : ∀ {i b}, 0 < i → i ≤ ucx.unwindDepth → b ∈ lp.blocks → n ≤ (ucx.maps i).get b
  lt : ∀ {i b}, i ≤ ucx.unwindDepth → b ∈ lp.blocks → (ucx.maps i).get b < total
  inj : ∀ {i b j c}, i ≤ ucx.unwindDepth → b ∈ lp.blocks → j ≤ ucx.unwindDepth → c ∈ lp.blocks →
    (ucx.maps i).get b = (ucx.maps j).get c → i = j ∧ b = c

/-- The copies that were pushed are placed. -/
theorem CopyInv.placed {blocks : List (BasicBlock M)} {ucx : UnrollContext}
    (hlp : lp.Of body.blocks.length) (hzero : ucx.maps 0 = BlockMap.identity)
    (hinv : CopyInv body.blocks (fun j b => 0 < j ∧ j ≤ ucx.unwindDepth ∧ b ∈ lp.blocks) blocks
      fun j b => (ucx.maps j).get b) :
    Placed lp body.blocks.length blocks.length ucx := by
  have hzero' : ∀ b, (ucx.maps 0).get b = b := fun b => by
    rw [hzero]
    rfl
  have hge : ∀ {i b}, 0 < i → i ≤ ucx.unwindDepth → b ∈ lp.blocks →
      body.blocks.length ≤ (ucx.maps i).get b := fun hpos hi hb => (hinv.copy ⟨hpos, hi, hb⟩).1
  refine ⟨hzero, hge, fun {i b} hi hb => ?_, fun {i b j c} hi hb hj hc heq => ?_⟩
  · rcases Nat.eq_zero_or_pos i with rfl | hpos
    · rw [hzero']
      exact (hlp.lt b hb).trans_le hinv.le
    · exact (hinv.copy ⟨hpos, hi, hb⟩).2.1
  · -- a block is no copy
    rcases Nat.eq_zero_or_pos i with rfl | hipos <;>
      rcases Nat.eq_zero_or_pos j with rfl | hjpos
    · rw [hzero', hzero'] at heq
      exact ⟨rfl, heq⟩
    · rw [hzero'] at heq
      exact absurd (hge hjpos hj hc) (Nat.not_le.2 (heq ▸ hlp.lt b hb))
    · rw [hzero'] at heq
      exact absurd (hge hipos hi hb) (Nat.not_le.2 (heq.symm ▸ hlp.lt c hc))
    · exact hinv.inj ⟨hipos, hi, hb⟩ ⟨hjpos, hj, hc⟩ heq

/-- At the position of a copy stands the block, before terminators are written. -/
theorem CopyInv.getElem?_get {blocks : List (BasicBlock M)} {ucx : UnrollContext}
    (hlp : lp.Of body.blocks.length) (hzero : ucx.maps 0 = BlockMap.identity)
    (hinv : CopyInv body.blocks (fun j b => 0 < j ∧ j ≤ ucx.unwindDepth ∧ b ∈ lp.blocks) blocks
      fun j b => (ucx.maps j).get b) {i b : ℕ} (hi : i ≤ ucx.unwindDepth) (hb : b ∈ lp.blocks) :
    blocks[(ucx.maps i).get b]? = body.blocks[b]? := by
  rcases Nat.eq_zero_or_pos i with rfl | hpos
  · rw [hzero]
    exact hinv.old (hlp.lt b hb)
  · exact (hinv.copy ⟨hpos, hi, hb⟩).2.2

theorem map_fst_writes (hlp : lp.Of body.blocks.length) (ucx : UnrollContext) (depth : ℕ) :
    (writes (loopTemplates body lp) ucx depth).map Prod.fst =
      (List.range (depth + 1)).flatMap fun i => lp.blocks.map (ucx.maps i).get := by
  rw [writes, List.map_flatMap, ← map_fst_loopTemplates hlp]
  simp [Function.comp_def]

/-- Terminators are written at the positions of the copies. -/
theorem mem_map_fst_writes (hlp : lp.Of body.blocks.length) {ucx : UnrollContext} {depth x : ℕ} :
    x ∈ (writes (loopTemplates body lp) ucx depth).map Prod.fst ↔
      ∃ i ≤ depth, ∃ b ∈ lp.blocks, (ucx.maps i).get b = x := by
  rw [map_fst_writes hlp]
  simp

theorem Placed.nodup_writes {n total : ℕ} {ucx : UnrollContext} (h : Placed lp n total ucx)
    (hlp : lp.Of body.blocks.length) :
    ((writes (loopTemplates body lp) ucx ucx.unwindDepth).map Prod.fst).Nodup := by
  rw [map_fst_writes hlp, List.nodup_flatMap]
  refine ⟨fun i hi => ?_, ?_⟩
  · have hi' : i ≤ ucx.unwindDepth := by simpa using hi
    exact hlp.nodup.map_on fun b hb c hc heq => (h.inj hi' hb hi' hc heq).2
  · refine List.nodup_range.imp_of_mem fun {i j} hi hj hij x hx hx' => ?_
    have hi' : i ≤ ucx.unwindDepth := by simpa using hi
    have hj' : j ≤ ucx.unwindDepth := by simpa using hj
    obtain ⟨b, hb, rfl⟩ := List.mem_map.1 hx
    obtain ⟨c, hc, heq⟩ := List.mem_map.1 hx'
    exact hij (h.inj hj' hc hi' hb heq).1.symm

/-- Blocks with two end blocks after them. -/
def withEnds (blocks : List (BasicBlock M)) (span : M.Span) : List (BasicBlock M) :=
  blocks ++ [{ statements := [], terminator := { kind := .unreachable, span } }] ++
    [{ statements := [], terminator := { kind := .return, span } }]

theorem withEnds_of_lt {blocks : List (BasicBlock M)} {span : M.Span} {x : ℕ}
    (hx : x < blocks.length) : (withEnds blocks span)[x]? = blocks[x]? := by
  rw [withEnds, List.append_assoc, List.getElem?_append_left hx]

theorem withEnds_fail (blocks : List (BasicBlock M)) (span : M.Span) :
    (withEnds blocks span)[blocks.length]? =
      some { statements := [], terminator := { kind := .unreachable, span } } := by
  simp [withEnds]

theorem withEnds_silentFail (blocks : List (BasicBlock M)) (span : M.Span) :
    (withEnds blocks span)[blocks.length + 1]? =
      some { statements := [], terminator := { kind := .return, span } } := by
  simp [withEnds]

/-- The unrolled body is the copies and the end blocks, with terminators written over them. -/
theorem unrollNaturalLoop_blocks (hlp : lp.Of body.blocks.length) (depth : ℕ) (ua : Bool) :
    ∃ blocks maps span,
      CopyInv body.blocks (fun j b => 0 < j ∧ j ≤ depth ∧ b ∈ lp.blocks) blocks
        (fun j b => (maps j).get b) ∧
      (∀ i b, b ∉ lp.blocks → (maps i).get b = b) ∧ maps 0 = BlockMap.identity ∧
      (unrollNaturalLoop body lp depth ua).blocks =
        (writes (loopTemplates body lp)
          ⟨lp, maps, depth, blocks.length, blocks.length + 1, ua⟩ depth).foldl
            (fun blocks p => setTerminator blocks p.1 p.2) (withEnds blocks span) := by
  have hkeys := map_fst_loopTemplates hlp
  have hstart : CopyInv body.blocks
      (fun j b => 0 < j ∧ j ≤ 0 ∧ b ∈ (loopTemplates body lp).map Prod.fst) body.blocks
      fun _ b => BlockMap.identity.get b := by
    refine (CopyInv.start body.blocks fun _ b => b).congr (fun j b => ?_) fun _ _ h => h.elim
    exact iff_of_false (fun h => by omega) id
  obtain ⟨blocks, maps, hpush, hinv, hother, hzero⟩ :=
    @pushCopies_inv M body.blocks (loopTemplates body lp) (hkeys ▸ hlp.nodup)
      (fun p hp => getElem?_of_mem_loopTemplates hp) depth 0 body.blocks
      (fun _ => BlockMap.identity) hstart (fun _ _ _ => rfl) rfl
  rw [hkeys] at hinv hother
  rw [Nat.zero_add] at hinv
  obtain ⟨header, hheader⟩ : ∃ block, body.blocks[lp.header]? = some block :=
    ⟨_, List.getElem?_eq_getElem (hlp.lt lp.header hlp.header)⟩
  refine ⟨blocks, maps, header.terminator.span, hinv, hother, hzero, ?_⟩
  rw [← foldl_rewriteCopy, unrollNaturalLoop, ← loopTemplates, hpush, hheader, withEnds]
  simp

end Copies

/-- **The blocks of the unrolled body.** -/
theorem unrollNaturalLoop_unrolled {body : Body M} {lp : NaturalLoop}
    (hlp : lp.Of body.blocks.length) (depth : ℕ) (ua : Bool) :
    ∃ ucx, ucx.lp = lp ∧ ucx.unwindDepth = depth ∧ ucx.unwindingAssertions = ua ∧
      Unrolled body (unrollNaturalLoop body lp depth ua) lp ucx := by
  obtain ⟨blocks, maps, span, hinv, hother, hzero, hbody⟩ := unrollNaturalLoop_blocks hlp depth ua
  refine ⟨⟨lp, maps, depth, blocks.length, blocks.length + 1, ua⟩, rfl, rfl, rfl, ?_⟩
  have hplaced : Placed lp body.blocks.length blocks.length
      ⟨lp, maps, depth, blocks.length, blocks.length + 1, ua⟩ := CopyInv.placed hlp hzero hinv
  obtain ⟨hin, hout⟩ := foldl_write (hplaced.nodup_writes hlp) (withEnds blocks span)
  have hends : ∀ {x}, blocks.length ≤ x → (unrollNaturalLoop body lp depth ua).blocks[x]? =
      (withEnds blocks span)[x]? := by
    intro x hx
    rw [hbody, hout x fun hmem => ?_]
    obtain ⟨i, hi, b, hb, rfl⟩ := (mem_map_fst_writes hlp).1 hmem
    exact absurd (hplaced.lt hi hb) (Nat.not_lt.2 hx)
  exact
    { map_zero := hzero
      map_other := hother
      outside := fun {x} hx hxl => by
        rw [hbody, hout x fun hmem => ?_, withEnds_of_lt (hx.trans_le hinv.le), hinv.old hx]
        obtain ⟨i, hi, b, hb, rfl⟩ := (mem_map_fst_writes hlp).1 hmem
        rcases Nat.eq_zero_or_pos i with rfl | hpos
        · rw [hplaced.zero] at hxl
          exact hxl hb
        · exact absurd (hplaced.ge hpos hi hb) (Nat.not_le.2 hx)
      copy := fun {i b block} hi hb hblock => by
        obtain ⟨q, hq, rfl⟩ : ∃ q ∈ loopTemplates body lp, q.1 = b := by
          rw [← map_fst_loopTemplates hlp] at hb
          simpa using hb
        obtain rfl : q.2 = block :=
          Option.some.inj ((getElem?_of_mem_loopTemplates hq).symm.trans hblock)
        have hold := (@withEnds_of_lt M blocks span _ (hplaced.lt hi hb)).trans
          ((CopyInv.getElem?_get hlp hzero hinv hi hb).trans hblock)
        rw [hbody, hin (_, _) (List.mem_flatMap.2
          ⟨i, by simpa using Nat.lt_succ_of_le hi, List.mem_map_of_mem hq⟩), hold]
        rfl
      fresh := fun hpos hi hb => ⟨hplaced.ge hpos hi hb, hplaced.lt hi hb⟩
      inj := fun _ hi hb _ hj hc heq => (hplaced.inj hi hb hj hc heq).2
      surj := fun {x} hx hlt => by
        obtain ⟨i, b, ⟨hpos, hi, hb⟩, heq⟩ := hinv.surj hx hlt
        exact ⟨i, b, hpos, hi, hb, heq⟩
      le_fail := hinv.le
      silent := rfl
      fail := ⟨span, (hends (Nat.le_refl _)).trans (withEnds_fail blocks span)⟩
      silentFail := ⟨span, (hends (Nat.le_succ _)).trans (withEnds_silentFail blocks span)⟩
      length := by
        rw [hbody, foldl_write_length]
        simp [withEnds] }

/-! ### The projection -/

section Projection

variable {body body' : Body M} {lp : NaturalLoop} {ucx : UnrollContext}

open Classical in
/-- The block that a block of the unrolled body copies. -/
noncomputable def origin (n : ℕ) (lp : NaturalLoop) (ucx : UnrollContext) (x : ℕ) : Option ℕ :=
  if x < n then some x
  else if h : ∃ b i, 0 < i ∧ i ≤ ucx.unwindDepth ∧ b ∈ lp.blocks ∧ (ucx.maps i).get b = x then
    some h.choose
  else none

theorem origin_old {n x : ℕ} (hx : x < n) : origin n lp ucx x = some x := if_pos hx

theorem Unrolled.origin_copy (h : Unrolled body body' lp ucx) (hlp : lp.Of body.blocks.length)
    {i b : ℕ} (hi : i ≤ ucx.unwindDepth) (hb : b ∈ lp.blocks) :
    origin body.blocks.length lp ucx ((ucx.maps i).get b) = some b := by
  rcases Nat.eq_zero_or_pos i with rfl | hpos
  · have hself : (ucx.maps 0).get b = b := by
      rw [h.map_zero]
      rfl
    rw [hself]
    exact origin_old (hlp.lt b hb)
  · have hge := (h.fresh hpos hi hb).1
    have hex : ∃ c j, 0 < j ∧ j ≤ ucx.unwindDepth ∧ c ∈ lp.blocks ∧
        (ucx.maps j).get c = (ucx.maps i).get b := ⟨b, i, hpos, hi, hb, rfl⟩
    rw [origin, if_neg (by omega), dif_pos hex]
    obtain ⟨j, hj, hjd, hc, heq⟩ := hex.choose_spec
    rw [h.inj hj hjd hc hpos hi hb heq]

theorem Unrolled.origin_none (h : Unrolled body body' lp ucx) {x : ℕ} (hx : ucx.failBb ≤ x) :
    origin body.blocks.length lp ucx x = none := by
  have hle := h.le_fail
  rw [origin, if_neg (by omega), dif_neg]
  rintro ⟨b, i, hpos, hi, hb, rfl⟩
  have := (h.fresh hpos hi hb).2
  omega

theorem origin_some {x v : ℕ}
    (hx : origin body.blocks.length lp ucx x = some v) :
    (x = v ∧ v < body.blocks.length) ∨
      ∃ i ≤ ucx.unwindDepth, v ∈ lp.blocks ∧ (ucx.maps i).get v = x := by
  rw [origin] at hx
  split at hx
  · obtain rfl := Option.some.inj hx
    exact .inl ⟨rfl, by assumption⟩
  · split at hx
    · rename_i hex
      obtain ⟨i, hpos, hi, hb, heq⟩ := hex.choose_spec
      obtain rfl := Option.some.inj hx
      exact .inr ⟨i, hi, hb, heq⟩
    · simp at hx

/-- The block for runs beyond the bound is an end block. -/
theorem Unrolled.cut (h : Unrolled body body' lp ucx) :
    origin body.blocks.length lp ucx ucx.cut = none ∧
      Cut ucx.unwindingAssertions body' ucx.cut := by
  have hsilent := h.silent
  rw [UnrollContext.cut]
  cases hua : ucx.unwindingAssertions with
  | true =>
    obtain ⟨span, hspan⟩ := h.fail
    exact ⟨h.origin_none (Nat.le_refl _), _, hspan, rfl, rfl⟩
  | false =>
    obtain ⟨span, hspan⟩ := h.silentFail
    exact ⟨h.origin_none (by simp; omega), _, hspan, rfl, rfl⟩

/-- **The body with one loop unrolled projects to the body.** -/
theorem Unrolled.projects (h : Unrolled body body' lp ucx) (hlp : lp.Of body.blocks.length)
    (hucx : ucx.lp = lp) (hv : body.Valid) :
    Projects ucx.unwindingAssertions body body' (origin body.blocks.length lp ucx) := by
  have hself : ∀ {block : BasicBlock M} {v}, body.blocks[v]? = some block →
      ∀ t ∈ block.terminator.kind.exits true, t < body.blocks.length := fun hb t ht =>
    hv.exits_lt _ (List.mem_of_getElem? hb) t ht
  -- one copy of one block of the loop
  have hcopy : ∀ {i b block}, i ≤ ucx.unwindDepth → b ∈ lp.blocks →
      body.blocks[b]? = some block → block.terminator.kind.Copy
        (fun w y => origin body.blocks.length lp ucx y = some w ∨
          (origin body.blocks.length lp ucx y = none ∧ Cut ucx.unwindingAssertions body' y))
        (rewriteTerminator block.terminator i b ucx).kind := fun {i b block} hi hb hblock => by
    refine rewriteTerminator_copy (fun t ht => .inl (origin_old (hself hblock t ht)))
      (fun t ht => ?_) (fun t ht => ?_)
    · have htn := hself hblock t ht
      rw [remapTarget, hucx]
      by_cases hin : lp.inLoop t = true
      · have htb := (hlp.mem_iff t htn).1 hin
        rw [if_neg (by simp [hin])]
        split
        · exact .inr h.cut
        · split
          · rename_i hheader
            split
            · subst hheader
              exact .inl (h.origin_copy hlp (by omega) htb)
            · exact .inr h.cut
          · exact .inl (h.origin_copy hlp hi htb)
      · rw [if_pos (by simpa using hin)]
        exact .inl (origin_old htn)
    · by_cases htb : t ∈ lp.blocks
      · exact .inl (h.origin_copy hlp hi htb)
      · rw [h.map_other i t htb]
        exact .inl (origin_old (hself hblock t ht))
  refine ⟨origin_old hv.nonempty, fun {x v} hx => ?_, fun {x block'} hx hnone => ?_⟩
  · rcases origin_some hx with ⟨rfl, hlt⟩ | ⟨i, hi, hb, rfl⟩
    · have hblock : body.blocks[x]? = some body.blocks[x] := List.getElem?_eq_getElem hlt
      by_cases hxl : x ∈ lp.blocks
      · have hx0 : (ucx.maps 0).get x = x := by
          rw [h.map_zero]
          rfl
        have hget := h.copy (i := 0) (Nat.zero_le _) hxl hblock
        rw [hx0] at hget
        exact ⟨_, _, hblock, hget, rfl, hcopy (Nat.zero_le _) hxl hblock⟩
      · refine ⟨_, _, hblock, by rw [h.outside hlt hxl, hblock], rfl, .refl fun t ht => ?_⟩
        exact .inl (origin_old (hself hblock t ht))
    · have hlt := hlp.lt v hb
      have hblock : body.blocks[v]? = some body.blocks[v] := List.getElem?_eq_getElem hlt
      exact ⟨_, _, hblock, h.copy hi hb hblock, rfl, hcopy hi hb hblock⟩
  · have hlt := lt_of_getElem?_eq_some hx
    rw [h.length] at hlt
    have hge : ucx.failBb ≤ x := by
      by_contra hlow
      by_cases hxn : x < body.blocks.length
      · rw [origin_old hxn] at hnone
        simp at hnone
      · obtain ⟨i, b, -, hi, hb, rfl⟩ := h.surj (Nat.le_of_not_lt hxn) (by omega)
        rw [h.origin_copy hlp hi hb] at hnone
        simp at hnone
    have hsilent := h.silent
    rcases (show x = ucx.failBb ∨ x = ucx.silentFailBb by omega) with rfl | rfl
    · obtain ⟨span, hspan⟩ := h.fail
      obtain rfl := Option.some.inj (hspan.symm.trans hx)
      exact ⟨rfl, .inl rfl⟩
    · obtain ⟨span, hspan⟩ := h.silentFail
      obtain rfl := Option.some.inj (hspan.symm.trans hx)
      exact ⟨rfl, .inr rfl⟩

theorem unrollNaturalLoop_projects (hlp : lp.Of body.blocks.length) (hv : body.Valid)
    (depth : ℕ) (ua : Bool) :
    ∃ pr, Projects ua body (unrollNaturalLoop body lp depth ua) pr := by
  obtain ⟨ucx, hucx, -, rfl, h⟩ := unrollNaturalLoop_unrolled hlp depth ua
  exact ⟨_, h.projects hlp hucx hv⟩

end Projection

end TrustMc.LoopUnroll
