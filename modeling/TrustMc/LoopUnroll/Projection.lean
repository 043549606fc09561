import TrustMc.LoopUnroll.Unroll

/-!
# Unrolled bodies project to their originals

`Projects ua body body' pr` relates a body to an unrolled one: the partial map `pr` sends every
copied block to its original, with the same statements and the same terminator up to targets,
and every other block is a block where runs beyond the bound end. The rounds of the pass compose
(`Projects.trans`).

* `Projects.path`: a path of the unrolled body that meets copies only projects to a path.
* `Projects.lift`: every path of the body is such a projection, or a prefix of it leads to an
  end block.
-/

namespace TrustMc.LoopUnroll

variable {M : Mir}

/-! ### Copies of terminators -/

/-- The same unwind action, its target related by `R`. -/
inductive UnwindAction.Copy (R : ℕ → ℕ → Prop) : UnwindAction → UnwindAction → Prop
  | continue : Copy R .continue .continue
  | unreachable : Copy R .unreachable .unreachable
  | terminate : Copy R .terminate .terminate
  | cleanup {bb bb' : ℕ} (h : R bb bb') : Copy R (.cleanup bb) (.cleanup bb')

/-- The same terminator, target by target related by `R`. -/
inductive TerminatorKind.Copy (R : ℕ → ℕ → Prop) : TerminatorKind M → TerminatorKind M → Prop
  | goto {t t' : ℕ} (h : R t t') : Copy R (.goto t) (.goto t')
  | switchInt {discr : M.Operand} {branches branches' : List (ℕ × ℕ)} {t t' : ℕ}
      (hb : List.Forall₂ (fun b b' => b.1 = b'.1 ∧ R b.2 b'.2) branches branches') (h : R t t') :
      Copy R (.switchInt discr branches t) (.switchInt discr branches' t')
  | resume : Copy R .resume .resume
  | abort : Copy R .abort .abort
  | return : Copy R .return .return
  | unreachable : Copy R .unreachable .unreachable
  | drop {place : M.Place} {t t' : ℕ} {u u' : UnwindAction} (h : R t t') (hu : u.Copy R u') :
      Copy R (.drop place t u) (.drop place t' u')
  | call {func : M.Operand} {args : List M.Operand} {destination : M.Place} {t t' : Option ℕ}
      {u u' : UnwindAction} (h : List.Forall₂ R t.toList t'.toList) (hu : u.Copy R u') :
      Copy R (.call func args destination t u) (.call func args destination t' u')
  | assert {cond : M.Operand} {expected : Bool} {msg : M.AssertMessage} {t t' : ℕ}
      {u u' : UnwindAction} (h : R t t') (hu : u.Copy R u') :
      Copy R (.assert cond expected msg t u) (.assert cond expected msg t' u')
  | inlineAsm {asm : M.InlineAsm} {t t' : Option ℕ} {u u' : UnwindAction}
      (h : List.Forall₂ R t.toList t'.toList) (hu : u.Copy R u') :
      Copy R (.inlineAsm asm t u) (.inlineAsm asm t' u')

/-- The block of an unwind action. -/
def UnwindAction.targets : UnwindAction → List ℕ
  | .cleanup bb => [bb]
  | _ => []

/-- The block that a terminator unwinds to. -/
def TerminatorKind.cleanups : TerminatorKind M → List ℕ
  | .drop _ _ u | .call _ _ _ _ u | .assert _ _ _ _ u | .inlineAsm _ _ u => u.targets
  | _ => []

/-- The blocks that a terminator leads to: the successors of the graph and, with `unwinding`, the
unwind target. -/
def TerminatorKind.exits (unwinding : Bool) (kind : TerminatorKind M) : List ℕ :=
  kind.targets ++ if unwinding then kind.cleanups else []

theorem UnwindAction.Copy.targets {R : ℕ → ℕ → Prop} {u u' : UnwindAction} (h : u.Copy R u') :
    List.Forall₂ R u.targets u'.targets := by
  cases h with
  | cleanup h => exact .cons h .nil
  | _ => exact .nil

/-- The exits of a copy are related one by one. -/
theorem TerminatorKind.Copy.exits {R : ℕ → ℕ → Prop} {k k' : TerminatorKind M}
    (h : k.Copy R k') (unwinding : Bool) :
    List.Forall₂ R (k.exits unwinding) (k'.exits unwinding) := by
  have htargets : List.Forall₂ R k.targets k'.targets := by
    cases h with
    | goto h => exact .cons h .nil
    | switchInt hb h =>
      refine List.rel_append ?_ (.cons h .nil)
      rw [List.forall₂_map_left_iff, List.forall₂_map_right_iff]
      exact hb.imp fun _ _ h => h.2
    | drop h => exact .cons h .nil
    | call h => exact h
    | assert h => exact .cons h .nil
    | inlineAsm h => exact h
    | _ => exact .nil
  have hcleanups : List.Forall₂ R k.cleanups k'.cleanups := by
    cases h with
    | drop _ hu => exact hu.targets
    | call _ hu => exact hu.targets
    | assert _ hu => exact hu.targets
    | inlineAsm _ hu => exact hu.targets
    | _ => exact .nil
  refine List.rel_append htargets ?_
  cases unwinding with
  | true => exact hcleanups
  | false => exact .nil

theorem UnwindAction.Copy.trans {R S Q : ℕ → ℕ → Prop} {u u' u'' : UnwindAction}
    (h : u.Copy R u') (h' : u'.Copy S u'') (hq : ∀ a b c, R a b → S b c → Q a c) :
    u.Copy Q u'' := by
  cases h with
  | cleanup h =>
    cases h' with
    | cleanup h' => exact .cleanup (hq _ _ _ h h')
  | «continue» => cases h'; exact .continue
  | unreachable => cases h'; exact .unreachable
  | terminate => cases h'; exact .terminate

theorem forall₂_trans {α β γ : Type} {R : α → β → Prop} {S : β → γ → Prop} {Q : α → γ → Prop}
    (hq : ∀ a b c, R a b → S b c → Q a c) {l : List α} {l' : List β} {l'' : List γ}
    (h : List.Forall₂ R l l') (h' : List.Forall₂ S l' l'') : List.Forall₂ Q l l'' := by
  induction h generalizing l'' with
  | nil =>
    cases h'
    exact .nil
  | cons h _ ih =>
    cases h' with
    | cons h₁ h₂ => exact .cons (hq _ _ _ h h₁) (ih h₂)

theorem exists_mem_left {α β : Type} {R : α → β → Prop} {l : List α} {l' : List β}
    (h : List.Forall₂ R l l') {b : β} (hb : b ∈ l') : ∃ a ∈ l, R a b := by
  induction h with
  | nil => simp at hb
  | cons h _ ih =>
    rcases List.mem_cons.1 hb with rfl | hb
    · exact ⟨_, List.mem_cons_self, h⟩
    · obtain ⟨a, ha, hR⟩ := ih hb
      exact ⟨a, List.mem_cons_of_mem _ ha, hR⟩

theorem exists_mem_right {α β : Type} {R : α → β → Prop} {l : List α} {l' : List β}
    (h : List.Forall₂ R l l') {a : α} (ha : a ∈ l) : ∃ b ∈ l', R a b := by
  obtain ⟨b, hb, hR⟩ := exists_mem_left (R := flip R) h.flip ha
  exact ⟨b, hb, hR⟩

theorem lt_of_getElem?_eq_some {α : Type} {l : List α} {x : ℕ} {a : α} (h : l[x]? = some a) :
    x < l.length := by
  by_contra hge
  simp [List.getElem?_eq_none (Nat.le_of_not_lt hge)] at h

/-- A copy of a copy. -/
theorem TerminatorKind.Copy.trans {R S Q : ℕ → ℕ → Prop} {k k' k'' : TerminatorKind M}
    (h : k.Copy R k') (h' : k'.Copy S k'') (hq : ∀ a b c, R a b → S b c → Q a c) :
    k.Copy Q k'' := by
  cases h with
  | goto h =>
    cases h' with
    | goto h' => exact .goto (hq _ _ _ h h')
  | switchInt hb h =>
    cases h' with
    | switchInt hb' h' =>
      refine .switchInt (forall₂_trans ?_ hb hb') (hq _ _ _ h h')
      exact fun a b c hab hbc => ⟨hab.1.trans hbc.1, hq _ _ _ hab.2 hbc.2⟩
  | drop h hu =>
    cases h' with
    | drop h' hu' => exact .drop (hq _ _ _ h h') (hu.trans hu' hq)
  | call h hu =>
    cases h' with
    | call h' hu' => exact .call (forall₂_trans hq h h') (hu.trans hu' hq)
  | assert h hu =>
    cases h' with
    | assert h' hu' => exact .assert (hq _ _ _ h h') (hu.trans hu' hq)
  | inlineAsm h hu =>
    cases h' with
    | inlineAsm h' hu' => exact .inlineAsm (forall₂_trans hq h h') (hu.trans hu' hq)
  | resume => cases h'; exact .resume
  | abort => cases h'; exact .abort
  | «return» => cases h'; exact .return
  | unreachable => cases h'; exact .unreachable

/-- Every terminator is a copy of itself over targets related to themselves. -/
theorem TerminatorKind.Copy.refl {R : ℕ → ℕ → Prop} {k : TerminatorKind M}
    (h : ∀ t ∈ k.exits true, R t t) : k.Copy R k := by
  have hu : ∀ {u : UnwindAction}, (∀ t ∈ u.targets, R t t) → u.Copy R u := fun {u} hu => by
    cases u with
    | cleanup bb => exact .cleanup (hu bb (by simp [UnwindAction.targets]))
    | «continue» => exact .continue
    | unreachable => exact .unreachable
    | terminate => exact .terminate
  have hl : ∀ {l : List ℕ}, (∀ t ∈ l, R t t) → List.Forall₂ R l l := fun hl =>
    List.forall₂_same.2 hl
  simp only [TerminatorKind.exits, if_true, List.mem_append] at h
  cases k with
  | goto t => exact .goto (h t (.inl (by simp [targets])))
  | switchInt discr branches t =>
    refine .switchInt (List.forall₂_same.2 fun b hb => ⟨rfl, h _ (.inl ?_)⟩)
      (h t (.inl (by simp [targets])))
    simp only [targets, List.mem_append, List.mem_map]
    exact .inl ⟨b, hb, rfl⟩
  | drop place t u => exact .drop (h t (.inl (by simp [targets]))) (hu fun t ht => h t (.inr ht))
  | call func args destination t u =>
    exact .call (hl fun t ht => h t (.inl ht)) (hu fun t ht => h t (.inr ht))
  | assert cond expected msg t u =>
    exact .assert (h t (.inl (by simp [targets]))) (hu fun t ht => h t (.inr ht))
  | inlineAsm asm t u =>
    exact .inlineAsm (hl fun t ht => h t (.inl ht)) (hu fun t ht => h t (.inr ht))
  | resume => exact .resume
  | abort => exact .abort
  | «return» => exact .return
  | unreachable => exact .unreachable

/-- The rewritten terminator is a copy, when `remapTarget` and the map of the copy respect the
relation. -/
theorem rewriteTerminator_copy {R : ℕ → ℕ → Prop} {term : Terminator M} {iter src : ℕ}
    {ucx : UnrollContext} (hself : ∀ t ∈ term.kind.exits true, R t t)
    (htarget : ∀ t ∈ term.kind.exits true, R t (remapTarget t iter src ucx))
    (hmap : ∀ t ∈ term.kind.exits true, R t ((ucx.maps iter).get t)) :
    term.kind.Copy R (rewriteTerminator term iter src ucx).kind := by
  have hu : ∀ {u : UnwindAction}, (∀ t ∈ u.targets, R t ((ucx.maps iter).get t)) →
      u.Copy R (remapUnwindAction (ucx.maps iter) u) := fun {u} hu => by
    cases u with
    | cleanup bb => exact .cleanup (hu bb (by simp [UnwindAction.targets]))
    | «continue» => exact .continue
    | unreachable => exact .unreachable
    | terminate => exact .terminate
  obtain ⟨kind, span⟩ := term
  simp only at hself htarget hmap
  simp only [TerminatorKind.exits, if_true, List.mem_append] at htarget hmap
  cases kind with
  | goto t => exact .goto (htarget t (.inl (by simp [TerminatorKind.targets])))
  | switchInt discr branches t =>
    refine .switchInt ?_ (htarget t (.inl (by simp [TerminatorKind.targets])))
    rw [List.forall₂_map_right_iff]
    refine List.forall₂_same.2 fun b hb => ⟨rfl, htarget _ (.inl ?_)⟩
    simp only [TerminatorKind.targets, List.mem_append, List.mem_map]
    exact .inl ⟨b, hb, rfl⟩
  | drop place t u =>
    exact .drop (htarget t (.inl (by simp [TerminatorKind.targets])))
      (hu fun t ht => hmap t (.inr ht))
  | call func args destination t u =>
    refine .call ?_ (hu fun t ht => hmap t (.inr ht))
    cases t with
    | none => exact .nil
    | some t => exact .cons (htarget t (.inl (by simp [TerminatorKind.targets]))) .nil
  | assert cond expected msg t u =>
    exact .assert (htarget t (.inl (by simp [TerminatorKind.targets])))
      (hu fun t ht => hmap t (.inr ht))
  | inlineAsm asm t u => exact .refl hself
  | resume => exact .resume
  | abort => exact .abort
  | «return» => exact .return
  | unreachable => exact .unreachable

/-! ### Bodies -/

/-- A body whose targets are blocks. -/
structure Body.Valid (body : Body M) : Prop where
  nonempty : 0 < body.blocks.length
  exits_lt : ∀ block ∈ body.blocks, ∀ w ∈ block.terminator.kind.exits true,
    w < body.blocks.length

/-- The edges of a body: those of its graph and, with `unwinding`, those to unwind targets. -/
def Body.Edge (unwinding : Bool) (body : Body M) (v w : ℕ) : Prop :=
  ∃ block, body.blocks[v]? = some block ∧ w ∈ block.terminator.kind.exits unwinding

/-- A block where the runs beyond the bound end: an `Unreachable` one with unwinding
assertions, a `Return` without. -/
def Cut (unwindingAssertions : Bool) (body : Body M) (y : ℕ) : Prop :=
  ∃ block, body.blocks[y]? = some block ∧ block.statements = [] ∧
    block.terminator.kind = if unwindingAssertions then .unreachable else .return

/-- `pr` sends the blocks of the unrolled body to the blocks that they copy. -/
structure Projects (unwindingAssertions : Bool) (body body' : Body M) (pr : ℕ → Option ℕ) :
    Prop where
  entry : pr 0 = some 0
  copy : ∀ {x v}, pr x = some v → ∃ block block', body.blocks[v]? = some block ∧
    body'.blocks[x]? = some block' ∧ block'.statements = block.statements ∧
    block.terminator.kind.Copy
      (fun w y => pr y = some w ∨ (pr y = none ∧ Cut unwindingAssertions body' y))
      block'.terminator.kind
  /-- A block that copies none is an end block. -/
  leaf : ∀ {x block'}, body'.blocks[x]? = some block' → pr x = none →
    block'.statements = [] ∧
      (block'.terminator.kind = .unreachable ∨ block'.terminator.kind = .return)

namespace Projects

variable {ua : Bool} {body body₁ body₂ : Body M} {pr pr₁ pr₂ : ℕ → Option ℕ}

theorem refl (h : body.Valid) : Projects ua body body fun x =>
    if x < body.blocks.length then some x else none where
  entry := if_pos h.nonempty
  copy := fun {x v} hx => by
    have hlt : x < body.blocks.length := by
      by_contra hge
      simp [hge] at hx
    obtain rfl : x = v := by simpa [hlt] using hx
    refine ⟨body.blocks[x], body.blocks[x], ?_, ?_, rfl, .refl fun t ht => .inl ?_⟩
    · exact List.getElem?_eq_getElem hlt
    · exact List.getElem?_eq_getElem hlt
    · exact if_pos (h.exits_lt _ (List.getElem_mem hlt) t ht)
  leaf := fun {x block'} hx hnone => by
    have hlt : x < body.blocks.length := by
      by_contra hge
      simp [List.getElem?_eq_none (Nat.le_of_not_lt hge)] at hx
    simp [hlt] at hnone

/-- An end block that is copied stays one. -/
theorem cut (h : Projects ua body₁ body₂ pr) {x v : ℕ} (hx : pr x = some v)
    (hv : Cut ua body₁ v) : Cut ua body₂ x := by
  obtain ⟨b, b', hb, hb', hst, hcopy⟩ := h.copy hx
  obtain ⟨b₀, hb₀, hst₀, hkind⟩ := hv
  obtain rfl : b₀ = b := Option.some.inj (hb₀.symm.trans hb)
  refine ⟨b', hb', hst.trans hst₀, ?_⟩
  rw [hkind] at hcopy
  cases ua with
  | true =>
    generalize b'.terminator.kind = k' at hcopy
    cases hcopy
    rfl
  | false =>
    generalize b'.terminator.kind = k' at hcopy
    cases hcopy
    rfl

/-- **Rounds compose.** -/
theorem trans (h₁ : Projects ua body body₁ pr₁) (h₂ : Projects ua body₁ body₂ pr₂) :
    Projects ua body body₂ fun x => (pr₂ x).bind pr₁ where
  entry := by simp [h₂.entry, h₁.entry]
  copy := fun {x v} hx => by
    obtain ⟨y, hy, hv⟩ := Option.bind_eq_some_iff.1 hx
    obtain ⟨b₁, b₂, hb₁, hb₂, hst₂, hcopy₂⟩ := h₂.copy hy
    obtain ⟨b, b₁', hb, hb₁', hst₁, hcopy₁⟩ := h₁.copy hv
    obtain rfl : b₁' = b₁ := Option.some.inj (hb₁'.symm.trans hb₁)
    refine ⟨b, b₂, hb, hb₂, hst₂.trans hst₁, hcopy₁.trans hcopy₂ fun w z t hwz hzt => ?_⟩
    rcases hzt with hzt | ⟨hnone, hcut⟩
    · rcases hwz with hwz | ⟨hnone, hcut⟩
      · exact .inl (by simp [hzt, hwz])
      · exact .inr ⟨by simp [hzt, hnone], h₂.cut hzt hcut⟩
    · exact .inr ⟨by simp [hnone], hcut⟩
  leaf := fun {x b₂} hx hnone => by
    cases hp : pr₂ x with
    | none => exact h₂.leaf hx hp
    | some y =>
      obtain ⟨b₁, b₂', hb₁, hb₂', hst₂, hcopy₂⟩ := h₂.copy hp
      obtain rfl : b₂' = b₂ := Option.some.inj (hb₂'.symm.trans hx)
      have hnone₁ : pr₁ y = none := by simpa [hp] using hnone
      obtain ⟨hst, hkind⟩ := h₁.leaf hb₁ hnone₁
      refine ⟨hst₂.trans hst, ?_⟩
      rcases hkind with hk | hk
      all_goals
        rw [hk] at hcopy₂
        generalize b₂'.terminator.kind = k' at hcopy₂
        cases hcopy₂
        simp

/-- The unrolled body is valid again. -/
theorem valid (h : Projects ua body body₁ pr) : body₁.Valid where
  nonempty := by
    obtain ⟨b, b', -, hb', -⟩ := h.copy h.entry
    by_contra hlen
    simp [List.getElem?_eq_none (show body₁.blocks.length ≤ 0 by omega)] at hb'
  exits_lt := fun block hblock w hw => by
    obtain ⟨x, hx⟩ := List.getElem?_of_mem hblock
    cases hp : pr x with
    | none =>
      rcases (h.leaf hx hp).2 with hk | hk
      all_goals
        rw [hk] at hw
        simp [TerminatorKind.exits, TerminatorKind.targets, TerminatorKind.cleanups] at hw
    | some v =>
      obtain ⟨b, b', -, hb', -, hcopy⟩ := h.copy hp
      obtain rfl : b' = block := Option.some.inj (hb'.symm.trans hx)
      -- a target copies a block or is an end block
      obtain ⟨t, -, ht⟩ := exists_mem_left (hcopy.exits true) hw
      rcases ht with ht | ⟨-, b₀, hb₀, -⟩
      · obtain ⟨-, b₀, -, hb₀, -⟩ := h.copy ht
        exact lt_of_getElem?_eq_some hb₀
      · exact lt_of_getElem?_eq_some hb₀

/-- **Paths project**: a path that meets copied blocks only is the image of a path. -/
theorem path (h : Projects ua body body₁ pr) {unwinding : Bool} {x : ℕ} {ρ : List ℕ}
    (hp : Flow.Path (body₁.Edge unwinding) 0 x ρ) (hcopies : ∀ y ∈ ρ, pr y ≠ none) :
    ∃ v π, pr x = some v ∧ Flow.Path (body.Edge unwinding) 0 v π ∧ ρ.map pr = π.map some := by
  induction hp with
  | start => exact ⟨0, [0], h.entry, .start, by simp [h.entry]⟩
  | @step x y ρ hρ hE ih =>
    obtain ⟨v, π, hv, hπ, hmap⟩ := ih fun z hz => hcopies z (List.mem_cons_of_mem _ hz)
    obtain ⟨b₁, hb₁, hy⟩ := hE
    obtain ⟨b, b₁', hb, hb₁', -, hcopy⟩ := h.copy hv
    obtain rfl : b₁' = b₁ := Option.some.inj (hb₁'.symm.trans hb₁)
    obtain ⟨w, hw, hyw⟩ := exists_mem_left (hcopy.exits unwinding) hy
    have hy' : pr y = some w := hyw.resolve_right fun hcut =>
      hcopies y List.mem_cons_self hcut.1
    exact ⟨w, w :: π, hy', hπ.step ⟨b, hb, hw⟩, by simp [hy', hmap]⟩

/-- **Paths lift**: every path is the image of a path of the unrolled body, or a prefix of it,
without its last block, is one that goes on to an end block. -/
theorem lift (h : Projects ua body body₁ pr) {unwinding : Bool} {v : ℕ} {π : List ℕ}
    (hp : Flow.Path (body.Edge unwinding) 0 v π) :
    (∃ x ρ, pr x = some v ∧ Flow.Path (body₁.Edge unwinding) 0 x ρ ∧
        ρ.map pr = π.map some) ∨
      ∃ w π₀ y ρ, w :: π₀ <:+ π ∧ Flow.Path (body₁.Edge unwinding) 0 y (y :: ρ) ∧
        ρ.map pr = π₀.map some ∧ pr y = none ∧ Cut ua body₁ y := by
  induction hp with
  | start => exact .inl ⟨0, [0], h.entry, .start, by simp [h.entry]⟩
  | @step v w π hπ hE ih =>
    rcases ih with ⟨x, ρ, hx, hρ, hmap⟩ | ⟨w', π₀, y, ρ, hsuf, hρ, hmap, hcut⟩
    · obtain ⟨b, hb, hw⟩ := hE
      obtain ⟨b', b₁, hb', hb₁, -, hcopy⟩ := h.copy hx
      obtain rfl : b' = b := Option.some.inj (hb'.symm.trans hb)
      obtain ⟨y, hy, hwy⟩ := exists_mem_right (hcopy.exits unwinding) hw
      have hstep := hρ.step (v := y) ⟨b₁, hb₁, hy⟩
      rcases hwy with hy' | ⟨hnone, hcut⟩
      · exact .inl ⟨y, y :: ρ, hy', hstep, by simp [hy', hmap]⟩
      · exact .inr ⟨w, π, y, ρ, List.suffix_rfl, hstep, hmap, hnone, hcut⟩
    · exact .inr ⟨w', π₀, y, ρ, hsuf.trans (List.suffix_cons w π), hρ, hmap, hcut⟩

end Projects

end TrustMc.LoopUnroll
