import Mathlib.Data.List.ReduceOption
import TrustMc.Slots.Filling

/-!
# Anchored arguments

Some arguments know the slot that they belong to, their anchor. A row is filled in two steps.

* `anchorAll` puts every anchored argument in its slot, which has to be free and to fit, and
  collects the others. It succeeds when the anchors fit and are distinct.
* `fillHoles` gives every other argument in turn the first free slot that it fits. It succeeds
  when these arguments fit the free slots in order, and it takes the slots `firstFit`.
* `place` does both, and `place_spec` and `exists_place` say what comes out and when.
-/

namespace Slots

variable {α β : Type}

/-- A slot of the row is free. -/
def Free (row : List (Option α)) (k : ℕ) : Prop := row[k]? = some none

/-- The argument has the slot in the row. -/
def Has (row : List (Option α)) (k : ℕ) (a : α) : Prop := row[k]? = some (some a)

/-- A free slot is taken. -/
theorem reduceOption_set {row : List (Option α)} {k : ℕ} (h : Free row k) (a : α) :
    (row.set k (some a)).reduceOption.Perm (a :: row.reduceOption) := by
  induction row generalizing k with
  | nil => simp [Free] at h
  | cons o row ih =>
    cases k with
    | zero =>
      obtain rfl : o = none := by simpa [Free] using h
      exact .refl _
    | succ k =>
      have hrow := ih (k := k) (by simpa [Free] using h)
      cases o with
      | none => exact hrow
      | some b => exact (hrow.cons b).trans (.swap a b _)

theorem has_set {row : List (Option α)} {k : ℕ} (h : Free row k) (a : α) {j : ℕ} {b : α} :
    Has (row.set k (some a)) j b ↔ Has row j b ∨ b = a ∧ k = j := by
  have hk : k < row.length := (List.getElem?_eq_some_iff.1 h).1
  rw [Has, Has, List.getElem?_set]
  by_cases hkj : k = j
  · subst hkj
    have hfree : row[k]? = some none := h
    rw [if_pos rfl, if_pos hk, hfree]
    simp [eq_comm]
  · simp [hkj]

theorem free_set {row : List (Option α)} {k j : ℕ} (a : α) :
    Free (row.set k (some a)) j ↔ Free row j ∧ k ≠ j := by
  rw [Free, Free, List.getElem?_set]
  by_cases hkj : k = j
  · subst hkj
    simp
  · simp [hkj]

/-! ### Anchors -/

section Anchors

variable (fits : α → β → Prop) (anchor : α → Option ℕ) (slots : List β)

/-- The anchored arguments fit their slots. -/
def AnchorsFit (args : List α) : Prop :=
  ∀ a ∈ args, ∀ k, anchor a = some k → ∃ s, slots[k]? = some s ∧ fits a s

/-- What it takes to put the anchored arguments in their slots. -/
structure Anchorable (row : List (Option α)) (args : List α) : Prop where
  /-- They fit. -/
  fit : AnchorsFit fits anchor slots args
  /-- They are anchored in distinct slots. -/
  nodup : (args.filterMap anchor).Nodup
  /-- Their slots are free. -/
  free : ∀ k ∈ args.filterMap anchor, Free row k

variable {fits anchor slots} {row row' : List (Option α)} {a : α} {args rest : List α} {k : ℕ}

theorem anchorable_cons (ha : anchor a = some k) :
    Anchorable fits anchor slots row (a :: args) ↔
      (Free row k ∧ ∃ s, slots[k]? = some s ∧ fits a s) ∧
        Anchorable fits anchor slots (row.set k (some a)) args := by
  constructor
  · rintro ⟨hfit, hnodup, hfree⟩
    rw [List.filterMap_cons, ha] at hnodup hfree
    refine ⟨⟨hfree k List.mem_cons_self, hfit a List.mem_cons_self k ha⟩,
      fun b hb => hfit b (List.mem_cons_of_mem _ hb), hnodup.of_cons, fun j hj => ?_⟩
    refine (free_set a).2 ⟨hfree j (List.mem_cons_of_mem _ hj), ?_⟩
    rintro rfl
    exact (List.nodup_cons.1 hnodup).1 hj
  · rintro ⟨⟨hfree, hfit⟩, hfit', hnodup, hfree'⟩
    refine ⟨fun b hb j hj => ?_, ?_, fun j hj => ?_⟩
    · rcases List.mem_cons.1 hb with rfl | hb
      · obtain rfl := Option.some.inj (ha.symm.trans hj)
        exact hfit
      · exact hfit' b hb j hj
    · rw [List.filterMap_cons, ha]
      exact List.nodup_cons.2 ⟨fun hk => ((free_set a).1 (hfree' k hk)).2 rfl, hnodup⟩
    · rw [List.filterMap_cons, ha] at hj
      rcases List.mem_cons.1 hj with rfl | hj
      · exact hfree
      · exact ((free_set a).1 (hfree' j hj)).1

theorem anchorable_cons_none (ha : anchor a = none) :
    Anchorable fits anchor slots row (a :: args) ↔ Anchorable fits anchor slots row args := by
  have hmap : (a :: args).filterMap anchor = args.filterMap anchor := by
    rw [List.filterMap_cons, ha]
  have hfit : AnchorsFit fits anchor slots (a :: args) ↔ AnchorsFit fits anchor slots args := by
    simp [AnchorsFit, ha]
  constructor
  · rintro ⟨h, hnodup, hfree⟩
    exact ⟨hfit.1 h, hmap ▸ hnodup, hmap ▸ hfree⟩
  · rintro ⟨h, hnodup, hfree⟩
    exact ⟨hfit.2 h, hmap ▸ hnodup, hmap ▸ hfree⟩

variable [DecidableRel fits]

variable (fits anchor slots) in
/-- Puts the anchored arguments in their slots and collects the others. -/
def anchorAll : List (Option α) → List α → Option (List (Option α) × List α)
  | row, [] => some (row, [])
  | row, a :: args =>
    match anchor a with
    | none => (anchorAll row args).map fun (row, rest) => (row, a :: rest)
    | some k =>
      if (row[k]?).any Option.isNone && (slots[k]?).any fun s => decide (fits a s) then
        anchorAll (row.set k (some a)) args
      else none

theorem anchorAll_of_none (ha : anchor a = none) :
    anchorAll fits anchor slots row (a :: args) =
      (anchorAll fits anchor slots row args).map fun (row, rest) => (row, a :: rest) := by
  rw [anchorAll, ha]

theorem anchorAll_of_some (ha : anchor a = some k) (hfree : Free row k)
    (hfit : ∃ s, slots[k]? = some s ∧ fits a s) :
    anchorAll fits anchor slots row (a :: args) =
      anchorAll fits anchor slots (row.set k (some a)) args := by
  obtain ⟨s, hs, hfit⟩ := hfit
  have hfree' : row[k]? = some none := hfree
  rw [anchorAll, ha]
  simp [hfree', hs, hfit]

theorem anchorAll_anchored (ha : anchor a = some k)
    (h : anchorAll fits anchor slots row (a :: args) ≠ none) :
    Free row k ∧ ∃ s, slots[k]? = some s ∧ fits a s := by
  rw [anchorAll, ha] at h
  simp only [ne_eq, ite_eq_right_iff, not_forall, exists_prop, Bool.and_eq_true,
    Option.any_eq_true, decide_eq_true_eq, Option.isNone_iff_eq_none] at h
  obtain ⟨⟨⟨o, ho, rfl⟩, hfit⟩, -⟩ := h
  exact ⟨ho, hfit⟩

/-- The anchors decide whether all arguments can be put in their slots. -/
theorem anchorAll_ne_none_iff :
    anchorAll fits anchor slots row args ≠ none ↔ Anchorable fits anchor slots row args := by
  induction args generalizing row with
  | nil => exact ⟨fun _ => ⟨by simp [AnchorsFit], by simp, by simp⟩, fun _ => by simp [anchorAll]⟩
  | cons a args ih =>
    cases ha : anchor a with
    | none =>
      rw [anchorAll_of_none ha, ne_eq, Option.map_eq_none_iff, ← ne_eq, ih,
        anchorable_cons_none ha]
    | some k =>
      rw [anchorable_cons ha, ← ih]
      constructor
      · intro h
        obtain ⟨hfree, hfit⟩ := anchorAll_anchored ha h
        rw [anchorAll_of_some ha hfree hfit] at h
        exact ⟨⟨hfree, hfit⟩, h⟩
      · rintro ⟨⟨hfree, hfit⟩, h⟩
        rwa [anchorAll_of_some ha hfree hfit]

/-- What the row holds then, and what is collected. -/
theorem anchorAll_spec (h : anchorAll fits anchor slots row args = some (row', rest)) :
    rest = args.filter (fun a => (anchor a).isNone) ∧ row'.length = row.length ∧
      (∀ k a, Has row' k a ↔ Has row k a ∨ a ∈ args ∧ anchor a = some k) ∧
      (∀ k, Free row' k ↔ Free row k ∧ k ∉ args.filterMap anchor) ∧
      row'.reduceOption.Perm
        (row.reduceOption ++ args.filter fun a => (anchor a).isSome) := by
  induction args generalizing row row' rest with
  | nil =>
    rw [anchorAll, Option.some.injEq, Prod.mk.injEq] at h
    obtain ⟨rfl, rfl⟩ := h
    simp
  | cons a args ih =>
    cases ha : anchor a with
    | none =>
      rw [anchorAll_of_none ha] at h
      obtain ⟨⟨row₁, rest₁⟩, h₁, heq⟩ := Option.map_eq_some_iff.1 h
      obtain ⟨rfl, rfl⟩ := Prod.mk.inj heq
      obtain ⟨hrest, hlen, hhas, hfree, hperm⟩ := ih h₁
      refine ⟨?_, hlen, fun k b => ?_, fun k => ?_, ?_⟩
      · simp [ha, hrest]
      · rw [hhas, List.mem_cons]
        refine or_congr_right ⟨fun h => ⟨Or.inr h.1, h.2⟩, ?_⟩
        rintro ⟨rfl | hb, hk⟩
        · exact absurd (ha.symm.trans hk) (by simp)
        · exact ⟨hb, hk⟩
      · rw [hfree, List.filterMap_cons, ha]
      · simpa [ha] using hperm
    | some k =>
      have hne : anchorAll fits anchor slots row (a :: args) ≠ none := by
        rw [h]
        exact Option.some_ne_none _
      obtain ⟨hfree, hfit⟩ := anchorAll_anchored ha hne
      rw [anchorAll_of_some ha hfree hfit] at h
      obtain ⟨hrest, hlen, hhas, hfree', hperm⟩ := ih h
      refine ⟨?_, ?_, fun j b => ?_, fun j => ?_, ?_⟩
      · simp [ha, hrest]
      · rw [hlen, List.length_set]
      · rw [hhas, has_set hfree, or_assoc, List.mem_cons]
        refine or_congr_right ⟨?_, ?_⟩
        · rintro (⟨rfl, rfl⟩ | ⟨hb, hj⟩)
          · exact ⟨Or.inl rfl, ha⟩
          · exact ⟨Or.inr hb, hj⟩
        · rintro ⟨rfl | hb, hj⟩
          · exact Or.inl ⟨rfl, Option.some.inj (ha.symm.trans hj)⟩
          · exact Or.inr ⟨hb, hj⟩
      · rw [hfree', free_set, List.filterMap_cons, ha, List.mem_cons, not_or, and_assoc, ne_comm]
      · have hset := (reduceOption_set hfree a).append_right
          (args.filter fun a => (anchor a).isSome)
        simpa [ha] using hperm.trans (hset.trans List.perm_middle.symm)

end Anchors

/-! ### Holes -/

section Holes

/-- The free slots of a row, with their positions from `m` on. -/
def opens : ℕ → List (Option α) → List β → List (β × ℕ)
  | m, none :: row, s :: slots => (s, m) :: opens (m + 1) row slots
  | m, some _ :: row, _ :: slots => opens (m + 1) row slots
  | _, _, _ => []

variable (fits : α → β → Prop) [DecidableRel fits]

/-- The slots that are left over when every argument in turn takes the first one that it fits
after that of the argument before it. -/
def leftOver : List (β × ℕ) → List α → List (β × ℕ)
  | slots, [] => slots
  | [], _ :: _ => []
  | p :: slots, a :: args =>
    if fits a p.1 then leftOver slots args else p :: leftOver slots (a :: args)

/-- Gives every argument in turn the first free slot that it fits. -/
def fillHoles : List (Option α) → List β → List α → Option (List (Option α))
  | row, _, [] => some row
  | o :: row, s :: slots, a :: args =>
    if o.isNone && decide (fits a s) then (fillHoles row slots args).map (some a :: ·)
    else (fillHoles row slots (a :: args)).map (o :: ·)
  | [], _, _ :: _ => none
  | _ :: _, [], _ :: _ => none

variable {fits} {row out : List (Option α)} {slots : List β} {args : List α} {m : ℕ}

theorem le_of_mem_opens {p : β × ℕ} (h : p ∈ opens m row slots) : m ≤ p.2 := by
  induction row generalizing m slots with
  | nil => simp [opens] at h
  | cons o row ih =>
    cases slots with
    | nil => cases o <;> simp [opens] at h
    | cons s slots =>
      cases o with
      | none =>
        rcases List.mem_cons.1 h with rfl | h
        · exact Nat.le_refl _
        · exact Nat.le_of_succ_le (ih h)
      | some a => exact Nat.le_of_succ_le (ih h)

theorem leftOver_sublist {free : List (β × ℕ)} : (leftOver fits free args).Sublist free := by
  induction free generalizing args with
  | nil => cases args <;> exact .slnil
  | cons p free ih =>
    cases args with
    | nil => exact .refl _
    | cons a args =>
      rw [leftOver]
      split_ifs
      · exact ih.cons p
      · exact ih.cons_cons p

/-- The open slots are the free ones. -/
theorem mem_opens {k : ℕ} (hlen : row.length = slots.length) :
    (∃ s, (s, m + k) ∈ opens m row slots) ↔ Free row k := by
  induction row generalizing m k slots with
  | nil => simp [opens, Free]
  | cons o row ih =>
    cases slots with
    | nil => simp at hlen
    | cons s slots =>
      cases k with
      | zero =>
        have hlt : ∀ t, (t, m) ∉ opens (m + 1) row slots := fun t ht => by
          have := le_of_mem_opens ht
          omega
        cases o <;> simp [opens, Free, hlt]
      | succ k =>
        have htail := ih (m := m + 1) (k := k) (Nat.succ.inj hlen)
        have hk : m + (k + 1) = m + 1 + k := by omega
        have hne : m + 1 + k ≠ m := by omega
        rw [show Free (o :: row) (k + 1) ↔ Free row k from Iff.rfl, ← htail, hk]
        cases o <;> simp only [opens, List.mem_cons, Prod.mk.injEq, hne, and_false, false_or]

theorem fillHoles_ne_none_iff (hlen : row.length = slots.length) :
    fillHoles fits row slots args ≠ none ↔
      Fit (fun a (p : β × ℕ) => fits a p.1) args (opens m row slots) := by
  induction row generalizing m slots args with
  | nil =>
    cases args with
    | nil => exact ⟨fun _ => fit_nil _, fun _ => Option.some_ne_none _⟩
    | cons a args =>
      refine ⟨fun h => absurd rfl h, fun h => ?_⟩
      exact absurd (fit_length_le h) (by simp [opens])
  | cons o row ih =>
    cases slots with
    | nil => simp at hlen
    | cons s slots =>
      have hlen' := Nat.succ.inj hlen
      cases args with
      | nil => exact ⟨fun _ => fit_nil _, fun _ => Option.some_ne_none _⟩
      | cons a args =>
        rw [fillHoles]
        cases o with
        | some b => simpa [opens] using @ih slots (a :: args) (m + 1) hlen'
        | none =>
          by_cases ha : fits a s
          · have htail := @ih slots args (m + 1) hlen'
            simp only [ha, Option.isNone_none, decide_true, Bool.and_self, if_true, ne_eq,
              Option.map_eq_none_iff, opens] at htail ⊢
            refine htail.trans ⟨?_, fit_of_cons⟩
            rintro ⟨sub, hsub, hfit⟩
            exact ⟨_, hsub.cons_cons (s, m), .cons ha hfit⟩
          · have htail := @ih slots (a :: args) (m + 1) hlen'
            simp only [ha, Option.isNone_none, decide_false, Bool.and_false, Bool.false_eq_true,
              if_false, ne_eq, Option.map_eq_none_iff, opens] at htail ⊢
            refine htail.trans ⟨?_, fun h => fit_of_not h ha⟩
            rintro ⟨sub, hsub, hfit⟩
            exact ⟨sub, hsub.cons _, hfit⟩

/-- A leftover slot is not before the open ones. -/
theorem le_of_mem_leftOver {p : β × ℕ} (h : p ∈ leftOver fits (opens m row slots) args) :
    m ≤ p.2 :=
  le_of_mem_opens (leftOver_sublist.subset h)

/-- What the row holds when all the arguments have found a slot. -/
theorem fillHoles_spec (hlen : row.length = slots.length)
    (h : fillHoles fits row slots args = some out) :
    out.length = row.length ∧ out.reduceOption.Perm (row.reduceOption ++ args) ∧
      args.Sublist out.reduceOption ∧
      (∀ k a, Has row k a → Has out k a) ∧
      (∀ k a, Has out k a → Has row k a ∨ a ∈ args ∧ ∃ s, slots[k]? = some s ∧ fits a s) ∧
      (∀ k, Free out k ↔ ∃ s, (s, m + k) ∈ leftOver fits (opens m row slots) args) := by
  induction row generalizing m slots args out with
  | nil =>
    cases args with
    | nil =>
      obtain rfl := Option.some.inj h
      simp [opens, leftOver, Free, Has]
    | cons a args => simp [fillHoles] at h
  | cons o row ih =>
    cases slots with
    | nil => simp at hlen
    | cons s slots =>
      cases args with
      | nil =>
        obtain rfl := Option.some.inj h
        refine ⟨rfl, by simp, List.nil_sublist _, fun _ _ h => h, fun _ _ h => Or.inl h,
          fun k => ?_⟩
        rw [leftOver.eq_def]
        exact (mem_opens hlen).symm
      | cons a args =>
        have hlen' := Nat.succ.inj hlen
        have hk : ∀ k, m + (k + 1) = m + 1 + k := fun k => by omega
        have hne : ∀ k, m + 1 + k ≠ m := fun k => by omega
        rw [fillHoles] at h
        by_cases htake : o = none ∧ fits a s
        · -- the slot is free and fits, so it is taken
          obtain ⟨rfl, ha⟩ := htake
          rw [if_pos (by simp [ha])] at h
          obtain ⟨out, hout, rfl⟩ := Option.map_eq_some_iff.1 h
          obtain ⟨hlength, hperm, hsub, hkeep, hfit, hfree⟩ := ih (m := m + 1) hlen' hout
          rw [opens, leftOver, if_pos ha]
          refine ⟨congrArg Nat.succ hlength, (hperm.cons a).trans List.perm_middle.symm,
            hsub.cons_cons a, fun k b hb => ?_, fun k b hb => ?_, fun k => ?_⟩
          · cases k with
            | zero => simp [Has] at hb
            | succ k => exact hkeep k b hb
          · cases k with
            | zero =>
              obtain rfl : a = b := by simpa [Has] using hb
              exact Or.inr ⟨List.mem_cons_self, s, rfl, ha⟩
            | succ k =>
              exact (hfit k b hb).imp_right fun h => ⟨List.mem_cons_of_mem _ h.1, h.2⟩
          · cases k with
            | zero =>
              refine iff_of_false (by simp [Free]) ?_
              rintro ⟨t, ht⟩
              exact absurd (le_of_mem_leftOver ht) (by simp)
            | succ k =>
              rw [hk k]
              exact hfree k
        · -- the slot stays as it is
          rw [if_neg (by simpa using htake)] at h
          obtain ⟨out, hout, rfl⟩ := Option.map_eq_some_iff.1 h
          obtain ⟨hlength, hperm, hsub, hkeep, hfit, hfree⟩ := ih (m := m + 1) hlen' hout
          refine ⟨congrArg Nat.succ hlength, ?_, ?_, fun k b hb => ?_, fun k b hb => ?_,
            fun k => ?_⟩
          · cases o with
            | none => exact hperm
            | some b => exact hperm.cons b
          · cases o with
            | none => exact hsub
            | some b => exact hsub.cons b
          · cases k with
            | zero => exact hb
            | succ k => exact hkeep k b hb
          · cases k with
            | zero => exact Or.inl hb
            | succ k => exact hfit k b hb
          · cases o with
            | none =>
              have ha : ¬ fits a s := fun ha => htake ⟨rfl, ha⟩
              rw [opens, leftOver, if_neg ha]
              cases k with
              | zero => exact iff_of_true rfl ⟨s, List.mem_cons_self⟩
              | succ k =>
                rw [hk k, show Free (none :: out) (k + 1) ↔ Free out k from Iff.rfl, hfree]
                simp only [List.mem_cons, Prod.mk.injEq, hne, and_false, false_or]
            | some b =>
              rw [opens]
              cases k with
              | zero =>
                refine iff_of_false (by simp [Free]) ?_
                rintro ⟨t, ht⟩
                exact absurd (le_of_mem_leftOver ht) (by simp)
              | succ k =>
                rw [hk k]
                exact hfree k

end Holes

/-! ### Both -/

section Place

theorem free_replicate {n k : ℕ} : Free (List.replicate n (none : Option α)) k ↔ k < n := by
  simp [Free, List.getElem?_replicate]

theorem anchorable_replicate {fits : α → β → Prop} {anchor : α → Option ℕ} {slots : List β}
    {args : List α} :
    Anchorable fits anchor slots (List.replicate slots.length none) args ↔
      AnchorsFit fits anchor slots args ∧ (args.filterMap anchor).Nodup := by
  refine ⟨fun h => ⟨h.fit, h.nodup⟩, fun h => ⟨h.1, h.2, fun k hk => ?_⟩⟩
  obtain ⟨a, ha, hak⟩ := List.mem_filterMap.1 hk
  obtain ⟨s, hs, -⟩ := h.1 a ha k hak
  exact free_replicate.2 (List.getElem?_eq_some_iff.1 hs).1

variable (fits : α → β → Prop) (anchor : α → Option ℕ)

/-- The slots without an anchored argument, with their positions. -/
def unclaimed (slots : List β) (args : List α) : List (β × ℕ) :=
  slots.zipIdx.filter fun p => decide (p.2 ∉ args.filterMap anchor)

/-- The arguments without an anchor. -/
def unanchored (args : List α) : List α := args.filter fun a => (anchor a).isNone

/-- Every argument can get a slot. -/
structure Placeable (slots : List β) (args : List α) : Prop where
  /-- The anchored ones fit their slots. -/
  fit : AnchorsFit fits anchor slots args
  /-- They are anchored in distinct slots. -/
  nodup : (args.filterMap anchor).Nodup
  /-- The others fit the other slots, in order. -/
  rest : Fit (fun a (p : β × ℕ) => fits a p.1) (unanchored anchor args)
    (unclaimed anchor slots args)

variable [DecidableRel fits]

/-- Puts the anchored arguments in their slots and the others in the first ones that they fit. -/
def place (slots : List β) (args : List α) : Option (List (Option α)) :=
  match anchorAll fits anchor slots (List.replicate slots.length none) args with
  | none => none
  | some (row, rest) => fillHoles fits row slots rest

/-- The slots that stay free. -/
def vacant (slots : List β) (args : List α) : List (β × ℕ) :=
  leftOver fits (unclaimed anchor slots args) (unanchored anchor args)

variable {fits anchor} {slots : List β} {args : List α} {out : List (Option α)}

theorem opens_eq_filter {P : ℕ → Bool} {row : List (Option α)} {slots : List β} {m : ℕ}
    (hlen : row.length = slots.length)
    (hfree : ∀ k, k < slots.length → (Free row k ↔ P (m + k) = true)) :
    opens m row slots = (slots.zipIdx m).filter fun p => P p.2 := by
  induction row generalizing m slots with
  | nil =>
    obtain rfl := List.length_eq_zero_iff.1 hlen.symm
    rfl
  | cons o row ih =>
    cases slots with
    | nil => simp at hlen
    | cons s slots =>
      have htail := @ih slots (m + 1) (Nat.succ.inj hlen) fun k hk => by
        rw [show m + 1 + k = m + (k + 1) by omega, ← hfree (k + 1) (Nat.succ_lt_succ hk)]
        rfl
      have hhead : o = none ↔ P m = true := by
        rw [← Nat.add_zero m, ← hfree 0 (Nat.succ_pos _)]
        simp [Free]
      rw [List.zipIdx_cons, List.filter_cons]
      cases o with
      | none => rw [if_pos (hhead.1 rfl), opens, htail]
      | some a =>
        rw [if_neg fun h => Option.some_ne_none a (hhead.2 h), opens, htail]

/-- Where a row of anchored arguments is free. -/
theorem opens_of_anchorAll {row : List (Option α)} {rest : List α}
    (h : anchorAll fits anchor slots (List.replicate slots.length none) args =
      some (row, rest)) :
    row.length = slots.length ∧ opens 0 row slots = unclaimed anchor slots args := by
  obtain ⟨-, hlen, -, hfree, -⟩ := anchorAll_spec h
  rw [List.length_replicate] at hlen
  refine ⟨hlen, opens_eq_filter (P := fun k => decide (k ∉ args.filterMap anchor)) hlen
    fun k hk => ?_⟩
  rw [hfree, free_replicate, Nat.zero_add, decide_eq_true_eq]
  exact and_iff_right hk

/-- A vacant slot is a slot. -/
theorem getElem?_of_mem_vacant {s : β} {k : ℕ} (h : (s, k) ∈ vacant fits anchor slots args) :
    slots[k]? = some s := by
  have hmem := (List.mem_filter.1 (leftOver_sublist.subset h)).1
  exact List.mem_zipIdx_iff_getElem?.1 hmem

/-- **When it succeeds.** -/
theorem place_ne_none_iff :
    place fits anchor slots args ≠ none ↔ Placeable fits anchor slots args := by
  have hanchor : anchorAll fits anchor slots (List.replicate slots.length none) args ≠ none ↔
      AnchorsFit fits anchor slots args ∧ (args.filterMap anchor).Nodup :=
    anchorAll_ne_none_iff.trans anchorable_replicate
  rw [place]
  cases hrow : anchorAll fits anchor slots (List.replicate slots.length none) args with
  | none =>
    rw [hrow] at hanchor
    refine ⟨fun h => absurd rfl h, fun h => absurd rfl (hanchor.2 ⟨h.fit, h.nodup⟩)⟩
  | some result =>
    obtain ⟨row, rest⟩ := result
    obtain ⟨hlen, hopens⟩ := opens_of_anchorAll hrow
    obtain ⟨hfit, hnodup⟩ := hanchor.1 (by simp [hrow])
    obtain rfl : rest = unanchored anchor args := (anchorAll_spec hrow).1
    dsimp only
    rw [fillHoles_ne_none_iff (m := 0) hlen, hopens]
    exact ⟨fun h => ⟨hfit, hnodup, h⟩, fun h => h.rest⟩

/-- **What comes out.** -/
theorem place_spec (h : place fits anchor slots args = some out) :
    out.length = slots.length ∧ out.reduceOption.Perm args ∧
      (unanchored anchor args).Sublist out.reduceOption ∧
      (∀ a ∈ args, ∀ k, anchor a = some k → Has out k a) ∧
      (∀ k a, Has out k a → ∃ s, slots[k]? = some s ∧ fits a s) ∧
      (∀ k a, Has out k a → anchor a = some k ∨ anchor a = none) ∧
      (∀ k, Free out k ↔ ∃ s, (s, k) ∈ vacant fits anchor slots args) := by
  rw [place] at h
  cases hrow : anchorAll fits anchor slots (List.replicate slots.length none) args with
  | none =>
    rw [hrow] at h
    exact absurd h (by simp)
  | some result =>
    obtain ⟨row, rest⟩ := result
    rw [hrow] at h
    obtain ⟨hlen, hopens⟩ := opens_of_anchorAll hrow
    have hanchor := anchorAll_ne_none_iff.1 (by rw [hrow]; exact Option.some_ne_none _)
    obtain ⟨hrest, -, hhas, -, hperm⟩ := anchorAll_spec hrow
    obtain rfl : rest = unanchored anchor args := hrest
    obtain ⟨hlength, hperm', hsub, hkeep, hfit, hfree⟩ := fillHoles_spec (m := 0) hlen h
    have hrowhas : ∀ k a, Has row k a ↔ a ∈ args ∧ anchor a = some k := by
      intro k a
      rw [hhas, or_iff_right]
      simp [Has, List.getElem?_replicate]
    refine ⟨hlength.trans hlen, ?_, hsub, fun a ha k hk => ?_, fun k a ha => ?_,
      fun k a ha => ?_, fun k => ?_⟩
    · have hnone : (List.replicate slots.length (none : Option α)).reduceOption = [] :=
        List.reduceOption_replicate_none
      rw [hnone, List.nil_append] at hperm
      refine hperm'.trans ((hperm.append_right _).trans ?_)
      have hsplit := List.filter_append_perm (fun a => (anchor a).isSome) args
      rw [unanchored]
      simpa using hsplit
    · exact hkeep k a ((hrowhas k a).2 ⟨ha, hk⟩)
    · rcases hfit k a ha with h | ⟨-, hs⟩
      · obtain ⟨hmem, hk⟩ := (hrowhas k a).1 h
        exact hanchor.fit a hmem k hk
      · exact hs
    · rcases hfit k a ha with h | ⟨hmem, -⟩
      · exact Or.inl ((hrowhas k a).1 h).2
      · exact Or.inr (Option.isNone_iff_eq_none.1 (List.mem_filter.1 hmem).2)
    · rw [hfree, hopens, vacant, Nat.zero_add]

end Place

end Slots
