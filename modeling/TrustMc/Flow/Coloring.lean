import Mathlib

/-!
# Cycles by colouring

A depth-first search with an explicit stack colours a vertex when it is first taken from the
stack and again, by a marker that it leaves there, once everything above the marker is dealt
with. The vertices between the two colourings are the path that the search is on, and an edge
to one of them closes a cycle.

* `Searching`: what holds of the colours and the stack throughout. Every entry above a marker is
  reached from the marker's vertex, and what is done is closed under successors, with no cycle.
* `colorSearch_spec`: a search meets such an edge, or finishes all that was on its stack.
* `colorSearches_eq_none_iff`: the searches from all vertices with a successor meet one exactly
  when the graph has a cycle.
-/

namespace Flow

variable {α : Type}

/-- The colours of a depth-first search. -/
inductive Color
  | unseen | onStack | done
  deriving DecidableEq, Repr

/-- Puts the unseen successors of a vertex on the stack, unless one is on the path. -/
def pushUnseen (color : α → Color) : List α → List (α × Bool) → Option (List (α × Bool))
  | [], stack => some stack
  | w :: ws, stack =>
    match color w with
    | .onStack => none
    | .unseen => pushUnseen color ws ((w, false) :: stack)
    | .done => pushUnseen color ws stack

section Search

variable [DecidableEq α]

/-- The search from a stack: the colours at the end, unless an edge closes a cycle. -/
def colorSearch (next : α → List α) : ℕ → (α → Color) → List (α × Bool) → Option (α → Color)
  | 0, color, _ => some color
  | _ + 1, color, [] => some color
  | fuel + 1, color, (v, true) :: stack =>
    colorSearch next fuel (Function.update color v .done) stack
  | fuel + 1, color, (v, false) :: stack =>
    if color v ≠ .unseen then colorSearch next fuel color stack
    else
      (pushUnseen (Function.update color v .onStack) (next v) ((v, true) :: stack)).bind
        (colorSearch next fuel (Function.update color v .onStack))

/-- The searches from the unseen vertices of a list, one after the other. -/
def colorSearches (next : α → List α) (fuel : ℕ) : List α → (α → Color) → Option (α → Color)
  | [], color => some color
  | v :: vs, color =>
    if color v ≠ .unseen then colorSearches next fuel vs color
    else (colorSearch next fuel color [(v, false)]).bind (colorSearches next fuel vs)

end Search

section Spec

variable {next : α → List α} {color : α → Color} {stack : List (α × Bool)}

/-- The edges of a graph. -/
def Succ (next : α → List α) (v w : α) : Prop := w ∈ next v

/-- What holds throughout a search. -/
structure Searching (next : α → List α) (color : α → Color) (stack : List (α × Bool)) :
    Prop where
  /-- The vertices on the path have their markers on the stack. -/
  onPath : ∀ v, color v = .onStack ↔ (v, true) ∈ stack
  /-- What is above a marker is reached from its vertex, which has one marker only. -/
  reached : stack.Pairwise fun x y => y.2 = true →
    Relation.TransGen (Succ next) y.1 x.1 ∧ (x.2 = true → x.1 ≠ y.1)
  /-- The successors of a vertex on the path are done or above its marker. -/
  path : ∀ above v below, stack = above ++ (v, true) :: below → ∀ w ∈ next v,
    w ≠ v ∧ (w, true) ∉ below ∧ (color w = .done ∨ ∃ b, (w, b) ∈ above)
  /-- What is done is closed under successors. -/
  closed : ∀ v, color v = .done → ∀ w ∈ next v, color w = .done
  /-- What is done is on no cycle. -/
  acyclic : ∀ v, color v = .done → ¬Relation.TransGen (Succ next) v v

/-- A closed set is never left. -/
theorem closed_reflTransGen {P : α → Prop} (hclosed : ∀ v, P v → ∀ w ∈ next v, P w) {v w : α}
    (hv : P v) (h : Relation.ReflTransGen (Succ next) v w) : P w := by
  induction h with
  | refl => exact hv
  | tail _ hedge ih => exact hclosed _ ih _ hedge

/-! ### One round -/

/-- A marker on the extended stack is the new one, or was on the stack before. -/
theorem eq_or_mem_of_split {new : List α} {v u : α} {above below : List (α × Bool)}
    (h : new.map (·, false) ++ (v, true) :: stack = above ++ (u, true) :: below) :
    (u = v ∧ above = new.map (·, false) ∧ below = stack) ∨
      ∃ above', above = new.map (·, false) ++ (v, true) :: above' ∧
        stack = above' ++ (u, true) :: below := by
  induction new generalizing above with
  | nil =>
    cases above with
    | nil =>
      simp only [List.map_nil, List.nil_append, List.cons.injEq, Prod.mk.injEq, and_true] at h
      exact Or.inl ⟨h.1.symm, rfl, h.2.symm⟩
    | cons x above =>
      obtain ⟨rfl, heq⟩ := List.cons.inj h
      exact Or.inr ⟨above, rfl, heq⟩
  | cons w new ih =>
    cases above with
    | nil => simp at h
    | cons x above =>
      obtain ⟨rfl, heq⟩ := List.cons.inj h
      rcases ih heq with ⟨hu, rfl, hbelow⟩ | ⟨above', rfl, hstack⟩
      · exact Or.inl ⟨hu, rfl, hbelow⟩
      · exact Or.inr ⟨above', rfl, hstack⟩

/-- What is put on the stack: unseen successors, and each of them. -/
theorem pushUnseen_eq_some {ws : List α} {stack' : List (α × Bool)}
    (h : pushUnseen color ws stack = some stack') :
    (∀ w ∈ ws, color w ≠ .onStack) ∧
      ∃ new : List α, stack' = new.map (·, false) ++ stack ∧ new.length ≤ ws.length ∧
        (∀ w ∈ new, w ∈ ws) ∧ ∀ w ∈ ws, color w = .unseen → w ∈ new := by
  induction ws generalizing stack with
  | nil =>
    obtain rfl := Option.some.inj h
    exact ⟨by simp, [], by simp⟩
  | cons w ws ih =>
    rw [pushUnseen] at h
    split at h
    case h_1 => cases h
    case h_2 hw =>
      obtain ⟨hpath, new, rfl, hlen, hnew, hall⟩ := ih h
      refine ⟨List.forall_mem_cons.2 ⟨by simp [hw], hpath⟩, new ++ [w], by simp, ?_, ?_, ?_⟩
      · simpa using hlen
      · intro x hx
        rcases List.mem_append.1 hx with hx | hx
        · exact List.mem_cons_of_mem _ (hnew x hx)
        · exact List.mem_cons.2 (Or.inl (List.mem_singleton.1 hx))
      · intro x hx hun
        rcases List.mem_cons.1 hx with rfl | hx
        · simp
        · exact List.mem_append_left _ (hall x hx hun)
    case h_3 hw =>
      obtain ⟨hpath, new, rfl, hlen, hnew, hall⟩ := ih h
      refine ⟨List.forall_mem_cons.2 ⟨by simp [hw], hpath⟩, new, rfl, ?_, ?_, ?_⟩
      · exact Nat.le_succ_of_le hlen
      · exact fun x hx => List.mem_cons_of_mem _ (hnew x hx)
      · rintro x hx hun
        rcases List.mem_cons.1 hx with rfl | hx
        · simp [hw] at hun
        · exact hall x hx hun

theorem pushUnseen_eq_none {ws : List α} (h : pushUnseen color ws stack = none) :
    ∃ w ∈ ws, color w = .onStack := by
  induction ws generalizing stack with
  | nil => cases h
  | cons w ws ih =>
    rw [pushUnseen] at h
    split at h
    case h_1 hw => exact ⟨w, List.mem_cons_self, hw⟩
    all_goals
      obtain ⟨x, hx, hpath⟩ := ih h
      exact ⟨x, List.mem_cons_of_mem _ hx, hpath⟩

namespace Searching

/-- A split of the rest of the stack is one of the stack. -/
theorem path_tail {x : α × Bool} (h : Searching next color (x :: stack)) {above : List (α × Bool)}
    {v : α} {below : List (α × Bool)} (heq : stack = above ++ (v, true) :: below) {w : α}
    (hw : w ∈ next v) :
    w ≠ v ∧ (w, true) ∉ below ∧ (color w = .done ∨ ∃ b, (w, b) ∈ x :: above) :=
  h.path (x :: above) v below (by rw [heq, List.cons_append]) w hw

/-- A vertex that has been seen is done or has its marker on the stack. -/
theorem done_or_marker (h : Searching next color stack) {v : α} (hv : color v ≠ .unseen) :
    color v = .done ∨ (v, true) ∈ stack := by
  cases hcolor : color v with
  | unseen => exact absurd hcolor hv
  | onStack => exact Or.inr ((h.onPath v).1 hcolor)
  | done => exact Or.inl rfl

/-- **A vertex is skipped** that has been seen. -/
theorem skip {v : α} (h : Searching next color ((v, false) :: stack)) (hv : color v ≠ .unseen) :
    Searching next color stack := by
  refine ⟨fun u => ?_, (List.pairwise_cons.1 h.reached).2, ?_, h.closed, h.acyclic⟩
  · rw [h.onPath u]
    simp
  · intro above u below heq w hw
    obtain ⟨hne, hbelow, hdone⟩ := h.path_tail heq hw
    refine ⟨hne, hbelow, ?_⟩
    rcases hdone with hdone | ⟨b, hb⟩
    · exact Or.inl hdone
    · rcases List.mem_cons.1 hb with hb | hb
      · -- what is skipped is done, or its marker is above
        obtain rfl : w = v := congrArg Prod.fst hb
        refine (h.done_or_marker hv).imp_right fun hmem => ⟨true, ?_⟩
        rw [heq] at hmem
        simpa [hne, hbelow] using hmem
      · exact Or.inr ⟨b, hb⟩

/-- The invariant holds at the start of a search, and of the next one. -/
theorem start {v : α} (h : Searching next color []) :
    Searching next color [(v, false)] := by
  refine ⟨fun u => ?_, List.pairwise_singleton _ _, ?_, h.closed, h.acyclic⟩
  · rw [h.onPath u]
    simp
  · intro above u below heq
    have hmem : (u, true) ∈ [(v, false)] := by
      rw [heq]
      simp
    simp at hmem

variable [DecidableEq α]

/-- **A marker is taken**: its vertex is done. -/
theorem finish {v : α} (h : Searching next color ((v, true) :: stack)) :
    Searching next (Function.update color v .done) stack := by
  obtain ⟨hreach, hrest⟩ := List.pairwise_cons.1 h.reached
  have hnot : (v, true) ∉ stack := fun hmem => (hreach _ hmem rfl).2 rfl rfl
  have hcolor : color v = .onStack := (h.onPath v).2 List.mem_cons_self
  have hsucc : ∀ w ∈ next v, w ≠ v ∧ color w = .done := by
    intro w hw
    obtain ⟨hne, -, hdone⟩ := h.path [] v stack rfl w hw
    exact ⟨hne, hdone.resolve_right (by simp)⟩
  refine ⟨fun u => ?_, hrest, ?_, fun u hu w hw => ?_, fun u hu => ?_⟩
  · by_cases huv : u = v
    · subst huv
      simpa using hnot
    · rw [Function.update_of_ne huv, h.onPath u]
      simp [huv]
  · intro above u below heq w hw
    obtain ⟨hne, hbelow, hdone⟩ := h.path_tail heq hw
    refine ⟨hne, hbelow, ?_⟩
    by_cases hwv : w = v
    · exact Or.inl (by simp [hwv])
    · rw [Function.update_of_ne hwv]
      refine hdone.imp_right fun ⟨b, hb⟩ => ⟨b, (List.mem_cons.1 hb).resolve_left ?_⟩
      exact fun heq => hwv (congrArg Prod.fst heq)
  · by_cases huv : u = v
    · subst huv
      rw [Function.update_of_ne (hsucc w hw).1]
      exact (hsucc w hw).2
    · rw [Function.update_of_ne huv] at hu
      have hdone := h.closed u hu w hw
      have hwv : w ≠ v := by
        rintro rfl
        simp [hcolor] at hdone
      rwa [Function.update_of_ne hwv]
  · by_cases huv : u = v
    · -- a cycle through the vertex would lead back to it from what was done before it
      subst huv
      intro hcycle
      obtain ⟨w, hw, hback⟩ := Relation.TransGen.head'_iff.1 hcycle
      have hdone := closed_reflTransGen h.closed (hsucc w hw).2 hback
      simp [hcolor] at hdone
    · rw [Function.update_of_ne huv] at hu
      exact h.acyclic u hu

/-- **A vertex is seen**: it joins the path, and what it leads to is put above its marker. -/
theorem expand {v : α} {stack' : List (α × Bool)} (h : Searching next color ((v, false) :: stack))
    (hv : color v = .unseen)
    (hpush : pushUnseen (Function.update color v .onStack) (next v) ((v, true) :: stack) =
      some stack') : Searching next (Function.update color v .onStack) stack' := by
  obtain ⟨hpath, new, rfl, -, hnew, hall⟩ := pushUnseen_eq_some hpush
  obtain ⟨hreach, hrest⟩ := List.pairwise_cons.1 h.reached
  have hmarker : ∀ u, (u, true) ∈ stack → u ≠ v := by
    rintro u hu rfl
    have := (h.onPath u).2 (List.mem_cons_of_mem _ hu)
    simp [hv] at this
  have hdone : ∀ u, color u = .done → Function.update color v .onStack u = .done := by
    intro u hu
    rw [Function.update_of_ne, hu]
    rintro rfl
    simp [hv] at hu
  refine ⟨fun u => ?_, ?_, ?_, fun u hu w hw => ?_, fun u hu => ?_⟩
  · by_cases huv : u = v
    · simp [huv]
    · rw [Function.update_of_ne huv, h.onPath u]
      simp [huv]
  · -- what was pushed is reached through `v`
    refine List.pairwise_append.2 ⟨?_, List.pairwise_cons.2 ⟨?_, hrest⟩, ?_⟩
    · exact List.pairwise_map.2 (List.pairwise_of_forall fun x y hy => by cases hy)
    · exact fun y hy hmark => ⟨(hreach y hy hmark).1, fun _ heq => hmarker y.1 (by
        obtain ⟨u, b⟩ := y
        obtain rfl : b = true := hmark
        exact hy) heq.symm⟩
    · rintro x hx y hy hmark
      obtain ⟨w, hw, rfl⟩ := List.mem_map.1 hx
      have hedge : Succ next v w := hnew w hw
      refine ⟨?_, fun hfalse => by cases hfalse⟩
      rcases List.mem_cons.1 hy with rfl | hy
      · exact .single hedge
      · exact (hreach y hy hmark).1.tail hedge
  · -- `v` is the last block of the path now
    intro above u below heq w hw
    rcases eq_or_mem_of_split heq with ⟨rfl, rfl, rfl⟩ | ⟨above', rfl, hstack⟩
    · have hwu : w ≠ u := by
        rintro rfl
        exact hpath w hw (by simp)
      have hcolor := hpath w hw
      rw [Function.update_of_ne hwu] at hcolor ⊢
      refine ⟨hwu, fun hmem => hcolor ((h.onPath w).2 (List.mem_cons_of_mem _ hmem)), ?_⟩
      cases hw' : color w with
      | onStack => exact absurd hw' hcolor
      | done => exact Or.inl rfl
      | unseen =>
        have hmem : w ∈ new := hall w hw (by rw [Function.update_of_ne hwu, hw'])
        exact Or.inr ⟨false, List.mem_map_of_mem hmem⟩
    · obtain ⟨hne, hbelow, hw'⟩ := h.path_tail hstack hw
      refine ⟨hne, hbelow, hw'.imp (hdone w) ?_⟩
      rintro ⟨b, hb⟩
      rcases List.mem_cons.1 hb with hb | hb
      · obtain rfl : w = v := congrArg Prod.fst hb
        exact ⟨true, by simp⟩
      · exact ⟨b, by simp [hb]⟩
  · have huv : u ≠ v := by
      rintro rfl
      simp at hu
    rw [Function.update_of_ne huv] at hu
    exact hdone w (h.closed u hu w hw)
  · have huv : u ≠ v := by
      rintro rfl
      simp at hu
    rw [Function.update_of_ne huv] at hu
    exact h.acyclic u hu

end Searching

/-! ### The search ends -/

/-- What the unseen vertices of a list can still put on the stack. -/
def unseenWeight (next : α → List α) (verts : List α) (color : α → Color) : ℕ :=
  (verts.map fun v => if color v = .unseen then (next v).length + 1 else 0).sum

/-- What the search from a stack ends with: a cycle, or all that was on the stack done. -/
def Finishes (next : α → List α) (verts : List α) (color : α → Color) (stack : List (α × Bool)) :
    Option (α → Color) → Prop
  | none => ∃ v, Relation.TransGen (Succ next) v v
  | some color' => Searching next color' [] ∧
    unseenWeight next verts color' ≤ unseenWeight next verts color ∧
    ∀ v, color v = .done ∨ (∃ b, (v, b) ∈ stack) → color' v = .done

variable {verts : List α}

/-- What a round leaves to be done includes what there was. -/
theorem Finishes.mono {color₁ : α → Color} {stack₁ : List (α × Bool)} {r : Option (α → Color)}
    (h : Finishes next verts color₁ stack₁ r)
    (hweight : unseenWeight next verts color₁ ≤ unseenWeight next verts color)
    (hdone : ∀ v, color v = .done ∨ (∃ b, (v, b) ∈ stack) →
      color₁ v = .done ∨ ∃ b, (v, b) ∈ stack₁) : Finishes next verts color stack r := by
  cases r with
  | none => exact h
  | some color' =>
    obtain ⟨hsearch, hle, hall⟩ := h
    exact ⟨hsearch, le_trans hle hweight, fun v hv => hall v (hdone v hv)⟩

variable [DecidableEq α]

/-- A vertex that is seen weighs no more. -/
theorem unseenWeight_update_le (next : α → List α) (verts : List α) (color : α → Color) (v : α)
    {c : Color} (hc : c ≠ .unseen) :
    unseenWeight next verts (Function.update color v c) ≤ unseenWeight next verts color := by
  induction verts with
  | nil => exact le_rfl
  | cons w verts ih =>
    simp only [unseenWeight, List.map_cons, List.sum_cons] at ih ⊢
    refine Nat.add_le_add ?_ ih
    by_cases hwv : w = v
    · simp [hwv, hc]
    · exact le_of_eq (by rw [Function.update_of_ne hwv])

theorem unseenWeight_update_lt (next : α → List α) {v : α} {c : Color} (hc : c ≠ .unseen)
    (hmem : v ∈ verts) (hv : color v = .unseen) :
    unseenWeight next verts (Function.update color v c) + ((next v).length + 1) ≤
      unseenWeight next verts color := by
  induction verts with
  | nil => cases hmem
  | cons w verts ih =>
    by_cases hwv : w = v
    · have hrest := unseenWeight_update_le next verts color v hc
      simp only [unseenWeight, List.map_cons, List.sum_cons] at hrest ⊢
      rw [hwv, Function.update_self, if_neg hc, hv, if_pos rfl]
      omega
    · have hrest := ih ((List.mem_cons.1 hmem).resolve_left (Ne.symm hwv))
      simp only [unseenWeight, List.map_cons, List.sum_cons] at hrest ⊢
      rw [Function.update_of_ne hwv]
      omega

/-- **A search** from a stack that the invariant holds of meets an edge that closes a cycle, or
ends with all that was on the stack done. -/
theorem finishes_colorSearch (hverts : ∀ v w, w ∈ next v → w ∈ verts) (fuel : ℕ)
    (h : Searching next color stack) (hmem : ∀ x ∈ stack, x.1 ∈ verts)
    (hfuel : unseenWeight next verts color + stack.length ≤ fuel) :
    Finishes next verts color stack (colorSearch next fuel color stack) := by
  induction fuel generalizing color stack with
  | zero =>
    obtain rfl : stack = [] := List.length_eq_zero_iff.1 (by omega)
    exact ⟨h, le_rfl, by simp⟩
  | succ fuel ih =>
    match stack, h, hmem, hfuel with
    | [], h, _, _ => exact ⟨h, le_rfl, by simp⟩
    | (v, true) :: stack, h, hmem, hfuel =>
      have hle := unseenWeight_update_le next verts color v (c := .done) (by decide)
      rw [List.length_cons] at hfuel
      refine (ih h.finish (fun x hx => hmem x (List.mem_cons_of_mem _ hx)) (by omega)).mono hle ?_
      intro u hu
      by_cases huv : u = v
      · exact Or.inl (by simp [huv])
      · rw [Function.update_of_ne huv]
        simpa [huv] using hu
    | (v, false) :: stack, h, hmem, hfuel =>
      rw [List.length_cons] at hfuel
      rw [colorSearch]
      split_ifs with hv
      · refine (ih (h.skip hv) (fun x hx => hmem x (List.mem_cons_of_mem _ hx)) (by omega)).mono
          le_rfl ?_
        rintro u (hu | ⟨b, hb⟩)
        · exact Or.inl hu
        · rcases List.mem_cons.1 hb with hb | hb
          · obtain rfl : u = v := congrArg Prod.fst hb
            exact (h.done_or_marker hv).imp_right fun hmem => ⟨true, by simpa using hmem⟩
          · exact Or.inr ⟨b, hb⟩
      · rw [not_not] at hv
        cases hpush : pushUnseen (Function.update color v .onStack) (next v)
            ((v, true) :: stack) with
        | none =>
          -- an edge leads back to the path, or to the vertex itself
          obtain ⟨w, hw, hpath⟩ := pushUnseen_eq_none hpush
          by_cases hwv : w = v
          · subst hwv
            exact ⟨w, .single hw⟩
          · rw [Function.update_of_ne hwv, h.onPath] at hpath
            have hreach := (List.pairwise_cons.1 h.reached).1 (w, true) (by simpa using hpath) rfl
            exact ⟨w, hreach.1.tail hw⟩
        | some stack' =>
          obtain ⟨-, new, rfl, hlen, hnew, -⟩ := pushUnseen_eq_some hpush
          have hlt := unseenWeight_update_lt next (v := v) (c := .onStack) (by decide)
            (hmem _ List.mem_cons_self) hv
          refine (ih (h.expand hv hpush) ?_ ?_).mono (by omega) ?_
          · intro x hx
            rcases List.mem_append.1 hx with hx | hx
            · obtain ⟨w, hw, rfl⟩ := List.mem_map.1 hx
              exact hverts v w (hnew w hw)
            · rcases List.mem_cons.1 hx with rfl | hx
              · exact hmem (v, false) List.mem_cons_self
              · exact hmem x (List.mem_cons_of_mem _ hx)
          · simp only [List.length_append, List.length_map, List.length_cons]
            omega
          · rintro u (hu | ⟨b, hb⟩)
            · have huv : u ≠ v := by
                rintro rfl
                simp [hv] at hu
              exact Or.inl (by rw [Function.update_of_ne huv, hu])
            · rcases List.mem_cons.1 hb with hb | hb
              · obtain rfl : u = v := congrArg Prod.fst hb
                exact Or.inr ⟨true, by simp⟩
              · exact Or.inr ⟨b, by simp [hb]⟩

theorem finishes_colorSearches (hverts : ∀ v w, w ∈ next v → w ∈ verts) {fuel : ℕ}
    {starts : List α} (hstarts : ∀ v ∈ starts, v ∈ verts) (h : Searching next color [])
    (hfuel : unseenWeight next verts color + 1 ≤ fuel) :
    Finishes next verts color (starts.map (·, false)) (colorSearches next fuel starts color) := by
  induction starts generalizing color with
  | nil => exact ⟨h, le_rfl, by simp⟩
  | cons v starts ih =>
    have hrest : ∀ u ∈ starts, u ∈ verts := fun u hu => hstarts u (List.mem_cons_of_mem _ hu)
    rw [colorSearches]
    split_ifs with hv
    · refine (ih hrest h hfuel).mono le_rfl ?_
      rintro u (hu | ⟨b, hb⟩)
      · exact Or.inl hu
      · rw [List.map_cons, List.mem_cons] at hb
        rcases hb with hb | hb
        · obtain rfl : u = v := congrArg Prod.fst hb
          exact Or.inl ((h.done_or_marker hv).resolve_right List.not_mem_nil)
        · exact Or.inr ⟨b, hb⟩
    · have hfinish := finishes_colorSearch hverts fuel (h.start (v := v))
        (by simpa using hstarts v List.mem_cons_self) (by simpa using hfuel)
      cases hsearch : colorSearch next fuel color [(v, false)] with
      | none =>
        rw [hsearch] at hfinish
        exact hfinish
      | some color' =>
        rw [hsearch] at hfinish
        obtain ⟨hdone, hle, hall⟩ := hfinish
        refine (ih hrest hdone (by omega)).mono hle ?_
        rintro u (hu | ⟨b, hb⟩)
        · exact Or.inl (hall u (Or.inl hu))
        · rw [List.map_cons, List.mem_cons] at hb
          rcases hb with hb | hb
          · exact Or.inl (hall u (Or.inr ⟨b, List.mem_singleton.2 (by simpa using hb)⟩))
          · exact Or.inr ⟨b, hb⟩

/-- **The searches find the cycles**: an edge that closes one is met exactly when there is a
cycle, with enough fuel and every vertex that has a successor among the starts. -/
theorem colorSearches_eq_none_iff (verts : List α) {starts : List α}
    (hverts : ∀ v w, w ∈ next v → w ∈ verts) (hstarts : ∀ v ∈ starts, v ∈ verts)
    (hall : ∀ v w, w ∈ next v → v ∈ starts) {fuel : ℕ}
    (hfuel : unseenWeight next verts (fun _ => .unseen) + 1 ≤ fuel) :
    colorSearches next fuel starts (fun _ => .unseen) = none ↔
      ∃ v, Relation.TransGen (Succ next) v v := by
  have hinit : Searching next (fun _ => Color.unseen) [] := by
    refine ⟨by simp, .nil, ?_, by simp, by simp⟩
    intro above v below heq
    simp at heq
  have hfinish := finishes_colorSearches hverts hstarts hinit hfuel
  cases hsearch : colorSearches next fuel starts (fun _ => Color.unseen) with
  | none =>
    rw [hsearch] at hfinish
    exact iff_of_true rfl hfinish
  | some color' =>
    rw [hsearch] at hfinish
    obtain ⟨hdone, -, hstart⟩ := hfinish
    refine iff_of_false (by simp) fun ⟨v, hv⟩ => ?_
    -- a vertex on a cycle has a successor, so it is a start and done
    obtain ⟨w, hw, -⟩ := Relation.TransGen.head'_iff.1 hv
    have hmem : (v, false) ∈ starts.map (·, false) := List.mem_map_of_mem (hall v w hw)
    exact hdone.acyclic v (hstart v (Or.inr ⟨false, hmem⟩)) hv

end Spec

end Flow
