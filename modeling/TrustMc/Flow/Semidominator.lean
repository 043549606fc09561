import TrustMc.Flow.Dominance
import Mathlib.Data.Nat.Basic

/-!
# Numbered search trees and semidominators

A **search tree** of a flow graph numbers the vertices that were reached so that parents come
before their children and every subtree is an interval of numbers. A depth-first search leaves
no edge to a larger number outside the subtree of its source. A search that marks a vertex when
it is pushed leaves **late** edges: edges `v → w` to a vertex that was waiting, pushed by a
vertex numbered before `v`.

The **candidates** of `w` are the vertices from which the vertices numbered above `w` lead to
`w`; the least of them is the semidominator of `w`. They decide dominance in the graph without
its late edges:

* `SearchTree.strictDom_iff`: a proper ancestor `d` of `v` dominates it exactly when no vertex
  on the tree path from `d` to `v` has a candidate below `d`.
* `SearchTree.isIdom_of_semi_eq`, `SearchTree.isIdom_of_semi_lt`: the immediate dominator is
  the semidominator, or the immediate dominator of the ancestor with the least semidominator.
-/

namespace Flow

universe u

variable {V : Type u}

/-- A numbered search tree of the flow graph `E` with entry `r`: `tree u v` says that `u` is
the parent of `v`. -/
structure SearchTree (E : V → V → Prop) (r : V) where
  /-- The number of a vertex. -/
  num : V → ℕ
  /-- The parent relation. -/
  tree : V → V → Prop
  /-- Tree edges are edges. -/
  tree_edge : ∀ {u v}, tree u v → E u v
  /-- A vertex has one parent. -/
  tree_inj : ∀ {u u' v}, tree u v → tree u' v → u = u'
  /-- Parents come before their children. -/
  num_lt : ∀ {u v}, tree u v → num u < num v
  /-- Every reachable vertex hangs on the entry. -/
  reached : ∀ {v}, Relation.ReflTransGen E r v → Relation.ReflTransGen tree r v
  /-- Numbers tell the vertices of the tree apart. -/
  num_inj : ∀ {u v}, Relation.ReflTransGen tree r u → Relation.ReflTransGen tree r v →
    num u = num v → u = v
  /-- The subtree of `u` is an interval of numbers. -/
  interval : ∀ {u v w}, Relation.ReflTransGen tree r u → Relation.ReflTransGen tree u v →
    Relation.ReflTransGen tree r w → num u ≤ num w → num w ≤ num v →
    Relation.ReflTransGen tree u w
  /-- An edge to a larger number stays in the subtree of its source or is late. -/
  edge_anc : ∀ {v w}, Relation.ReflTransGen tree r v → E v w → num v < num w →
    Relation.ReflTransGen tree v w ∨ ∃ u, tree u w ∧ num u < num v

namespace SearchTree

variable {E : V → V → Prop} {r : V} (T : SearchTree E r)

/-- `u` is an ancestor of `v`, possibly `v` itself. -/
def Anc (u v : V) : Prop := Relation.ReflTransGen T.tree u v

/-- `w` hangs on the entry. -/
def Visited (w : V) : Prop := T.Anc r w

/-- The edge to `w` from `v` came **late**: `w` had been pushed by a vertex before `v` and was
numbered after `v`. -/
def Late (v w : V) : Prop := ∃ u, T.tree u w ∧ T.num u < T.num v ∧ T.num v < T.num w

/-- The graph without its late edges. -/
def Timely (v w : V) : Prop := E v w ∧ ¬ T.Late v w

/-- `c` is a **candidate** for the semidominator of `w`: an edge leads from `c` up to `w`, or an
edge leads down to `w` from below a vertex above `w` that has the candidate `c`. -/
inductive Cand : V → V → Prop
  | edge {c w : V} (hc : T.Visited c) (h : E c w) (hlt : T.num c < T.num w) : Cand w c
  | up {c u v w : V} (hv : T.Visited v) (h : E v w) (hu : T.Visited u) (huv : T.Anc u v)
      (hlt : T.num w < T.num u) (hc : Cand u c) : Cand w c

/-- `s` is the least candidate of `w`. -/
def IsSemi (w s : V) : Prop := T.Cand w s ∧ ∀ c, T.Cand w c → T.num s ≤ T.num c

variable {T}

/-! ### Ancestors -/

theorem Anc.num_le {u v : V} (h : T.Anc u v) : T.num u ≤ T.num v := by
  induction h with
  | refl => exact Nat.le_refl _
  | tail _ h ih => exact Nat.le_trans ih (Nat.le_of_lt (T.num_lt h))

theorem Anc.eq_or_lt {u v : V} (h : T.Anc u v) : u = v ∨ T.num u < T.num v := by
  rcases Relation.ReflTransGen.cases_tail h with rfl | ⟨p, hup, hpv⟩
  · exact .inl rfl
  · have : T.num u ≤ T.num p := Anc.num_le hup
    exact .inr (Nat.lt_of_le_of_lt this (T.num_lt hpv))

/-- The ancestors of a vertex form a chain. -/
theorem Anc.comparable {u u' v : V} (h : T.Anc u v) (h' : T.Anc u' v)
    (hle : T.num u ≤ T.num u') : T.Anc u u' := by
  induction h with
  | refl =>
    rcases h'.eq_or_lt with rfl | hlt
    · exact .refl
    · omega
  | @tail p v hup hpv ih =>
    rcases Relation.ReflTransGen.cases_tail h' with rfl | ⟨p', hup', hpv'⟩
    · exact Relation.ReflTransGen.tail hup hpv
    · obtain rfl := T.tree_inj hpv hpv'
      exact ih hup'

/-- An ancestor of a child is the child or an ancestor of its parent. -/
theorem Anc.of_tree {u p v : V} (h : T.Anc u v) (hp : T.tree p v) : u = v ∨ T.Anc u p := by
  rcases Relation.ReflTransGen.cases_tail h with rfl | ⟨p', hup, hpv⟩
  · exact .inl rfl
  · exact .inr (T.tree_inj hp hpv ▸ hup)

theorem Visited.parent {v : V} (hv : T.Visited v) (hr : v ≠ r) :
    ∃ p, T.tree p v ∧ T.Visited p := by
  rcases Relation.ReflTransGen.cases_tail hv with h | ⟨p, hp, hpv⟩
  · exact absurd h hr
  · exact ⟨p, hpv, hp⟩

theorem Visited.num_lt_of_ne {v : V} (hv : T.Visited v) (hr : v ≠ r) : T.num r < T.num v :=
  (Anc.eq_or_lt hv).resolve_left (Ne.symm hr)

theorem timely_of_tree {u v : V} (h : T.tree u v) : T.Timely u v := by
  refine ⟨T.tree_edge h, ?_⟩
  rintro ⟨u', hu', hlt, -⟩
  rw [T.tree_inj hu' h] at hlt
  exact Nat.lt_irrefl _ hlt

/-- An edge to a smaller number is not late. -/
theorem timely_of_le {v w : V} (h : E v w) (hle : T.num w ≤ T.num v) : T.Timely v w :=
  ⟨h, fun ⟨_, _, _, hlt⟩ => by omega⟩

/-- A timely edge to a larger number stays in the subtree. -/
theorem anc_of_timely {v w : V} (hv : T.Visited v) (h : T.Timely v w)
    (hlt : T.num v < T.num w) : T.Anc v w := by
  rcases T.edge_anc hv h.1 hlt with h' | ⟨u, hu, hlt'⟩
  · exact h'
  · exact absurd ⟨u, hu, hlt', hlt⟩ h.2

theorem Visited.step {v w : V} (hv : T.Visited v) (h : E v w) : T.Visited w := by
  refine T.reached (Relation.ReflTransGen.tail ?_ h)
  exact Relation.ReflTransGen.mono (fun _ _ => T.tree_edge) _ _ hv

/-- The tree path below `u` keeps to the numbers from that of `u` on. -/
theorem Anc.via {u v : V} (h : T.Anc u v) : Via T.Timely (T.num u ≤ T.num ·) u v := by
  induction h with
  | refl => exact .refl
  | @tail p v hup hpv ih =>
    exact Relation.ReflTransGen.tail ih
      ⟨timely_of_tree hpv, Anc.num_le (Relation.ReflTransGen.tail hup hpv)⟩

/-- The tree path to `v` keeps to the numbers up to that of `v`. -/
theorem Anc.via_le {u v : V} (h : T.Anc u v) : Via T.Timely (T.num · ≤ T.num v) u v := by
  induction h with
  | refl => exact .refl
  | @tail p v hup hpv ih =>
    have hlt := T.num_lt hpv
    have ih' : Via T.Timely (T.num · ≤ T.num v) u p := Via.mono (fun x hx => by omega) ih
    exact ih'.tail ⟨timely_of_tree hpv, Nat.le_refl _⟩

/-- Deleting the late edges keeps what is reachable. -/
theorem reachable_timely_iff {v : V} : Reachable E r v ↔ Reachable T.Timely r v := by
  constructor
  · intro h
    have hanc : T.Anc r v := T.reached (reachable_iff_reflTransGen.1 h)
    rw [reachable_iff_reflTransGen]
    exact Relation.ReflTransGen.mono (fun _ _ => timely_of_tree) _ _ hanc
  · exact Reachable.mono fun _ _ h => h.1

theorem reachable_iff_visited {v : V} : Reachable E r v ↔ T.Visited v := by
  constructor
  · exact fun h => T.reached (reachable_iff_reflTransGen.1 h)
  · intro h
    rw [reachable_iff_reflTransGen]
    exact Relation.ReflTransGen.mono (fun _ _ => T.tree_edge) _ _ h

/-! ### Candidates -/

theorem Cand.of_tree {p w : V} (hp : T.Visited p) (h : T.tree p w) : T.Cand w p :=
  .edge hp (T.tree_edge h) (T.num_lt h)

theorem Cand.visited {w c : V} (h : T.Cand w c) : T.Visited c := by
  induction h with
  | edge hc => exact hc
  | up _ _ _ _ _ _ ih => exact ih

/-- `c'` is a candidate of `w` above it in the tree, from which timely edges lead to `w`
through larger numbers only. -/
structure Ladder (T : SearchTree E r) (w c : V) : Prop where
  cand : T.Cand w c
  anc : T.Anc c w
  ne : c ≠ w
  via : Via T.Timely (T.num w ≤ T.num ·) c w

theorem Ladder.of_tree {p w : V} (hp : T.Visited p) (h : T.tree p w) : T.Ladder w p where
  cand := .of_tree hp h
  anc := .single h
  ne := by
    rintro rfl
    exact Nat.lt_irrefl _ (T.num_lt h)
  via := .single ⟨timely_of_tree h, Nat.le_refl _⟩

/-- Below every candidate there is one that is a proper ancestor. -/
theorem Cand.ladder {w c : V} (h : T.Cand w c) (hw : T.Visited w) (hr : w ≠ r) :
    ∃ c', T.Ladder w c' ∧ T.num c' ≤ T.num c := by
  induction h with
  | @edge c w hc hE hlt =>
    rcases T.edge_anc hc hE hlt with hanc | ⟨p, hpw, hlt'⟩
    · by_cases hlate : T.Late c w
      · obtain ⟨p, hpw, hlt', -⟩ := hlate
        obtain ⟨p', hpw', hp'⟩ := hw.parent hr
        obtain rfl := T.tree_inj hpw hpw'
        exact ⟨p, .of_tree hp' hpw, Nat.le_of_lt hlt'⟩
      · refine ⟨c, ⟨.edge hc hE hlt, hanc, ?_, .single ⟨⟨hE, hlate⟩, Nat.le_refl _⟩⟩, Nat.le_refl _⟩
        rintro rfl
        exact Nat.lt_irrefl _ hlt
    · obtain ⟨p', hpw', hp'⟩ := hw.parent hr
      obtain rfl := T.tree_inj hpw hpw'
      exact ⟨p, .of_tree hp' hpw, Nat.le_of_lt hlt'⟩
  | @up c u v w hv hE hu huv hlt hc ih =>
    have hur : u ≠ r := by
      rintro rfl
      have := Anc.num_le hw
      omega
    obtain ⟨c', hc', hle⟩ := ih hu hur
    by_cases hcw : T.num c' < T.num w
    · have hcv : T.Visited c' := hc'.cand.visited
      refine ⟨c', ⟨.up hv hE hu huv hlt hc'.cand, ?_, ?_, ?_⟩, hle⟩
      · exact T.interval hcv hc'.anc hw (Nat.le_of_lt hcw) (Nat.le_of_lt hlt)
      · rintro rfl
        exact Nat.lt_irrefl _ hcw
      · -- through `u`, down the tree to `v`, and over the edge
        have hmono : ∀ x, T.num u ≤ T.num x → T.num w ≤ T.num x := fun x hx => by omega
        have hvw : T.num w ≤ T.num v := hmono v huv.num_le
        exact (Relation.ReflTransGen.trans (hc'.via.mono hmono) (huv.via.mono hmono)).tail
          ⟨timely_of_le hE hvw, Nat.le_refl _⟩
    · obtain ⟨p, hpw, hp⟩ := hw.parent hr
      have := T.num_lt hpw
      exact ⟨p, .of_tree hp hpw, by omega⟩

theorem IsSemi.ladder {w s : V} (h : T.IsSemi w s) (hw : T.Visited w) (hr : w ≠ r) :
    T.Ladder w s := by
  obtain ⟨c', hc', hle⟩ := h.1.ladder hw hr
  have hge := h.2 c' hc'.cand
  obtain rfl := T.num_inj h.1.visited hc'.cand.visited (by omega)
  exact hc'

/-! ### Dominance by candidates -/

/-- A vertex that timely edges reach without `d` lies below `d` in number, or has an ancestor
above `d` with a candidate below `d`. -/
theorem cand_of_via {d v : V} (hr : T.num r < T.num d) (hd : T.Visited d)
    (h : Via T.Timely (· ≠ d) r v) :
    T.Visited v ∧ (T.num v < T.num d ∨ ∃ u, T.Visited u ∧ T.Anc u v ∧ T.num d < T.num u ∧
      ∃ c, T.Cand u c ∧ T.num c < T.num d) := by
  induction h with
  | refl => exact ⟨.refl, .inl hr⟩
  | @tail v w _ hvw ih =>
    obtain ⟨hv, hlow⟩ := ih
    obtain ⟨htime, hwd⟩ := hvw
    have hw : T.Visited w := hv.step htime.1
    refine ⟨hw, ?_⟩
    by_cases hlt : T.num w < T.num d
    · exact .inl hlt
    have hgt : T.num d < T.num w := by
      have : T.num w ≠ T.num d := fun h => hwd (T.num_inj hw hd h)
      omega
    refine .inr ?_
    rcases hlow with hlow | ⟨u, hu, huv, hdu, c, hc, hcd⟩
    · -- the edge leads from below `d` to above it: its source is a candidate
      exact ⟨w, hw, .refl, hgt, v, .edge hv htime.1 (by omega), hlow⟩
    · by_cases hup : T.num v < T.num w
      · exact ⟨u, hu, huv.trans (anc_of_timely hv htime hup), hdu, c, hc, hcd⟩
      · by_cases huw : T.num u ≤ T.num w
        · exact ⟨u, hu, T.interval hu huv hw huw (by omega), hdu, c, hc, hcd⟩
        · exact ⟨w, hw, .refl, hgt, c, .up hv htime.1 hu huv (by omega) hc, hcd⟩

/-- The tree path to a vertex visits its ancestors only. -/
theorem Visited.path {v : V} (hv : T.Visited v) :
    ∃ p, Path T.Timely r v p ∧ ∀ x ∈ p, T.Anc x v := by
  induction hv with
  | refl => exact ⟨_, .start, by simp [SearchTree.Anc, Relation.ReflTransGen.refl]⟩
  | @tail u v hu huv ih =>
    obtain ⟨p, hp, hanc⟩ := ih
    refine ⟨v :: p, hp.step (timely_of_tree huv), fun x hx => ?_⟩
    rcases List.mem_cons.1 hx with rfl | hx
    · exact .refl
    · exact (hanc x hx).tail huv

/-- A dominator is an ancestor. -/
theorem anc_of_dominates {d v : V} (hv : T.Visited v) (h : Dominates T.Timely r d v) :
    T.Anc d v := by
  obtain ⟨p, hp, hanc⟩ := hv.path
  exact hanc d (h p hp)

/-- **Dominance without the late edges**: `d` strictly dominates `v` exactly when it is a proper
ancestor and no vertex of the tree path from `d` to `v` has a candidate below `d`. -/
theorem strictDom_iff {d v : V} (hv : T.Visited v) :
    StrictDom T.Timely r d v ↔ T.Visited d ∧ T.Anc d v ∧ d ≠ v ∧
      ∀ u, T.Anc d u → u ≠ d → T.Anc u v → ∀ c, T.Cand u c → T.num d ≤ T.num c := by
  constructor
  · rintro ⟨hne, hdom⟩
    have hanc := anc_of_dominates hv hdom
    have hd : T.Visited d :=
      reachable_iff_visited.1 ((reachable_timely_iff.2 (hdom.reachable
        (reachable_timely_iff.1 (reachable_iff_visited.2 hv)))))
    refine ⟨hd, hanc, hne, fun u hdu hud huv c hc => ?_⟩
    by_contra hlt
    have hdu' : T.num d < T.num u := (hdu.eq_or_lt).resolve_left (Ne.symm hud)
    have hur : u ≠ r := by
      rintro rfl
      have := Anc.num_le hd
      omega
    have hu : T.Visited u := hd.trans hdu
    obtain ⟨c', hc', hle⟩ := hc.ladder hu hur
    -- down to the candidate, over the ladder to `u`, and down to `v`, never through `d`
    have hrd : r ≠ d := by
      rintro rfl
      have := Anc.num_le hc'.cand.visited
      omega
    refine not_dominates_of_via hrd ?_ hdom
    have h₁ : Via T.Timely (· ≠ d) r c' := hc'.cand.visited.via_le.mono fun x hx => by
      rintro rfl
      omega
    have h₂ : Via T.Timely (· ≠ d) c' u := hc'.via.mono fun x hx => by
      rintro rfl
      omega
    have h₃ : Via T.Timely (· ≠ d) u v := huv.via.mono fun x hx => by
      rintro rfl
      omega
    exact (h₁.trans h₂).trans h₃
  · rintro ⟨hd, hanc, hne, hcand⟩
    refine ⟨hne, fun p hp => ?_⟩
    by_contra hdp
    by_cases hrd : r = d
    · subst hrd
      exact hdp hp.entry_mem
    have hvia : Via T.Timely (· ≠ d) r v := hp.via hdp
    have hlt := hd.num_lt_of_ne (Ne.symm hrd)
    rcases (cand_of_via hlt hd hvia).2 with hlow | ⟨u, hu, huv, hdu, c, hc, hcd⟩
    · have := hanc.num_le
      omega
    · have hanc' : T.Anc d u := hanc.comparable huv (Nat.le_of_lt hdu)
      have := hcand u hanc' (by rintro rfl; omega) huv c hc
      omega

/-- Every strict dominator is an ancestor of the semidominator. -/
theorem IsSemi.strictDom_le {w s d : V} (h : T.IsSemi w s) (hw : T.Visited w)
    (hd : StrictDom T.Timely r d w) : T.num d ≤ T.num s := by
  obtain ⟨-, hanc, hne, hc⟩ := (strictDom_iff hw).1 hd
  exact hc w hanc (Ne.symm hne) .refl s h.1

/-- Where no vertex below the semidominator has a smaller one, the semidominator is the
immediate dominator. -/
theorem isIdom_of_semi_eq {w s : V} (hw : T.Visited w) (hr : w ≠ r) (hs : T.IsSemi w s)
    (hmin : ∀ z, T.Anc s z → z ≠ s → T.Anc z w → ∀ c, T.Cand z c → T.num s ≤ T.num c) :
    IsIdom T.Timely r s w := by
  have hl := hs.ladder hw hr
  have hsv : T.Visited s := hs.1.visited
  have hdom : StrictDom T.Timely r s w :=
    (strictDom_iff hw).2 ⟨hsv, hl.anc, hl.ne, hmin⟩
  refine ⟨hdom, fun d hd => ?_⟩
  have hle := hs.strictDom_le hw hd
  obtain ⟨hdv, hanc, -, hc⟩ := (strictDom_iff hw).1 hd
  by_cases hds : d = s
  · subst hds
    exact dominates_refl d
  · have hanc' : T.Anc d s := hanc.comparable hl.anc hle
    refine ((strictDom_iff hsv).2 ⟨hdv, hanc', hds, fun u hdu hud hus c hcu => ?_⟩).2
    exact hc u hdu hud (hus.trans hl.anc) c hcu

/-- Where the vertex `u` below the semidominator of `w` has the least semidominator, and that is
a smaller one, `w` and `u` have the same strict dominators. -/
theorem strictDom_congr_of_semi_lt {w s u t : V} (hw : T.Visited w) (hr : w ≠ r)
    (hs : T.IsSemi w s) (ht : T.IsSemi u t) (hsu : T.Anc s u) (hus : u ≠ s) (huw : T.Anc u w)
    (hmin : ∀ z, T.Anc s z → z ≠ s → T.Anc z w → ∀ c, T.Cand z c → T.num t ≤ T.num c)
    {d : V} : StrictDom T.Timely r d w ↔ StrictDom T.Timely r d u := by
  have hl := hs.ladder hw hr
  have hsv : T.Visited s := hs.1.visited
  have hu : T.Visited u := hsv.trans hsu
  have hlt : T.num s < T.num u := hsu.eq_or_lt.resolve_left (Ne.symm hus)
  constructor
  · intro hd
    have hle := hs.strictDom_le hw hd
    obtain ⟨hdv, hanc, -, hc⟩ := (strictDom_iff hw).1 hd
    refine (strictDom_iff hu).2 ⟨hdv, hanc.comparable huw (by omega), ?_, fun z hdz hzd hzu => ?_⟩
    · rintro rfl
      omega
    · exact hc z hdz hzd (hzu.trans huw)
  · intro hd
    have hle := ht.strictDom_le hu hd
    obtain ⟨hdv, hanc, hne, hc⟩ := (strictDom_iff hu).1 hd
    have hdu : T.num d < T.num u := hanc.eq_or_lt.resolve_left hne
    refine (strictDom_iff hw).2 ⟨hdv, hanc.trans huw, ?_, fun z hdz hzd hzw c hcz => ?_⟩
    · rintro rfl
      have := huw.num_le
      omega
    · by_cases hzu : T.num z ≤ T.num u
      · exact hc z hdz hzd (hzw.comparable huw hzu) c hcz
      · -- `z` lies below `u`, so below the semidominator of `w`
        have huz : T.Anc u z := huw.comparable hzw (by omega)
        have := hmin z (hsu.trans huz) (by rintro rfl; omega) hzw c hcz
        omega

theorem isIdom_of_semi_lt {w s u t d : V} (hw : T.Visited w) (hr : w ≠ r)
    (hs : T.IsSemi w s) (ht : T.IsSemi u t) (hsu : T.Anc s u) (hus : u ≠ s) (huw : T.Anc u w)
    (hmin : ∀ z, T.Anc s z → z ≠ s → T.Anc z w → ∀ c, T.Cand z c → T.num t ≤ T.num c)
    (hd : IsIdom T.Timely r d u) : IsIdom T.Timely r d w := by
  have hiff : ∀ {d}, StrictDom T.Timely r d w ↔ StrictDom T.Timely r d u :=
    strictDom_congr_of_semi_lt hw hr hs ht hsu hus huw hmin
  exact ⟨hiff.2 hd.1, fun d' hd' => hd.2 d' (hiff.1 hd')⟩

end SearchTree

end Flow
