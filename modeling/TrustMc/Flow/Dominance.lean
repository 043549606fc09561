import Mathlib.Logic.Relation
import Mathlib.Data.List.Basic

/-!
# Dominance in a flow graph

A flow graph is a relation `E` with an entry `r`. A **path** lists the vertices of a walk from
the entry, the last one first. `Dominates E r u v` says that every path to `v` visits `u`, and
`IsIdom E r d v` that `d` is the closest strict dominator of `v`.

* `dominates_iff_idom_chain`: where every vertex has an immediate dominator, dominance is the
  chain of immediate dominators.
* `dominates_congr_iff`: deleting edges keeps the dominators exactly when every deleted edge
  leads to a vertex whose strict dominators all dominate the source of the edge.
-/

namespace Flow

universe u

variable {V : Type u} {E E' : V → V → Prop} {r : V}

/-- The paths from `r`, each listed with its last vertex first. -/
inductive Path (E : V → V → Prop) (r : V) : V → List V → Prop
  | start : Path E r r [r]
  | step {u v : V} {p : List V} (hp : Path E r u p) (h : E u v) : Path E r v (v :: p)

/-- Some path leads to `v`. -/
def Reachable (E : V → V → Prop) (r v : V) : Prop := ∃ p, Path E r v p

/-- Every path to `v` visits `u`. -/
def Dominates (E : V → V → Prop) (r u v : V) : Prop := ∀ p, Path E r v p → u ∈ p

/-- `d` dominates `v` and is another vertex. -/
def StrictDom (E : V → V → Prop) (r d v : V) : Prop := d ≠ v ∧ Dominates E r d v

/-- `d` is the **immediate dominator** of `v`: a strict dominator that every strict dominator
dominates. -/
def IsIdom (E : V → V → Prop) (r d v : V) : Prop :=
  StrictDom E r d v ∧ ∀ d', StrictDom E r d' v → Dominates E r d' d

/-! ### Paths -/

theorem Path.head_mem {v : V} {p : List V} (h : Path E r v p) : v ∈ p := by
  cases h <;> simp

theorem Path.entry_mem {v : V} {p : List V} (h : Path E r v p) : r ∈ p := by
  induction h with
  | start => simp
  | step _ _ ih => exact List.mem_cons_of_mem _ ih

theorem Path.mono (hE : ∀ u v, E u v → E' u v) {v : V} {p : List V} (h : Path E r v p) :
    Path E' r v p := by
  induction h with
  | start => exact .start
  | step _ h ih => exact ih.step (hE _ _ h)

/-- A path cut at a vertex it visits: a path to that vertex, no longer than the whole. -/
theorem Path.cut {u v : V} {p : List V} (h : Path E r v p) (hu : u ∈ p) :
    ∃ q, Path E r u q ∧ q.length ≤ p.length ∧ (u ≠ v → q.length < p.length) := by
  induction h with
  | start =>
    obtain rfl : u = r := by simpa using hu
    exact ⟨[u], .start, Nat.le_refl _, fun hne => absurd rfl hne⟩
  | @step w v p hp hE ih =>
    by_cases huv : u = v
    · subst huv
      exact ⟨u :: p, hp.step hE, Nat.le_refl _, fun hne => absurd rfl hne⟩
    · have hup : u ∈ p := by simpa [huv] using hu
      obtain ⟨q, hq, hle, -⟩ := ih hup
      exact ⟨q, hq, by simp; omega, fun _ => by simp; omega⟩

theorem Reachable.entry : Reachable E r r := ⟨_, .start⟩

theorem Reachable.step {u v : V} (hu : Reachable E r u) (h : E u v) : Reachable E r v := by
  obtain ⟨p, hp⟩ := hu
  exact ⟨_, hp.step h⟩

theorem Reachable.mono (hE : ∀ u v, E u v → E' u v) {v : V} (h : Reachable E r v) :
    Reachable E' r v := by
  obtain ⟨p, hp⟩ := h
  exact ⟨p, hp.mono hE⟩

theorem reachable_iff_reflTransGen {v : V} :
    Reachable E r v ↔ Relation.ReflTransGen E r v := by
  constructor
  · rintro ⟨p, hp⟩
    induction hp with
    | start => exact .refl
    | step _ h ih => exact ih.tail h
  · intro h
    induction h with
    | refl => exact .entry
    | tail _ h ih => exact ih.step h

/-! ### Paths that keep to a set -/

/-- Some walk leads from `u` to `v` and visits, after `u`, vertices of `S` only. -/
def Via (E : V → V → Prop) (S : V → Prop) (u v : V) : Prop :=
  Relation.ReflTransGen (fun a b => E a b ∧ S b) u v

theorem Via.mono {S S' : V → Prop} (hS : ∀ v, S v → S' v) {u v : V} (h : Via E S u v) :
    Via E S' u v := by
  induction h with
  | refl => exact .refl
  | tail _ hbc ih => exact Relation.ReflTransGen.tail ih ⟨hbc.1, hS _ hbc.2⟩

/-- A walk that keeps off `d` extends a path that avoids `d`. -/
theorem Path.extend {d u v : V} {p : List V} (hp : Path E r u p) (hd : d ∉ p)
    (h : Via E (· ≠ d) u v) : ∃ q, Path E r v q ∧ d ∉ q := by
  induction h with
  | refl => exact ⟨p, hp, hd⟩
  | @tail b c _ hbc ih =>
    obtain ⟨q, hq, hdq⟩ := ih
    exact ⟨c :: q, hq.step hbc.1, by simp [hdq, hbc.2.symm]⟩

/-- A path that avoids `d` keeps off it. -/
theorem Path.via {d v : V} {p : List V} (hp : Path E r v p) (hd : d ∉ p) :
    Via E (· ≠ d) r v := by
  induction hp with
  | start => exact .refl
  | step _ hE ih =>
    rw [List.mem_cons, not_or] at hd
    exact (ih hd.2).tail ⟨hE, fun h => hd.1 h.symm⟩

/-- A vertex other than the entry is no dominator of what is reached without it. -/
theorem not_dominates_of_via {d v : V} (hr : r ≠ d) (h : Via E (· ≠ d) r v) :
    ¬ Dominates E r d v := by
  intro hdom
  obtain ⟨q, hq, hdq⟩ := Path.extend Path.start (by simpa using hr.symm) h
  exact hdq (hdom q hq)

/-! ### Dominance -/

theorem dominates_refl (v : V) : Dominates E r v v := fun _ hp => hp.head_mem

/-- What dominates a vertex off which an edge leads away dominates the source of the edge. -/
theorem Dominates.source {d u v : V} (h : Dominates E r d v) (hdv : d ≠ v) (hE : E u v) :
    Dominates E r d u := by
  intro p hp
  have : d ∈ v :: p := h _ (hp.step hE)
  simpa [hdv] using this

theorem Dominates.trans {d u v : V} (h : Dominates E r d u) (h' : Dominates E r u v) :
    Dominates E r d v := by
  intro p hp
  induction hp with
  | start =>
    obtain rfl : u = r := by simpa using h' _ .start
    exact h _ .start
  | @step w v p hp hE ih =>
    by_cases huv : u = v
    · subst huv
      exact h _ (hp.step hE)
    · exact List.mem_cons_of_mem _ (ih (h'.source huv hE))

/-- Fewer edges, more dominators. -/
theorem Dominates.anti (hE : ∀ u v, E' u v → E u v) {d v : V} (h : Dominates E r d v) :
    Dominates E' r d v :=
  fun _ hp => h _ (hp.mono hE)

theorem not_strictDom_entry {d : V} : ¬ StrictDom E r d r := by
  rintro ⟨hne, hdom⟩
  exact hne (by simpa using hdom _ .start)

/-- Two vertices that dominate each other are one. -/
theorem Dominates.antisymm {u v : V} (hv : Reachable E r v) (huv : Dominates E r u v)
    (hvu : Dominates E r v u) : u = v := by
  by_contra hne
  -- from a path to `v` one cuts a shorter path to `u`, and from that a shorter one to `v`
  have key : ∀ n, ∀ p, Path E r v p → p.length = n → False := by
    intro n
    induction n using Nat.strongRecOn with
    | _ n ih =>
      rintro p hp rfl
      obtain ⟨q, hq, -, hlt⟩ := hp.cut (huv p hp)
      obtain ⟨q', hq', hle, -⟩ := hq.cut (hvu q hq)
      have := hlt hne
      exact ih q'.length (by omega) q' hq' rfl
  obtain ⟨p, hp⟩ := hv
  exact key _ p hp rfl

/-- What dominates a reachable vertex is reachable. -/
theorem Dominates.reachable {d v : V} (h : Dominates E r d v) (hv : Reachable E r v) :
    Reachable E r d := by
  obtain ⟨p, hp⟩ := hv
  obtain ⟨q, hq, -⟩ := hp.cut (h p hp)
  exact ⟨q, hq⟩

theorem IsIdom.unique {d d' v : V} (hv : Reachable E r v) (h : IsIdom E r d v)
    (h' : IsIdom E r d' v) : d = d' :=
  Dominates.antisymm (h'.1.2.reachable hv) (h'.2 d h.1) (h.2 d' h'.1)

/-- Where every vertex but the entry has an immediate dominator, **dominance is the chain of
immediate dominators**. -/
theorem dominates_iff_idom_chain
    (hex : ∀ v, Reachable E r v → v ≠ r → ∃ d, IsIdom E r d v) {u v : V}
    (hv : Reachable E r v) :
    Dominates E r u v ↔ Relation.ReflTransGen (IsIdom E r) u v := by
  constructor
  · -- by induction on the length of a path to `v`: the immediate dominator has a shorter one
    obtain ⟨p, hp⟩ := hv
    intro hdom
    induction hn : p.length using Nat.strongRecOn generalizing v p with
    | _ n ih =>
      by_cases huv : u = v
      · subst huv
        exact .refl
      have hvr : v ≠ r := by
        rintro rfl
        exact not_strictDom_entry ⟨huv, hdom⟩
      obtain ⟨d, hd⟩ := hex v ⟨p, hp⟩ hvr
      obtain ⟨q, hq, -, hlt⟩ := hp.cut (hd.1.2 p hp)
      have hlen : q.length < n := hn ▸ hlt hd.1.1
      exact (ih q.length hlen q hq (hd.2 u ⟨huv, hdom⟩) rfl).tail hd
  · intro h
    induction h with
    | refl => exact dominates_refl u
    | @tail d v _ hd ih =>
      exact (ih (hd.1.2.reachable hv)).trans hd.1.2

/-! ### Deleting edges -/

/-- **Deleting edges keeps the dominators** exactly when each deleted edge `x → w` leads to a
vertex whose strict dominators, after the deletion, all dominate `x`. -/
theorem dominates_congr_iff (hE : ∀ u v, E' u v → E u v) :
    (∀ v, Reachable E r v → ∀ u, Dominates E r u v ↔ Dominates E' r u v) ↔
      ∀ x w, Reachable E r x → E x w → ¬ E' x w →
        ∀ u, StrictDom E' r u w → Dominates E' r u x := by
  constructor
  · intro h x w hx hxw _ u hu
    have hdom : Dominates E r u w := (h w (hx.step hxw) u).2 hu.2
    exact (hdom.source hu.1 hxw).anti hE
  · intro h v hv u
    refine ⟨fun hdom => hdom.anti hE, fun hdom p hp => ?_⟩
    -- along a path with deleted edges, every vertex keeps its dominators behind it
    induction hp with
    | start => exact hdom _ .start
    | @step x w p hp hxw ih =>
      have hx : Reachable E r x := ⟨p, hp⟩
      by_cases huw : u = w
      · subst huw
        simp
      · refine List.mem_cons_of_mem _ (ih hx ?_)
        by_cases hE' : E' x w
        · exact hdom.source huw hE'
        · exact h x w hx hxw hE' u ⟨huw, hdom⟩

/-- Chains of immediate dominators that agree on the reachable vertices. -/
theorem idom_chain_mono (h : ∀ d v, Reachable E r v → IsIdom E r d v → IsIdom E' r d v)
    {u v : V} (hv : Reachable E r v) (hc : Relation.ReflTransGen (IsIdom E r) u v) :
    Relation.ReflTransGen (IsIdom E' r) u v := by
  induction hc with
  | refl => exact .refl
  | @tail d v _ hd ih => exact (ih (hd.1.2.reachable hv)).tail (h d v hv hd)

/-- Where the dominators agree, so do the immediate dominators. -/
theorem isIdom_congr (h : ∀ v, Reachable E r v → ∀ u, Dominates E r u v ↔ Dominates E' r u v)
    {d v : V} (hv : Reachable E r v) : IsIdom E r d v ↔ IsIdom E' r d v := by
  have hstrict : ∀ d, StrictDom E r d v ↔ StrictDom E' r d v := fun d =>
    and_congr_right fun _ => h v hv d
  constructor
  · rintro ⟨hd, hmin⟩
    have hrd := hd.2.reachable hv
    exact ⟨(hstrict d).1 hd, fun d' hd' => (h d hrd d').1 (hmin d' ((hstrict d').2 hd'))⟩
  · rintro ⟨hd, hmin⟩
    have hrd := ((hstrict d).2 hd).2.reachable hv
    exact ⟨(hstrict d).2 hd, fun d' hd' => (h d hrd d').2 (hmin d' ((hstrict d').1 hd'))⟩

/-- Exactness of a table of immediate dominators over fewer edges: it is exact over all edges
exactly when the dominators agree. -/
theorem idom_exact_iff {f : V → Option V} (hreach : ∀ v, Reachable E r v ↔ Reachable E' r v)
    (hex : ∀ v, Reachable E' r v → v ≠ r → ∃ d, f v = some d)
    (hf : ∀ v, Reachable E' r v → ∀ d, f v = some d ↔ IsIdom E' r d v) :
    (∀ v, Reachable E r v → ∀ d, f v = some d ↔ IsIdom E r d v) ↔
      ∀ v, Reachable E r v → ∀ u, Dominates E r u v ↔ Dominates E' r u v := by
  constructor
  · intro hf₂ v hv u
    have hex' : ∀ v, Reachable E' r v → v ≠ r → ∃ d, IsIdom E' r d v := by
      intro v hv hvr
      obtain ⟨d, hd⟩ := hex v hv hvr
      exact ⟨d, (hf v hv d).1 hd⟩
    have hex₂ : ∀ v, Reachable E r v → v ≠ r → ∃ d, IsIdom E r d v := by
      intro v hv hvr
      obtain ⟨d, hd⟩ := hex v ((hreach v).1 hv) hvr
      exact ⟨d, (hf₂ v hv d).1 hd⟩
    have hagree : ∀ d v, Reachable E r v → (IsIdom E r d v ↔ IsIdom E' r d v) := fun d v hv =>
      (hf₂ v hv d).symm.trans (hf v ((hreach v).1 hv) d)
    rw [dominates_iff_idom_chain hex₂ hv, dominates_iff_idom_chain hex' ((hreach v).1 hv)]
    refine ⟨idom_chain_mono (fun d v hv => (hagree d v hv).1) hv, ?_⟩
    exact idom_chain_mono (fun d v hv => (hagree d v ((hreach v).2 hv)).2) ((hreach v).1 hv)
  · intro h v hv d
    rw [hf v ((hreach v).1 hv) d]
    exact (isIdom_congr h hv).symm

end Flow
