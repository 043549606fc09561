import TrustMc.Flow.Dominance
import Mathlib.Order.Preorder.Finite
import Mathlib.Order.WellFounded

/-!
# Forward must-analysis

A fact **must** hold at a vertex of a flow graph when it holds at the end of every path to it.
Each vertex may assert or deny the fact on the way out (`word`); at the entry it does not hold.

* `MeetOverPaths`: the last vertex passed that speaks about the fact asserts it, on every path.
* `MeetOverPaths.passes`, `meetOverPaths_of_passes`: the meet over paths solves the equations at
  the joins, and every solution that fails at the entry is below it.
* `descend`: the iteration of a monotone operator downward from a point that it decreases,
  which ends where strict descents do.
-/

namespace Flow

/-! ### Descents -/

section Descend

variable {α : Type*} [PartialOrder α]

/-- Iterates a monotone operator from a point that it decreases, until nothing changes: every
change is a strict descent. -/
def descend [WellFoundedLT α] [DecidableEq α] (f : α → α) (hf : Monotone f) (a : α)
    (ha : f a ≤ a) : α :=
  if f a = a then a else descend f hf (f a) (hf ha)
termination_by (wellFounded_lt (α := α)).wrap a
decreasing_by exact lt_of_le_of_ne ha ‹_›

variable [WellFoundedLT α] [DecidableEq α] {f : α → α} {hf : Monotone f} {a : α} {ha : f a ≤ a}

/-- Nothing changes at the end. -/
theorem apply_descend : f (descend f hf a ha) = descend f hf a ha := by
  fun_induction descend f hf a ha with
  | case1 a ha h => exact h
  | case2 a ha h ih => exact ih

/-- What the operator preserves holds at the end. -/
theorem descend_induction {P : α → Prop} (hstep : ∀ a, P a → P (f a)) (h : P a) :
    P (descend f hf a ha) := by
  fun_induction descend f hf a ha with
  | case1 a ha _ => exact h
  | case2 a ha _ ih => exact ih (hstep a h)

end Descend

/-! ### Meets over paths -/

variable {V : Type*} {E : V → V → Prop} {r : V}

/-- What is known after a vertex that says `word`, where `q` was known before it. -/
def Passes (word : Option Bool) (q : Prop) : Prop := word = some true ∨ word = none ∧ q

/-- On every path to `v`, the last of the vertices before it that speaks asserts the fact. -/
def MeetOverPaths (E : V → V → Prop) (r : V) (word : V → Option Bool) (v : V) : Prop :=
  ∀ p, Path E r v p → p.tail.findSome? word = some true

theorem Path.eq_cons {v : V} {p : List V} (h : Path E r v p) : p = v :: p.tail := by
  cases h <;> rfl

/-- A reachable vertex is the entry, or has a reachable vertex before it. -/
theorem Reachable.eq_or_edge {v : V} (h : Reachable E r v) :
    v = r ∨ ∃ u, Reachable E r u ∧ E u v := by
  obtain ⟨p, hp⟩ := h
  rcases hp with _ | ⟨hp, hE⟩
  · exact .inl rfl
  · exact .inr ⟨_, ⟨_, hp⟩, hE⟩

section Meet

variable {word : V → Option Bool} {d : V → Prop}

/-- The path without a step asserts nothing. -/
theorem not_meetOverPaths_entry : ¬ MeetOverPaths E r word r := fun h => by
  simpa using h [r] .start

/-- The meet over paths passes backward along an edge. -/
theorem MeetOverPaths.passes {u v : V} (h : MeetOverPaths E r word v) (hu : Reachable E r u)
    (hE : E u v) : Passes (word u) (MeetOverPaths E r word u) := by
  have htail : ∀ p, Path E r u p → (word u).or (p.tail.findSome? word) = some true := by
    intro p hp
    have hv := h (v :: p) (hp.step hE)
    rw [List.tail_cons, hp.eq_cons, List.findSome?_cons] at hv
    cases hw : word u <;> simpa [hw] using hv
  obtain ⟨p, hp⟩ := hu
  cases hw : word u with
  | none => exact .inr ⟨rfl, fun q hq => by simpa [hw] using htail q hq⟩
  | some b => exact .inl (by simpa [hw] using htail p hp)

/-- What holds at no entry and only where every edge into it passes it on holds by the meet
over paths. -/
theorem meetOverPaths_of_passes (hentry : ¬ d r)
    (hd : ∀ {u v}, Reachable E r u → E u v → d v → Passes (word u) (d u)) {v : V} (hv : d v) :
    MeetOverPaths E r word v := by
  intro p hp
  induction hp with
  | start => exact absurd hv hentry
  | @step u v p hp hE ih =>
    rw [List.tail_cons, hp.eq_cons, List.findSome?_cons]
    rcases hd ⟨p, hp⟩ hE hv with hw | ⟨hw, hu⟩
    · rw [hw]
    · rw [hw]
      exact ih hu

end Meet

end Flow
