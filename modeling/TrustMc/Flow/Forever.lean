import Mathlib.Data.Set.Finite.Basic
import Mathlib.Data.Fintype.Pigeonhole
import Mathlib.Logic.Relation
import Mathlib.Order.WellFounded

/-!
# Runs without end

A run of a relation that never ends. On finitely many vertices there is one exactly where a cycle
is reached (`runsForever_iff_cycle`).
-/

namespace Flow

open Relation

variable {α β : Type*} {R : α → α → Prop} {a b : α}

/-- There is an infinite run from `a`. -/
def RunsForever (R : α → α → Prop) (a : α) : Prop :=
  ∃ run : ℕ → α, run 0 = a ∧ ∀ n, R (run n) (run (n + 1))

theorem RunsForever.head (hab : R a b) (h : RunsForever R b) : RunsForever R a := by
  obtain ⟨run, rfl, hrun⟩ := h
  refine ⟨fun n => Nat.casesOn n a run, rfl, fun n => ?_⟩
  cases n with
  | zero => exact hab
  | succ n => exact hrun n

theorem RunsForever.of_reach (hab : ReflTransGen R a b) (h : RunsForever R b) :
    RunsForever R a := by
  induction hab using ReflTransGen.head_induction_on with
  | refl => exact h
  | head hac _ ih => exact ih.head hac

/-- A run is a run of every relation it maps to. -/
theorem RunsForever.map {S : β → β → Prop} (f : α → β) (hf : ∀ x y, R x y → S (f x) (f y))
    (h : RunsForever R a) : RunsForever S (f a) := by
  obtain ⟨run, rfl, hrun⟩ := h
  exact ⟨f ∘ run, rfl, fun n => hf _ _ (hrun n)⟩

/-- What can always go on within a set runs forever. -/
theorem runsForever_of_progress {P : α → Prop} (hstep : ∀ x, P x → ∃ y, R x y ∧ P y) (ha : P a) :
    RunsForever R a := by
  refine not_acc_iff_exists_descending_chain.1 fun hacc : Acc (fun y x => R x y) a => ?_
  induction hacc with
  | intro x _ ih =>
    obtain ⟨y, hxy, hy⟩ := hstep x ha
    exact ih y hxy hy

theorem runsForever_of_cycle (h : TransGen R a a) : RunsForever R a := by
  refine runsForever_of_progress (P := fun x => TransGen R x x) (fun x hx => ?_) h
  obtain ⟨y, hxy, hyx⟩ := TransGen.head'_iff.1 hx
  exact ⟨y, hxy, TransGen.tail' hyx hxy⟩

theorem reach_run {run : ℕ → α} (hrun : ∀ n, R (run n) (run (n + 1))) {i j : ℕ} (hij : i ≤ j) :
    ReflTransGen R (run i) (run j) := by
  induction j, hij using Nat.le_induction with
  | base => exact .refl
  | succ j _ ih => exact ih.tail (hrun j)

/-- A run through finitely many vertices comes back to one of them. -/
theorem runsForever_iff_cycle (hfin : {b | ReflTransGen R a b}.Finite) :
    RunsForever R a ↔ ∃ b, ReflTransGen R a b ∧ TransGen R b b := by
  constructor
  · rintro ⟨run, rfl, hrun⟩
    have hmem : ∀ n, run n ∈ {b | ReflTransGen R (run 0) b} :=
      fun n => reach_run hrun n.zero_le
    have : Finite {b | ReflTransGen R (run 0) b} := hfin
    obtain ⟨i, j, hne, heq⟩ := Finite.exists_ne_map_eq_of_infinite
      fun n => (⟨run n, hmem n⟩ : {b | ReflTransGen R (run 0) b})
    have hcycle : ∀ {i j : ℕ}, i < j → run i = run j → TransGen R (run i) (run i) :=
      fun {i j} hij h => by
        have htail := TransGen.head' (hrun i) (reach_run hrun hij)
        rwa [← h] at htail
    have hrun_eq : run i = run j := congrArg Subtype.val heq
    rcases Nat.lt_or_gt_of_ne hne with hij | hij
    · exact ⟨run i, hmem i, hcycle hij hrun_eq⟩
    · exact ⟨run j, hmem j, hcycle hij hrun_eq.symm⟩
  · rintro ⟨b, hab, hb⟩
    exact (runsForever_of_cycle hb).of_reach hab

end Flow
