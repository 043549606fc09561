import TrustMc.Horn.System
import Mathlib.Data.Nat.Basic

/-!
# Levels of a linear Horn system

A cost on the steps of a linear Horn system counts what a derivation traverses:
`DerivableIn cost n f` is a derivation of `f` of total cost `n`. A system of **level copies**
(`Copies`) replays the instances of another system on copies `copy l f` of its facts, a step
of cost `c` leading from level `l` to level `l + c`, and drops the steps that would leave the
levels `0, …, k`.

`Copies.derivable_iff`: the copies derive exactly the facts that have a derivation of cost at most
`k`.
-/

namespace Horn.System

universe u v

variable {F : Type u} {F' : Type v} {S : System F} {cost : F → F → ℕ}

/-- A derivation of `f` whose steps cost `n` in total. -/
inductive DerivableIn (S : System F) (cost : F → F → ℕ) : ℕ → F → Prop
  | fact {f : F} (h : S.fires none f) : DerivableIn S cost 0 f
  | step {n : ℕ} {g f : F} (hg : DerivableIn S cost n g) (h : S.fires (some g) f) :
      DerivableIn S cost (n + cost g f) f

/-- Forgetting the cost. -/
theorem DerivableIn.derivable {n : ℕ} {f : F} (h : S.DerivableIn cost n f) :
    S.Derivable f := by
  induction h with
  | fact h => exact .fact h
  | step _ h ih => exact .step ih h

/-- `S'` replays the instances of `S` on the copies at the levels `0, …, k`. -/
structure Copies (S : System F) (cost : F → F → ℕ) (k : ℕ) (S' : System F')
    (copy : ℕ → F → F') : Prop where
  /-- Facts are copied to level `0`, and nothing else fires without a premise. -/
  fires_none : ∀ f', S'.fires none f' ↔ ∃ f, S.fires none f ∧ copy 0 f = f'
  /-- A step of cost `c` leads from level `l` to level `l + c`. -/
  fires_some : ∀ g' f', S'.fires (some g') f' ↔ ∃ l g f, S.fires (some g) f ∧
    l + cost g f ≤ k ∧ copy l g = g' ∧ copy (l + cost g f) f = f'
  /-- A copy of a premise is no copy of another fact derived within the levels. -/
  premise_inj : ∀ l l' g g' f, l ≤ k → l' ≤ k → S.fires (some g) f → S.DerivableIn cost l' g' →
    copy l g = copy l' g' → l = l' ∧ g = g'

/-- **The copies are the bounded fragment**: a copy at a level up to `k` is derived exactly
when its original has a derivation of that cost. -/
theorem Copies.derivable_iff {S' : System F'} {copy : ℕ → F → F'} {k : ℕ}
    (h : Copies S cost k S' copy) {f' : F'} :
    S'.Derivable f' ↔ ∃ n ≤ k, ∃ f, S.DerivableIn cost n f ∧ copy n f = f' := by
  constructor
  · refine Derivable.invariant
      (P := fun f' => ∃ n ≤ k, ∃ f, S.DerivableIn cost n f ∧ copy n f = f') ?_ ?_
    · intro f' hf'
      obtain ⟨f, hf, rfl⟩ := (h.fires_none f').1 hf'
      exact ⟨0, k.zero_le, f, .fact hf, rfl⟩
    · rintro g' f' - ⟨n, hn, g, hg, rfl⟩ hf'
      obtain ⟨l, g₀, f, hf, hl, hcopy, rfl⟩ := (h.fires_some _ _).1 hf'
      -- the premise was derived at the level at which the clause reads it
      obtain ⟨rfl, rfl⟩ := h.premise_inj l n g₀ g f (by omega) hn hf hg hcopy
      exact ⟨l + cost g₀ f, hl, f, .step hg hf, rfl⟩
  · rintro ⟨n, hn, f, hf, rfl⟩
    induction hf with
    | fact hf => exact .fact ((h.fires_none _).2 ⟨_, hf, rfl⟩)
    | step _ hf ih =>
      exact .step (ih (by omega)) ((h.fires_some _ _).2 ⟨_, _, _, hf, hn, rfl, rfl⟩)

end Horn.System
