import Mathlib.Order.Basic
import Mathlib.Data.Set.Basic

/-!
# Linear Horn systems

A **linear Horn system** over facts `F` is a relation `fires p f` between an optional
premise `p` and a conclusion `f`: `fires none f` is an unconditional clause instance,
`fires (some g) f` an instance with the single premise `g`. Its least model is the
inductive predicate `Derivable`.

The three rules every transformation of a Horn system is justified by are here, once:

* **Invariants** (`Derivable.invariant`): a set closed under `fires` holds of every
  derivable fact.
* **Simulation** (`Derivable.map`): a function on facts along which every instance of one
  system is answered by a derivation of another transports derivability.
* **Monotonicity** (`Derivable.mono`): more clause instances derive more.

Everything is stated for arbitrary facts; nothing here knows of terms or sorts.
-/

namespace Horn

universe u v

/-- A linear Horn system: which conclusion fires from which optional premise. -/
structure System (F : Type u) where
  /-- `fires p f`: some clause instance derives `f` from the optional premise `p`. -/
  fires : Option F → F → Prop

namespace System

variable {F : Type u} {F' : Type v}

/-- The least model of a linear Horn system. -/
inductive Derivable (S : System F) : F → Prop
  | fact {f : F} (h : S.fires none f) : Derivable S f
  | step {g f : F} (hg : Derivable S g) (h : S.fires (some g) f) : Derivable S f

/-- Systems are ordered by their clause instances. -/
instance : LE (System F) := ⟨fun S S' => ∀ p f, S.fires p f → S'.fires p f⟩

/-- **Monotonicity**: more clause instances derive more. -/
theorem Derivable.mono {S S' : System F} (h : S ≤ S') {f : F} (hf : S.Derivable f) :
    S'.Derivable f := by
  induction hf with
  | fact hf => exact .fact (h _ _ hf)
  | step _ hf ih => exact .step ih (h _ _ hf)

/-- **Invariant rule**: a predicate closed under the clause instances whose premise is
derivable holds of every derivable fact. -/
theorem Derivable.invariant {S : System F} {P : F → Prop}
    (hfact : ∀ f, S.fires none f → P f)
    (hstep : ∀ g f, S.Derivable g → P g → S.fires (some g) f → P f)
    {f : F} (hf : S.Derivable f) : P f := by
  induction hf with
  | fact hf => exact hfact _ hf
  | step hg hf ih => exact hstep _ _ hg ih hf

/-- **Simulation rule**, along a function on facts: each instance is mapped to a derivation. -/
theorem Derivable.map {S : System F} {S' : System F'} (φ : F → F')
    (hfact : ∀ f, S.fires none f → S'.Derivable (φ f))
    (hstep : ∀ g f, S.Derivable g → S'.Derivable (φ g) → S.fires (some g) f →
      S'.Derivable (φ f))
    {f : F} (hf : S.Derivable f) : S'.Derivable (φ f) :=
  Derivable.invariant (P := fun f => S'.Derivable (φ f)) hfact hstep hf

/-- What a derivable fact was derived from. -/
theorem derivable_iff {S : System F} {f : F} :
    S.Derivable f ↔ S.fires none f ∨ ∃ g, S.Derivable g ∧ S.fires (some g) f := by
  constructor
  · rintro (h | ⟨hg, h⟩)
    · exact Or.inl h
    · exact Or.inr ⟨_, hg, h⟩
  · rintro (h | ⟨g, hg, h⟩)
    · exact .fact h
    · exact .step hg h

end System

end Horn
