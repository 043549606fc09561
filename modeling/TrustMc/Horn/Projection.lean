import TrustMc.Horn.System

/-!
# Projections of linear Horn systems

A **projection** forgets a part of every fact. The projected system answers every step of the
system, so it derives the projection of what the system derives; the converse holds along the
steps that the system answers **from every derivable fact** of the step's projected premise:
there the part that is forgotten has no influence.

* `Derivable.project`: derivable facts have derivable projections.
* `Derivable.lift`: a derivation all of whose steps are answered is one of a projection.
-/

namespace Horn.System

universe u v

variable {F : Type u} {F' : Type v} {S : System F} {S' : System F'} {φ : F → F'}

/-- A system whose every step is a step of the projection derives the projections. -/
theorem Derivable.project (h : ∀ p f, S.fires p f → S'.fires (p.map φ) (φ f)) {f : F}
    (hf : S.Derivable f) : S'.Derivable (φ f) :=
  hf.map φ (fun f hf => .fact (h none f hf)) fun g f _ hg hf => .step hg (h (some g) f hf)

/-- The system answers a step between projections from every derivable fact of its premise. -/
def Answers (S : System F) (φ : F → F') (p' : Option F') (f' : F') : Prop :=
  ∀ p : Option F, (∀ g ∈ p, S.Derivable g) → p.map φ = p' → ∃ f, S.fires p f ∧ φ f = f'

/-- What is derived by answered steps is the projection of a derivable fact. -/
theorem Derivable.lift (h : ∀ p' f', S'.fires p' f' → S.Answers φ p' f') {f' : F'}
    (hf : S'.Derivable f') : ∃ f, S.Derivable f ∧ φ f = f' := by
  induction hf with
  | fact hfires =>
    obtain ⟨f, hf, rfl⟩ := h _ _ hfires none (by simp) rfl
    exact ⟨f, .fact hf, rfl⟩
  | step _ hfires ih =>
    obtain ⟨g, hg, rfl⟩ := ih
    obtain ⟨f, hf, rfl⟩ := h _ _ hfires (some g) (by simpa using hg) rfl
    exact ⟨f, .step hg hf, rfl⟩

end Horn.System
