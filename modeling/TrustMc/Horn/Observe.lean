import TrustMc.Horn.System

/-!
# What a linear Horn system can observe

Two facts are **indistinguishable** when the steps of the system keep them so and no step
ever leads from only one of them to an observed fact. Systems that derive the same facts up to
indistinguishability derive an observed fact together (`exists_derivable_iff`).
-/

namespace Horn.System

universe u

variable {F : Type u} {S S' : System F} {Obs : F → Prop}

/-- A symmetric relation that the steps keep and that relates observed facts only to observed
facts. -/
structure IsBisim (S : System F) (Obs : F → Prop) (R : F → F → Prop) : Prop where
  /-- Related facts may be exchanged. -/
  symm : ∀ f f', R f f' → R f' f
  /-- Observation tells no related facts apart. -/
  obs : ∀ f f', R f f' → Obs f → Obs f'
  /-- A step from a fact is answered from every related fact. -/
  step : ∀ g g' f, R g g' → S.fires (some g) f → ∃ f', S.fires (some g') f' ∧ R f f'

/-- No run of the system tells the facts apart. -/
def Indist (S : System F) (Obs : F → Prop) (f f' : F) : Prop := ∃ R, IsBisim S Obs R ∧ R f f'

namespace Indist

theorem refl (f : F) : Indist S Obs f f :=
  ⟨Eq, ⟨fun _ _ => Eq.symm, fun _ _ h hf => h ▸ hf, fun _ _ f h hf => ⟨f, h ▸ hf, rfl⟩⟩, rfl⟩

theorem symm {f f' : F} (h : Indist S Obs f f') : Indist S Obs f' f := by
  obtain ⟨R, hR, hff'⟩ := h
  exact ⟨R, hR, hR.symm f f' hff'⟩

theorem obs {f f' : F} (h : Indist S Obs f f') (hf : Obs f) : Obs f' := by
  obtain ⟨R, hR, hff'⟩ := h
  exact hR.obs f f' hff' hf

theorem step {g g' f : F} (h : Indist S Obs g g') (hf : S.fires (some g) f) :
    ∃ f', S.fires (some g') f' ∧ Indist S Obs f f' := by
  obtain ⟨R, hR, hgg'⟩ := h
  obtain ⟨f', hf', hff'⟩ := hR.step g g' f hgg' hf
  exact ⟨f', hf', R, hR, hff'⟩

theorem trans {f₁ f₂ f₃ : F} (h : Indist S Obs f₁ f₂) (h' : Indist S Obs f₂ f₃) :
    Indist S Obs f₁ f₃ := by
  refine ⟨fun f f' => ∃ f₀, Indist S Obs f f₀ ∧ Indist S Obs f₀ f', ⟨?_, ?_, ?_⟩, f₂, h, h'⟩
  · rintro f f' ⟨f₀, hl, hr⟩
    exact ⟨f₀, hr.symm, hl.symm⟩
  · rintro f f' ⟨f₀, hl, hr⟩ hf
    exact hr.obs (hl.obs hf)
  · rintro g g' f ⟨g₀, hl, hr⟩ hf
    obtain ⟨f₀, hf₀, hl⟩ := hl.step hf
    obtain ⟨f', hf', hr⟩ := hr.step hf₀
    exact ⟨f', hf', f₀, hl, hr⟩

end Indist

/-- `S'` fires what `S` fires, and nothing else, up to facts `S` cannot tell apart; asked of
the premises that `S'` derives. -/
def AgreesUpTo (S S' : System F) (Obs : F → Prop) : Prop :=
  ∀ p, (∀ g, p = some g → S'.Derivable g) →
    (∀ f, S.fires p f → ∃ f', S'.fires p f' ∧ Indist S Obs f f') ∧
      ∀ f, S'.fires p f → ∃ f', S.fires p f' ∧ Indist S Obs f f'

/-- Every fact of `S` is matched by a fact of `S'`. -/
theorem AgreesUpTo.derivable {f : F} (h : AgreesUpTo S S' Obs) (hf : S.Derivable f) :
    ∃ f', S'.Derivable f' ∧ Indist S Obs f f' := by
  refine Derivable.invariant (P := fun f => ∃ f', S'.Derivable f' ∧ Indist S Obs f f') ?_ ?_ hf
  · intro f hf
    obtain ⟨f', hf', hff'⟩ := (h none (by simp)).1 f hf
    exact ⟨f', .fact hf', hff'⟩
  · rintro g f - ⟨g', hg', hgg'⟩ hf
    obtain ⟨f₁, hf₁, hff₁⟩ := hgg'.step hf
    obtain ⟨f', hf', hf₁f'⟩ := (h (some g') (by rintro _ ⟨⟩; exact hg')).1 f₁ hf₁
    exact ⟨f', .step hg' hf', hff₁.trans hf₁f'⟩

/-- Every fact of `S'` is matched by a fact of `S`. -/
theorem AgreesUpTo.derivable' {f : F} (h : AgreesUpTo S S' Obs) (hf : S'.Derivable f) :
    ∃ f', S.Derivable f' ∧ Indist S Obs f f' := by
  refine Derivable.invariant (P := fun f => ∃ f', S.Derivable f' ∧ Indist S Obs f f') ?_ ?_ hf
  · intro f hf
    obtain ⟨f', hf', hff'⟩ := (h none (by simp)).2 f hf
    exact ⟨f', .fact hf', hff'⟩
  · rintro g f hg ⟨g', hg', hgg'⟩ hf
    obtain ⟨f₁, hf₁, hff₁⟩ := (h (some g) (by rintro _ ⟨⟩; exact hg)).2 f hf
    obtain ⟨f', hf', hf₁f'⟩ := hgg'.step hf₁
    exact ⟨f', .step hg' hf', hff₁.trans hf₁f'⟩

/-- **Systems that agree up to what can be observed** derive observed facts together. -/
theorem AgreesUpTo.exists_derivable_iff (h : AgreesUpTo S S' Obs) :
    (∃ f, Obs f ∧ S.Derivable f) ↔ ∃ f, Obs f ∧ S'.Derivable f := by
  constructor
  · rintro ⟨f, hobs, hf⟩
    obtain ⟨f', hf', hff'⟩ := h.derivable hf
    exact ⟨f', hff'.obs hobs, hf'⟩
  · rintro ⟨f, hobs, hf⟩
    obtain ⟨f', hf', hff'⟩ := h.derivable' hf
    exact ⟨f', hff'.obs hobs, hf'⟩

end Horn.System
