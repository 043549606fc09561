import TrustMc.Lists.PartialMap
import TrustMc.Straightline.SubstMemo

/-!
# Substitution under limits

The walk that remembers nothing, under its depth limit and its visit budget, against the
substitution meant: it returns nothing else (`substituteInner_plain`), and it returns it once
both limits are large enough (`substituteInner_affords`).
-/

namespace TrustMc

namespace Straightline

open Budget Lists

variable {env : SymEnv} {resolving : List String} {e : Expr}

/-- Whatever the walk returns is meant. -/
theorem substituteInner_plain (maxDepth fuel d : ℕ) :
    (substituteInner maxDepth env fuel d resolving e).Ensures
      fun r => substitutePlain env resolving e = some r := by
  induction fuel generalizing d resolving e with
  | zero => exact .bail
  | succ fuel ih =>
    rw [substituteInner.eq_def]
    refine .seq ?_
    cases e with
    | var name s =>
      dsimp only
      split
      · rename_i hlookup
        exact .pure (substitutePlain_free hlookup)
      · rename_i value hlookup
        split
        · rename_i hname
          exact .pure (substitutePlain_met hname)
        · rename_i hname
          refine (ih (d + 1)).bind fun r hr => ?_
          split
          · exact .bail
          · rename_i hsort
            refine .pure ?_
            rw [substitutePlain_value hlookup hname, hr]
            exact Option.filter_some_pos (decide_eq_true (not_not.1 hsort))
    | app op args =>
      refine (Walk.Ensures.mapM fun a _ => ih (d + 1)).bind fun rs hrs => .pure ?_
      rw [substitutePlain_app, mapM_of_forall₂ hrs, Option.map_some]
    | quant q vs b =>
      refine (ih (d + 1)).bind fun r hr => .pure ?_
      rw [substitutePlain_quant, hr, Option.map_some]

theorem substituteInner_spends (maxDepth fuel d : ℕ) :
    (substituteInner maxDepth env fuel d resolving e).Spends 1 := by
  induction fuel generalizing d resolving e with
  | zero => exact .bail 1
  | succ fuel ih =>
    rw [substituteInner.eq_def]
    refine (Walk.Spends.enter maxDepth d).bind fun _ => ?_
    cases e with
    | var name s =>
      dsimp only
      split
      · exact .pure _
      · split
        · exact .pure _
        · refine ((ih (d + 1)).mono (Nat.zero_le 1)).bind fun r => ?_
          split
          · exact .bail 0
          · exact .pure _
    | app op args =>
      refine (Walk.Spends.mapM fun a _ => ?_).bind fun _ => .pure _
      exact (ih (d + 1)).mono (Nat.zero_le 1)
    | quant q vs b => exact ((ih (d + 1)).mono (Nat.zero_le 1)).bind fun _ => .pure _

/-! ### Limits that suffice -/

/-- With so many levels and visits, the walk returns the value. -/
def Affords {α : Type} (walk : ℕ → ℕ → ℕ → Walk α) (levels visits : ℕ) (a : α) : Prop :=
  ∀ maxDepth fuel d budget, levels ≤ fuel → d + levels ≤ maxDepth → visits ≤ budget →
    ∃ left, (walk maxDepth fuel d).result budget = (some a, left) ∧ budget ≤ left + visits

/-- Some limits suffice for the walk to return the value. -/
def Affordable {α : Type} (walk : ℕ → ℕ → ℕ → Walk α) (a : α) : Prop :=
  ∃ levels visits, Affords walk levels visits a

namespace Affordable

variable {α β : Type}

theorem pure (a : α) : Affordable (fun _ _ _ => Pure.pure a) a :=
  ⟨0, 0, fun _ _ _ budget _ _ _ => ⟨budget, rfl, le_rfl⟩⟩

theorem bind {walk : ℕ → ℕ → ℕ → Walk α} {a : α} {b : β} (next : α → ℕ → ℕ → ℕ → Walk β)
    (h : Affordable walk a) (h' : Affordable (next a) b) :
    Affordable (fun maxDepth fuel d => walk maxDepth fuel d >>= fun a => next a maxDepth fuel d)
      b := by
  obtain ⟨levels, visits, h⟩ := h
  obtain ⟨levels', visits', h'⟩ := h'
  refine ⟨max levels levels', visits + visits', fun maxDepth fuel d budget hfuel hdepth hle => ?_⟩
  obtain ⟨mid, hmid, hspent⟩ := h maxDepth fuel d budget (by omega) (by omega) (by omega)
  obtain ⟨left, hleft, hspent'⟩ := h' maxDepth fuel d mid (by omega) (by omega) (by omega)
  exact ⟨left, Walk.result_bind_eq_some.2 ⟨a, mid, hmid, hleft⟩, by omega⟩

theorem map {walk : ℕ → ℕ → ℕ → Walk α} {a : α} (f : α → β) (h : Affordable walk a) :
    Affordable (fun maxDepth fuel d => walk maxDepth fuel d >>= fun a => Pure.pure (f a)) (f a) :=
  h.bind (fun a _ _ _ => Pure.pure (f a)) (pure (f a))

theorem mapM {walk : α → ℕ → ℕ → ℕ → Walk β} {l : List α} {r : List β}
    (h : List.Forall₂ (fun a b => Affordable (walk a) b) l r) :
    Affordable (fun maxDepth fuel d => l.mapM fun a => walk a maxDepth fuel d) r := by
  induction h with
  | nil => exact pure []
  | @cons a b l r ha _ ih =>
    have hcons := ha.bind (fun b maxDepth fuel d => do
      let bs ← l.mapM fun a => walk a maxDepth fuel d
      Pure.pure (b :: bs)) (ih.map (b :: ·))
    simpa only [List.mapM_cons] using hcons

/-- A walk one level further down, after a visit. -/
theorem visit {walk body : ℕ → ℕ → ℕ → Walk α} {a : α} (h : Affordable body a)
    (hwalk : ∀ maxDepth fuel d,
      walk maxDepth (fuel + 1) d = Walk.enter maxDepth d >>= fun _ => body maxDepth fuel (d + 1)) :
    Affordable walk a := by
  obtain ⟨levels, visits, h⟩ := h
  refine ⟨levels + 1, visits + 1, fun maxDepth fuel d budget hfuel hdepth hle => ?_⟩
  obtain ⟨fuel, rfl⟩ : ∃ k, fuel = k + 1 := ⟨fuel - 1, by omega⟩
  obtain ⟨budget, rfl⟩ : ∃ k, budget = k + 1 := ⟨budget - 1, by omega⟩
  obtain ⟨left, hleft, hspent⟩ := h maxDepth fuel (d + 1) budget (by omega) (by omega) (by omega)
  refine ⟨left, ?_, by omega⟩
  rw [hwalk]
  refine Walk.result_bind_eq_some.2 ⟨(), budget, ?_, hleft⟩
  exact Walk.result_enter_eq_some.2 ⟨rfl, by omega⟩

end Affordable

/-- The substitution meant, when it has a result, is what the walk returns under limits that are
large enough. -/
theorem substituteInner_affordable {r : Expr} (h : substitutePlain env resolving e = some r) :
    Affordable (fun maxDepth fuel d => substituteInner maxDepth env fuel d resolving e) r := by
  induction resolving, e using substitutePlain.induct env generalizing r with
  | case1 resolving name s hlookup =>
    -- the variable has no value
    rw [substitutePlain_free hlookup] at h
    obtain rfl := Option.some.inj h
    refine (Affordable.pure _).visit fun maxDepth fuel d => ?_
    rw [substituteInner.eq_def]
    simp only [hlookup]
  | case2 resolving name s value hlookup hname =>
    -- the variable is met below its own value
    rw [substitutePlain_met hname] at h
    obtain rfl := Option.some.inj h
    refine (Affordable.pure _).visit fun maxDepth fuel d => ?_
    rw [substituteInner.eq_def]
    simp only [hlookup, if_pos hname]
  | case3 resolving name s value hlookup hname ih =>
    -- the value is substituted, and its sort is checked
    rw [substitutePlain_value hlookup hname, Option.filter_eq_some_iff] at h
    obtain ⟨hvalue, hsort⟩ := h
    have hkept : ¬ r.sort ≠ s := not_not.2 (of_decide_eq_true hsort)
    have hchecked := (ih hvalue).bind
      (fun resolved _ _ _ => if resolved.sort ≠ s then Walk.bail else pure resolved) (b := r) ?_
    · refine hchecked.visit fun maxDepth fuel d => ?_
      rw [substituteInner.eq_def]
      simp only [hlookup, if_neg hname]
    · rw [if_neg hkept]
      exact .pure r
  | case4 resolving op args ih =>
    -- the limits of the arguments add up
    rw [substitutePlain_app, Option.map_eq_some_iff] at h
    obtain ⟨rs, hrs, rfl⟩ := h
    have hih : ∀ a ∈ args, ∀ r, substitutePlain env resolving a = some r → Affordable
        (fun maxDepth fuel d => substituteInner maxDepth env fuel d resolving a) r :=
      fun a ha _ hr => ih a ha hr
    have hargs : List.Forall₂ (fun a r => Affordable
        (fun maxDepth fuel d => substituteInner maxDepth env fuel d resolving a) r) args rs :=
      ((List.forall₂_and_left args rs).2 ⟨hih, forall₂_of_mapM hrs⟩).imp fun _ r h => h.1 r h.2
    refine ((Affordable.mapM hargs).map (Expr.app op)).visit fun maxDepth fuel d => ?_
    rw [substituteInner.eq_def]
  | case5 resolving q vs b ih =>
    rw [substitutePlain_quant, Option.map_eq_some_iff] at h
    obtain ⟨r, hr, rfl⟩ := h
    refine ((ih hr).map (Expr.quant q vs)).visit fun maxDepth fuel d => ?_
    rw [substituteInner.eq_def]

end Straightline

end TrustMc
