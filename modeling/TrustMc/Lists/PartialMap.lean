import Mathlib.Data.List.Forall2

/-!
# Maps that may fail

`l.mapM f` for an `f` that may fail: it succeeds when `f` does on every element
(`exists_mapM`), and then relates the two lists entry by entry (`mapM_eq_some_iff`).
-/

namespace Lists

variable {α β : Type*} {f g : α → Option β} {l : List α} {r : List β}

/-- Mapping with failure relates the two lists entry by entry. -/
theorem forall₂_of_mapM :
    ∀ {l : List α} {r : List β}, l.mapM f = some r → List.Forall₂ (fun a b => f a = some b) l r
  | [], r, h => by
    obtain rfl : [] = r := Option.some.inj h
    exact .nil
  | a :: l, r, h => by
    rw [List.mapM_cons] at h
    obtain ⟨b, hb, h⟩ := Option.bind_eq_some_iff.1 h
    obtain ⟨bs, hbs, h⟩ := Option.bind_eq_some_iff.1 h
    obtain rfl := Option.some.inj h
    exact .cons hb (forall₂_of_mapM hbs)

theorem mapM_of_forall₂ (h : List.Forall₂ (fun a b => f a = some b) l r) :
    l.mapM f = some r := by
  induction h with
  | nil => rfl
  | cons hab _ ih => simp [List.mapM_cons, hab, ih]

theorem mapM_eq_some_iff : l.mapM f = some r ↔ List.Forall₂ (fun a b => f a = some b) l r :=
  ⟨forall₂_of_mapM, mapM_of_forall₂⟩

theorem mapM_congr : ∀ {l : List α}, (∀ a ∈ l, f a = g a) → l.mapM f = l.mapM g
  | [], _ => rfl
  | a :: l, h => by
    rw [List.mapM_cons, List.mapM_cons, h a List.mem_cons_self,
      mapM_congr fun b hb => h b (List.mem_cons_of_mem a hb)]

theorem exists_mapM (h : ∀ a ∈ l, ∃ b, f a = some b) : ∃ r, l.mapM f = some r := by
  induction l with
  | nil => exact ⟨[], rfl⟩
  | cons a l ih =>
    obtain ⟨b, hb⟩ := h a (by simp)
    obtain ⟨r, hr⟩ := ih fun a ha => h a (by simp [ha])
    exact ⟨b :: r, by simp [List.mapM_cons, hb, hr]⟩

theorem length_of_mapM (h : l.mapM f = some r) : r.length = l.length :=
  (forall₂_of_mapM h).length_eq.symm

/-- The positions are kept. -/
theorem getElem?_of_mapM (h : l.mapM f = some r) (i : ℕ) :
    (l[i]? = none ∧ r[i]? = none) ∨ ∃ a b, l[i]? = some a ∧ f a = some b ∧ r[i]? = some b := by
  by_cases hi : i < l.length
  · have hi' : i < r.length := length_of_mapM h ▸ hi
    have hf : f l[i] = some r[i] := (forall₂_of_mapM h).get hi hi'
    exact .inr ⟨l[i], r[i], List.getElem?_eq_getElem hi, hf, List.getElem?_eq_getElem hi'⟩
  · have hi' : r.length ≤ i := length_of_mapM h ▸ Nat.le_of_not_lt hi
    exact .inl ⟨List.getElem?_eq_none (Nat.le_of_not_lt hi), List.getElem?_eq_none hi'⟩

theorem exists_of_mapM (h : l.mapM f = some r) {i : ℕ} {a : α} (ha : l[i]? = some a) :
    ∃ b, f a = some b ∧ r[i]? = some b := by
  rcases getElem?_of_mapM h i with ⟨hl, -⟩ | ⟨a', b, hl, hb, hr⟩
  · simp [hl] at ha
  · obtain rfl : a' = a := by rw [hl] at ha; exact Option.some.inj ha
    exact ⟨b, hb, hr⟩

end Lists
