import TrustMc.Budget.Steps
import TrustMc.ConstProp.Faithful

/-!
# The rounds of equality propagation end

The loops of `propagateThroughEqualities` run until a round records nothing. Each of them ends
after as many rounds as it has equations (`equalityRounds_stable`, `resolveRounds_stable`) or
aliases (`aliasRounds_stable`): a step that records a name is the last one that can at its
equation, since a side that is a variable is known then, and so is the other one, if it is a
variable too.
-/

namespace TrustMc

namespace ConstProp

open Budget

/-- What the first loop of `propagate_through_equalities` leaves. -/
def equalityRounds (flat : List Expr) (known : Known) : Known :=
  untilStable (fun known => flat.foldl propagateStep known) (flat.length + 1) known

/-- What the last loop of `resolve_array_store_selects` leaves. -/
def resolveRounds (stores : Known) (flat : List Expr) (known : Known) : Known :=
  untilStable (fun known => flat.foldl (resolveStep stores) known) (flat.length + 1) known

/-! ### Settled equations -/

theorem containsKey_insert {known : Known} {n k : String} {c : Expr} :
    (known.insert n c).containsKey k = (decide (k = n) || known.containsKey k) := by
  rw [Known.containsKey, lookup_insert]
  split_ifs with h <;> simp [h, Known.containsKey]

/-- A side of an equation that is a variable is known. -/
def isKnownSide (known : Known) : Expr → Bool
  | .var name _ => known.containsKey name
  | _ => true

/-- Both sides of an equation that are variables are known. -/
def isSettled (known : Known) : Expr → Bool
  | .app .eq [lhs, rhs] => isKnownSide known lhs && isKnownSide known rhs
  | _ => true

theorem isKnownSide_insert {known : Known} {e : Expr} (h : isKnownSide known e = true) (n : String)
    (c : Expr) : isKnownSide (known.insert n c) e = true := by
  cases e with
  | var m s =>
    rw [isKnownSide] at h ⊢
    rw [containsKey_insert, h, Bool.or_true]
  | app op args => rfl
  | quant q vs body => rfl

theorem isSettled_insert {known : Known} {e : Expr} (h : isSettled known e = true) (n : String)
    (c : Expr) : isSettled (known.insert n c) e = true := by
  unfold isSettled at h ⊢
  split
  · rw [Bool.and_eq_true] at h ⊢
    exact ⟨isKnownSide_insert h.1 n c, isKnownSide_insert h.2 n c⟩
  · rfl

/-- Recording a name for the one side that is a variable, or the last one, settles. -/
theorem isSettled_of_insert {known : Known} {a b : Expr} {n : String} {s : SmtSort} (c : Expr)
    (h : (a = .var n s ∧ isKnownSide known b = true) ∨
      (b = .var n s ∧ isKnownSide known a = true))
    (hn : known.containsKey n = false) :
    isSettled known (a.eq b) = false ∧ isSettled (known.insert n c) (a.eq b) = true := by
  have hnew : isKnownSide (known.insert n c) (.var n s) = true := by
    rw [isKnownSide, containsKey_insert, decide_eq_true rfl, Bool.true_or]
  have hold : isKnownSide known (.var n s) = false := hn
  rcases h with ⟨rfl, hb⟩ | ⟨rfl, ha⟩
  · exact ⟨by rw [isSettled, hold, Bool.false_and],
      by rw [isSettled, hnew, isKnownSide_insert hb, Bool.and_true]⟩
  · exact ⟨by rw [isSettled, hold, Bool.and_false],
      by rw [isSettled, hnew, isKnownSide_insert ha, Bool.and_true]⟩

theorem learn_of_ne {known : Known} {n : String} {o : Option Expr} (h : learn known n o ≠ known) :
    known.containsKey n = false ∧ ∃ c, o = some c ∧ learn known n o = known.insert n c := by
  unfold learn at h ⊢
  split at h
  · rename_i c
    split_ifs at h with hn
    · exact absurd rfl h
    · exact ⟨Bool.eq_false_iff.2 hn, c, rfl, by simp [hn]⟩
  · exact absurd rfl h

theorem isSettled_propagateStep {known : Known} {e : Expr} (h : propagateStep known e ≠ known) :
    isSettled known e = false ∧ isSettled (propagateStep known e) e = true := by
  -- recording the variable of one side, the other side being known
  have hside : ∀ {a b : Expr} {n : String} {s : SmtSort} {o : Option Expr},
      ((a = .var n s ∧ isKnownSide known b = true) ∨ (b = .var n s ∧ isKnownSide known a = true)) →
      learn known n o ≠ known →
      isSettled known (a.eq b) = false ∧ isSettled (learn known n o) (a.eq b) = true := by
    intro a b n s o hab hne
    obtain ⟨hn, c, -, hinsert⟩ := learn_of_ne hne
    rw [hinsert]
    exact isSettled_of_insert c hab hn
  unfold propagateStep at h ⊢
  split at h
  case h_2 => exact absurd rfl h
  rename_i lhs rhs
  unfold propagateEq at h ⊢
  split at h
  · rename_i a s b s'
    split at h
    · rename_i c hb
      exact hside (Or.inl ⟨rfl, by simp [isKnownSide, Known.containsKey, hb]⟩) h
    · rename_i hb
      obtain ⟨-, c, ha, -⟩ := learn_of_ne h
      exact hside (Or.inr ⟨rfl, by simp [isKnownSide, Known.containsKey, ha]⟩) h
  · rename_i name s hne
    refine hside (Or.inl ⟨rfl, ?_⟩) h
    cases rhs with
    | var n' s' => exact absurd rfl (hne n' s')
    | app op args => rfl
    | quant q vs b => rfl
  · rename_i name s hne
    refine hside (Or.inr ⟨rfl, ?_⟩) h
    cases lhs with
    | var n' s' => exact absurd rfl (hne n' s')
    | app op args => rfl
    | quant q vs b => rfl
  · exact absurd rfl h

/-- **The first loop ends**: one more round changes nothing. -/
theorem equalityRounds_stable (flat : List Expr) (known : Known) :
    flat.foldl propagateStep (equalityRounds flat known) = equalityRounds flat known :=
  untilStable_stable_of_spends isSettled
    (fun _ e e' h => propagateStep_induction (P := fun known => isSettled known e' = true)
      (fun _ n c h _ => isSettled_insert h n c) h e)
    (fun _ _ _ h => isSettled_propagateStep h) (Nat.le_succ _) known

/-! ### Arrays -/

/-- Both names of an alias have a store. -/
def isAliasSettled (stores : Known) (p : String × String) : Bool :=
  stores.containsKey p.1 && stores.containsKey p.2

theorem propagateAlias_cases (stores : Known) (p : String × String) :
    propagateAlias stores p = stores ∨ isAliasSettled stores p = false ∧
      isAliasSettled (propagateAlias stores p) p = true ∧
      ∃ n e, propagateAlias stores p = stores.insert n e := by
  unfold propagateAlias
  split
  · rename_i st h₁ h₂
    refine Or.inr ⟨by simp [isAliasSettled, Known.containsKey, h₂], ?_, _, _, rfl⟩
    simp [isAliasSettled, containsKey_insert]
    simp [Known.containsKey, h₁]
  · rename_i st h₁ h₂
    refine Or.inr ⟨by simp [isAliasSettled, Known.containsKey, h₁], ?_, _, _, rfl⟩
    simp [isAliasSettled, containsKey_insert]
    simp [Known.containsKey, h₂]
  · exact Or.inl rfl

/-- **The loop over the aliases ends.** -/
theorem aliasRounds_stable (stores : Known) (aliases : List (String × String)) :
    aliases.foldl propagateAlias (propagateStoreAliases stores aliases) =
      propagateStoreAliases stores aliases := by
  refine untilStable_stable_of_spends isAliasSettled (fun stores p q hq => ?_)
    (fun stores p _ hne => ?_) (Nat.le_succ _) stores
  · rcases propagateAlias_cases stores p with hsame | ⟨-, -, n, e, hinsert⟩
    · rwa [hsame]
    · rw [isAliasSettled, Bool.and_eq_true] at hq
      rw [hinsert, isAliasSettled, containsKey_insert, containsKey_insert, hq.1, hq.2,
        Bool.or_true, Bool.or_true, Bool.and_true]
  · obtain ⟨hfree, hset, -⟩ := (propagateAlias_cases stores p).resolve_left hne
    exact ⟨hfree, hset⟩

/-- A name is read out of a store by an equation whose other side is known. -/
theorem isKnownSide_of_resolveSelectFromStore {a b : Expr} {known stores : Known} {n : String}
    {c : Expr} (h : resolveSelectFromStore a b known stores = some (n, c)) :
    (∃ s, a = .var n s) ∧ known.containsKey n = false ∧ isKnownSide known b = true := by
  refine ⟨?_, containsKey_of_resolveSelectFromStore h, ?_⟩
  · unfold resolveSelectFromStore at h
    split at h
    case h_2 => cases h
    split_ifs at h with hnew
    split at h
    case h_2 => cases h
    simp only [Option.bind_eq_bind, Option.bind_eq_some_iff] at h
    obtain ⟨tracked, -, val, -, h⟩ := h
    obtain ⟨-, h⟩ := Option.ite_none_right_eq_some.1 h
    obtain ⟨rfl, -⟩ := Prod.mk.inj (Option.some.inj h)
    exact ⟨_, rfl⟩
  · cases b with
    | app op args => rfl
    | quant q vs body => rfl
    | var m s =>
      -- a variable without a constant is no read of an array
      by_contra hm
      have hlookup : known.lookup m = none := by
        rw [isKnownSide, Known.containsKey, Bool.not_eq_true, Option.isSome_eq_false_iff] at hm
        exact Option.isNone_iff_eq_none.1 hm
      have hsub : substituteVars (.var m s) known = .var m s := by
        rw [substituteVars, substituteVarsInner, hlookup]
        exact ite_self _
      unfold resolveSelectFromStore at h
      split at h
      case h_2 => cases h
      rw [hsub] at h
      split_ifs at h

theorem isSettled_resolveStep {known stores : Known} {e : Expr}
    (h : resolveStep stores known e ≠ known) :
    isSettled known e = false ∧ isSettled (resolveStep stores known e) e = true := by
  unfold resolveStep at h ⊢
  split at h
  case h_2 => exact absurd rfl h
  rename_i lhs rhs
  split at h
  case h_2 => exact absurd rfl h
  rename_i n c hn
  rcases Option.or_eq_some_iff.1 hn with hn | ⟨-, hn⟩
  · obtain ⟨⟨s, rfl⟩, hnew, hknown⟩ := isKnownSide_of_resolveSelectFromStore hn
    exact isSettled_of_insert c (Or.inl ⟨rfl, hknown⟩) hnew
  · obtain ⟨⟨s, rfl⟩, hnew, hknown⟩ := isKnownSide_of_resolveSelectFromStore hn
    exact isSettled_of_insert c (Or.inr ⟨rfl, hknown⟩) hnew

/-- **The last loop ends.** -/
theorem resolveRounds_stable (stores : Known) (flat : List Expr) (known : Known) :
    flat.foldl (resolveStep stores) (resolveRounds stores flat known) =
      resolveRounds stores flat known :=
  untilStable_stable_of_spends isSettled
    (fun _ e e' h => resolveStep_induction (P := fun known => isSettled known e' = true)
      (fun _ n c h _ => isSettled_insert h n c) h stores e)
    (fun _ _ _ h => isSettled_resolveStep h) (Nat.le_succ _) known

end ConstProp

end TrustMc
