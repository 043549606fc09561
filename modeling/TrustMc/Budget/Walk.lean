import Mathlib.Data.List.Forall2
import Mathlib.Data.Nat.Notation

/-!
# Budgeted walks

A **walk** computes a value or bails, over a counter of the visits that remain; bailing
keeps the counter. `Walk.enter` is the visit: it bails when no visit remains or the walk
is too deep.

What a walk is proved to do is independent of the budget: `Walk.Ensures` says that
whatever value it returns, from whatever counter, has a property. The rules follow the
construction of the walk: `Ensures.pure`, `Ensures.bind`, `Ensures.bail`, `Ensures.attempt`
and, for a list of walks, `Ensures.mapM`, `Ensures.foldlM` and `Ensures.foldlM_unchanged`.

`Walk.Spends` says how many visits a walk that returns has spent at least.
-/

namespace Budget

/-- A computation that may bail, over the visits that remain. -/
abbrev Walk (α : Type) : Type := OptionT (StateM ℕ) α

namespace Walk

variable {α β : Type}

/-- The value, if any, and the visits that remain. -/
def result (m : Walk α) (budget : ℕ) : Option α × ℕ := m.run.run budget

/-- Gives up. -/
def bail : Walk α := failure

/-- Visits a node at the given depth. -/
def enter (maxDepth depth : ℕ) : Walk Unit := do
  let left ← get
  if left = 0 then bail
  else
    set (left - 1)
    if maxDepth ≤ depth then bail

/-- Runs the walk; a bail becomes `none`. -/
def attempt (m : Walk α) : Walk (Option α) := OptionT.mk (some <$> m.run)

/-- The value of an option, or a bail. -/
def ofOption : Option α → Walk α
  | some a => pure a
  | none => bail

theorem result_bind (m : Walk α) (f : α → Walk β) (budget : ℕ) :
    result (m >>= f) budget =
      match result m budget with
      | (some a, left) => result (f a) left
      | (none, left) => (none, left) := by
  simp only [result, OptionT.run_bind, Option.elimM, StateT.run_bind]
  cases h : m.run.run budget with
  | mk o left => cases o <;> rfl

theorem result_bind_eq_some {m : Walk α} {f : α → Walk β} {budget left : ℕ} {b : β} :
    result (m >>= f) budget = (some b, left) ↔
      ∃ a mid, result m budget = (some a, mid) ∧ result (f a) mid = (some b, left) := by
  rw [result_bind]
  rcases hrun : result m budget with ⟨_ | a, mid⟩
  · simp
  · constructor
    · exact fun h => ⟨a, mid, rfl, h⟩
    · rintro ⟨a', mid', h, h'⟩
      cases h
      exact h'

theorem result_enter (maxDepth depth budget : ℕ) :
    result (enter maxDepth depth) budget =
      if budget = 0 then (none, 0)
      else if maxDepth ≤ depth then (none, budget - 1) else (some (), budget - 1) := by
  have hget : result (get : Walk ℕ) budget = (some budget, budget) := rfl
  have hset : result (set (budget - 1) : Walk PUnit) budget = (some ⟨⟩, budget - 1) := rfl
  rw [enter, result_bind, hget]
  dsimp only
  split
  · rename_i h
    subst h
    rfl
  · rw [result_bind, hset]
    dsimp only
    split <;> rfl

theorem result_enter_eq_some {maxDepth depth budget left : ℕ} {u : Unit} :
    result (enter maxDepth depth) budget = (some u, left) ↔
      budget = left + 1 ∧ depth < maxDepth := by
  rw [result_enter]
  split
  · simp; omega
  · split
    · simp; omega
    · simp; omega

/-- Every value the walk returns, from any budget, has the property. -/
def Ensures (m : Walk α) (P : α → Prop) : Prop :=
  ∀ budget a, (result m budget).1 = some a → P a

/-- The walk can return the value, from some budget. -/
def Returns (m : Walk α) (a : α) : Prop := ∃ budget, (result m budget).1 = some a

namespace Ensures

variable {P Q : α → Prop} {R : β → Prop}

theorem pure {a : α} (h : P a) : Ensures (Pure.pure a) P := by
  intro budget a' ha
  obtain rfl : a = a' := Option.some.inj ha
  exact h

theorem bail : Ensures (Walk.bail : Walk α) P := by
  intro budget a ha
  cases ha

theorem mono {m : Walk α} (hm : Ensures m P) (h : ∀ a, P a → Q a) : Ensures m Q :=
  fun budget a ha => h a (hm budget a ha)

theorem returns (m : Walk α) : Ensures m (Returns m) := fun budget _ ha => ⟨budget, ha⟩

theorem of_returns {m : Walk α} (hm : Ensures m P) {a : α} (ha : Returns m a) : P a := by
  obtain ⟨budget, ha⟩ := ha
  exact hm budget a ha

theorem trivial (m : Walk α) : Ensures m fun _ => True := fun _ _ _ => True.intro

/-- What a bind returns, from what its first walk returns. -/
theorem bind {m : Walk α} {f : α → Walk β} (hm : Ensures m P)
    (hf : ∀ a, P a → Ensures (f a) R) : Ensures (m >>= f) R := by
  intro budget b hb
  rw [result_bind] at hb
  cases hrun : result m budget with
  | mk o left =>
    rw [hrun] at hb
    cases o with
    | none => cases hb
    | some a => exact hf a (hm budget a (by rw [hrun])) left b hb

/-- A walk after another whose value is not used. -/
theorem seq {m : Walk α} {n : Walk β} (hn : Ensures n R) : Ensures (m >>= fun _ => n) R :=
  (trivial m).bind fun _ _ => hn

theorem ofOption {o : Option α} (h : ∀ a, o = some a → P a) : Ensures (Walk.ofOption o) P := by
  cases o with
  | none => exact bail
  | some a => exact pure (h a rfl)

/-- A walk that is attempted: what it returns, if it returns. -/
theorem attempt {m : Walk α} (hm : Ensures m P) :
    Ensures (Walk.attempt m) fun o => ∀ a, o = some a → P a := by
  intro budget o ho a ha
  subst ha
  refine hm budget a ?_
  exact Option.some.inj ho

/-- Mapping a walk over a list relates the elements pairwise. -/
theorem mapM {f : α → Walk β} {S : α → β → Prop} :
    ∀ {l : List α}, (∀ a ∈ l, Ensures (f a) (S a)) → Ensures (l.mapM f) (List.Forall₂ S l)
  | [], _ => by
    rw [List.mapM_nil]
    exact pure .nil
  | a :: l, h => by
    rw [List.mapM_cons]
    refine (h a List.mem_cons_self).bind fun b hb => ?_
    refine (mapM fun a' ha' => h a' (List.mem_cons_of_mem a ha')).bind fun bs hbs => ?_
    exact pure (.cons hb hbs)

/-- An invariant of the accumulator is preserved by a fold of walks. -/
theorem foldlM {f : β → α → Walk β} {l : List α} {init : β} (hinit : R init)
    (hstep : ∀ b, ∀ a ∈ l, R b → Ensures (f b a) R) : Ensures (l.foldlM f init) R := by
  induction l generalizing init with
  | nil => exact pure hinit
  | cons a l ih =>
    rw [List.foldlM_cons]
    refine (hstep init a List.mem_cons_self hinit).bind fun b hb => ih hb ?_
    exact fun b' a' ha' => hstep b' a' (List.mem_cons_of_mem a ha')

/-- A fold that keeps an invariant, and that leaves no change unflagged: if the flag is not
set at the end, no step changed the accumulator, and every element was seen with it. -/
theorem foldlM_unchanged {f : β → α → Walk β} {l : List α} {init : β} {changed : β → Bool}
    {seen : β → α → Prop} (hinit : R init)
    (hstep : ∀ b, ∀ a ∈ l, R b →
      Ensures (f b a) fun b' => R b' ∧ (changed b' = false → b' = b ∧ seen b a)) :
    Ensures (l.foldlM f init)
      fun b' => R b' ∧ (changed b' = false → b' = init ∧ ∀ a ∈ l, seen init a) := by
  induction l generalizing init with
  | nil => exact pure ⟨hinit, fun _ => ⟨rfl, by simp⟩⟩
  | cons a l ih =>
    rw [List.foldlM_cons]
    refine (hstep init a List.mem_cons_self hinit).bind fun b ⟨hb, hseen⟩ => ?_
    refine (ih hb fun b' a' ha' => hstep b' a' (List.mem_cons_of_mem a ha')).mono ?_
    rintro b' ⟨hb', hrest⟩
    refine ⟨hb', fun hflag => ?_⟩
    obtain ⟨rfl, hl⟩ := hrest hflag
    obtain ⟨rfl, ha⟩ := hseen hflag
    exact ⟨rfl, List.forall_mem_cons.2 ⟨ha, hl⟩⟩

end Ensures

/-! ### Visits -/

/-- If the walk returns, it has spent so many visits at least. -/
def Spends (visits : ℕ) (m : Walk α) : Prop :=
  ∀ budget a left, result m budget = (some a, left) → left + visits ≤ budget

namespace Spends

theorem pure (a : α) : Spends 0 (Pure.pure a) := by
  rintro budget _ _ ⟨⟩
  exact Nat.le_refl budget

theorem bail (visits : ℕ) : Spends visits (Walk.bail : Walk α) := by
  rintro budget _ _ ⟨⟩

theorem enter (maxDepth depth : ℕ) : Spends 1 (Walk.enter maxDepth depth) := by
  intro budget u left h
  exact Nat.le_of_eq (result_enter_eq_some.1 h).1.symm

theorem mono {m : Walk α} {visits visits' : ℕ} (h : Spends visits m) (hle : visits' ≤ visits) :
    Spends visits' m := by
  intro budget a left hrun
  have hspent := h budget a left hrun
  omega

/-- What the first walk has spent. -/
theorem bind {m : Walk α} {f : α → Walk β} {visits : ℕ} (hm : Spends visits m)
    (hf : ∀ a, Spends 0 (f a)) : Spends visits (m >>= f) := by
  intro budget b left h
  obtain ⟨a, mid, hmid, hleft⟩ := result_bind_eq_some.1 h
  have hspent := hm budget a mid hmid
  have hspent' := hf a mid b left hleft
  omega

theorem mapM {f : α → Walk β} : ∀ {l : List α}, (∀ a ∈ l, Spends 0 (f a)) → Spends 0 (l.mapM f)
  | [], _ => by
    rw [List.mapM_nil]
    exact pure []
  | a :: l, h => by
    rw [List.mapM_cons]
    refine (h a List.mem_cons_self).bind fun b => ?_
    refine (mapM fun a' ha' => h a' (List.mem_cons_of_mem a ha')).bind fun bs => ?_
    exact pure (b :: bs)

end Spends

end Walk

end Budget
