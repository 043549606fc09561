import TrustMc.ConstProp.SubstSound
import TrustMc.ConstProp.Propagate

/-!
# What is learned about a rule holds

Where the constraints of a rule hold, every name that `propagateThroughEqualities` records has
the constant it is recorded with (`propagateThroughEqualities_sound`), and every position that
`detectIdentityPositions` reports hands its value on (`detectIdentityPositions_sound`).

* `Γ` gives every name its one sort, as the declarations of a verification condition do.
* `Tracked Γ H m`: under `H`, every name in the map `m` has the value of its term. The map of
  constants and the map of array stores both satisfy it, and every loop preserves it.
-/

namespace TrustMc

namespace ConstProp

open Carriers Carriers.Val TrustMc.Expr Budget

variable {T : Theory} {H : T.Env → Prop} {Γ : String → SmtSort}

/-- Every free name occurs at its sort. -/
def Typed (Γ : String → SmtSort) (e : Expr) : Prop := ∀ n s, (n, s) ∈ e.freeOccs → s = Γ n

/-- What the terms of a verification condition satisfy. -/
structure Sane (Γ : String → SmtSort) (e : Expr) : Prop where
  /-- Operators take arguments of their sorts. -/
  wellSorted : e.WellSorted
  /-- Constant evaluation misreads no node. -/
  regular : Regular e
  /-- Names occur at their sorts. -/
  typed : Typed Γ e

namespace Sane

theorem arg {op : Op} {args : List Expr} (h : Sane Γ (.app op args)) {a : Expr} (ha : a ∈ args) :
    Sane Γ a := by
  refine ⟨(wellSorted_app.1 h.wellSorted).2 a ha, (regular_app.1 h.regular).2 a ha, ?_⟩
  intro n s hs
  refine h.typed n s ?_
  rw [freeOccs_app]
  exact List.mem_flatMap.2 ⟨a, ha, hs⟩

theorem sort_var {n : String} {s : SmtSort} (h : Sane Γ (.var n s)) : s = Γ n :=
  h.typed n s (by simp)

theorem of_folds {e e' : Expr} (h : Sane Γ e) (hf : Folds H e e') : Sane Γ e' := by
  refine ⟨hf.rewrites.wellSorted, hf.regular, fun n s hs => h.typed n s ?_⟩
  simpa using hf.rewrites.occs (n, s) hs

end Sane

/-- Under `H`, the name has the value of the term. -/
structure Means (Γ : String → SmtSort) (H : T.Env → Prop) (n : String) (e : Expr) : Prop where
  sane : Sane Γ e
  /-- The term has the name's sort. -/
  sort : e.sort = Γ n
  /-- The name has the term's value. -/
  eval : ∀ ρ, H ρ → (Expr.var n (Γ n)).eval ρ = e.eval ρ

/-- Every name in the map has the value of its term. -/
def Tracked (Γ : String → SmtSort) (H : T.Env → Prop) (m : Known) : Prop :=
  ∀ p ∈ m, Means Γ H p.1 p.2

/-- Every name in the map has the value of its term, which is a constant. -/
structure Learned (Γ : String → SmtSort) (H : T.Env → Prop) (known : Known) : Prop where
  tracked : Tracked Γ H known
  /-- The terms are constants. -/
  isConstant : ∀ p ∈ known, isConstant p.2 = true

theorem mem_of_lookup {m : Known} {n : String} {e : Expr} (h : m.lookup n = some e) :
    (n, e) ∈ m := by
  obtain ⟨l₁, l₂, rfl, -⟩ := List.lookup_eq_some_iff.1 h
  simp

theorem mem_insert {m : Known} {n : String} {e : Expr} {p : String × Expr}
    (h : p ∈ m.insert n e) : p = (n, e) ∨ p ∈ m :=
  (List.mem_cons.1 h).imp_right fun h => (List.mem_filter.1 h).1

theorem Tracked.nil : Tracked Γ H [] := fun _ h => by simp at h

theorem Tracked.lookup {m : Known} (h : Tracked Γ H m) {n : String} {e : Expr}
    (he : m.lookup n = some e) : Means Γ H n e := h (n, e) (mem_of_lookup he)

theorem Tracked.insert {m : Known} (h : Tracked Γ H m) {n : String} {e : Expr}
    (he : Means Γ H n e) : Tracked Γ H (m.insert n e) := by
  intro p hp
  rcases mem_insert hp with rfl | hp
  · exact he
  · exact h p hp

namespace Learned

variable {known : Known}

theorem nil : Learned Γ H [] := ⟨.nil, fun _ h => by simp at h⟩

theorem insert (h : Learned Γ H known) {n : String} {c : Expr} (hc : Means Γ H n c)
    (hconst : ConstProp.isConstant c = true) : Learned Γ H (known.insert n c) := by
  refine ⟨h.tracked.insert hc, fun p hp => ?_⟩
  rcases mem_insert hp with rfl | hp
  · exact hconst
  · exact h.isConstant p hp

theorem lookup (h : Learned Γ H known) {n : String} {c : Expr} (hc : known.lookup n = some c) :
    Means Γ H n c ∧ ConstProp.isConstant c = true :=
  ⟨h.tracked.lookup hc, h.isConstant _ (mem_of_lookup hc)⟩

theorem constants (h : Learned Γ H known) : known.Constants :=
  ⟨fun _ _ hc => (h.lookup hc).2, fun _ _ hc => (h.lookup hc).1.sane.wellSorted,
    fun _ _ hc => (h.lookup hc).1.sane.regular⟩

theorem holds (h : Learned Γ H known) {ρ : T.Env} (hρ : H ρ) : known.Holds ρ := by
  intro n c hc
  have hm := h.tracked.lookup hc
  rw [hm.sort]
  exact hm.eval ρ hρ

theorem fits (h : Learned Γ H known) {e : Expr} (he : Typed Γ e) : known.Fits e := by
  intro n s c hs hc
  rw [(h.tracked.lookup hc).sort, he n s hs]

/-- Substituting what is known. -/
theorem substitute (h : Learned Γ H known) {e : Expr} (he : Sane Γ e) :
    Sane Γ (substituteVars e known) ∧ (substituteVars e known).sort = e.sort ∧
      ∀ ρ, H ρ → (substituteVars e known).eval ρ = e.eval ρ := by
  have hf : Folds (T := T) known.Holds e (substituteVars e known) :=
    substituteVars_sound h.constants he.wellSorted he.regular (h.fits he.typed)
  exact ⟨he.of_folds hf, hf.rewrites.sort, fun ρ hρ => hf.rewrites.eval ρ (h.holds hρ)⟩


/-- Recording a constant that the name has. -/
theorem learn (h : Learned Γ H known) {n : String} {o : Option Expr}
    (ho : ∀ c, o = some c → Means Γ H n c ∧ ConstProp.isConstant c = true) :
    Learned Γ H (learn known n o) := by
  unfold ConstProp.learn
  split
  · rename_i c
    split_ifs
    · exact h
    · exact h.insert (ho c rfl).1 (ho c rfl).2
  · exact h

/-- A term that evaluates to a constant has its value. -/
theorem evaluate (h : Learned Γ H known) {e c : Expr} (he : Sane Γ e)
    (hc : evaluate known e = some c) :
    Sane Γ c ∧ c.sort = e.sort ∧ ConstProp.isConstant c = true ∧
      ∀ ρ, H ρ → c.eval ρ = e.eval ρ := by
  obtain ⟨hsane, hsort, heval⟩ := h.substitute he
  unfold ConstProp.evaluate at hc
  dsimp only at hc
  split_ifs at hc with hconst
  · obtain rfl := Option.some.inj hc
    exact ⟨hsane, hsort, hconst, heval⟩
  · obtain ⟨hr, hscalar⟩ := tryEvalToConst_sound (H := H) hsane.wellSorted hsane.regular hc
    have hregc := regular_of_isScalarConstant hscalar hr.wellSorted
    exact ⟨hsane.of_folds ⟨hr, hregc⟩, hr.sort.trans hsort,
      isConstant_of_isScalarConstant hscalar hr.wellSorted,
      fun ρ hρ => (hr.eval ρ hρ).trans (heval ρ hρ)⟩

end Learned

/-! ### Equations -/

/-- A name that an equation gives a term. -/
theorem Means.of_eq {n : String} {s : SmtSort} {e : Expr} (hv : Sane Γ (.var n s)) (he : Sane Γ e)
    (hs : e.sort = s) (h : ∀ ρ, H ρ → (Expr.var n s).eval ρ = e.eval ρ) : Means Γ H n e := by
  obtain rfl := hv.sort_var
  exact ⟨he, hs, h⟩

/-- A name that is equal to a name. -/
theorem Means.of_var {a b : String} {s s' : SmtSort} {e : Expr} (ha : Sane Γ (.var a s))
    (hb : Sane Γ (.var b s')) (hs : s = s') (he : Means Γ H b e)
    (h : ∀ ρ, H ρ → (Expr.var a s).eval ρ = (Expr.var b s').eval ρ) : Means Γ H a e := by
  obtain rfl := hb.sort_var
  exact .of_eq ha he.sane (he.sort.trans hs.symm) fun ρ hρ => (h ρ hρ).trans (he.eval ρ hρ)

/-- The constraints of a rule: sane, Boolean, and true under `H`. -/
def Constrained (Γ : String → SmtSort) (H : T.Env → Prop) (e : Expr) : Prop :=
  Sane Γ e ∧ e.sort = .bool ∧ ∀ ρ, H ρ → Holds ρ e

theorem Constrained.eq {a b : Expr} (h : Constrained Γ H (a.eq b)) :
    Sane Γ a ∧ Sane Γ b ∧ a.sort = b.sort ∧ ∀ ρ, H ρ → a.eval ρ = b.eval ρ :=
  ⟨h.1.arg (by simp), h.1.arg (by simp), sort_eq_of_wellSorted_eq h.1.wellSorted,
    fun ρ hρ => holds_eq.1 (h.2.2 ρ hρ)⟩

theorem Learned.propagateStep {known : Known} (h : Learned Γ H known) {e : Expr}
    (he : Constrained Γ H e) : Learned Γ H (propagateStep known e) := by
  unfold ConstProp.propagateStep
  split
  case h_2 => exact h
  rename_i lhs rhs
  obtain ⟨hl, hr, hs, heval⟩ := he.eq
  -- a side that is a variable has the value of the other side, if that is a constant
  have hside : ∀ {n : String} {s : SmtSort} {t : Expr}, Sane Γ (.var n s) → Sane Γ t →
      s = t.sort → (∀ ρ, H ρ → (Expr.var n s).eval ρ = t.eval ρ) →
      Learned Γ H (ConstProp.learn known n
        (if ConstProp.isConstant t then some t else ConstProp.evaluate known t)) := by
    intro n s t hn ht hst hval
    refine h.learn fun c hc => ?_
    split_ifs at hc with hconst
    · obtain rfl := Option.some.inj hc
      exact ⟨.of_eq hn ht hst.symm hval, hconst⟩
    · obtain ⟨hcs, hcsort, hcc, hceval⟩ := h.evaluate ht hc
      exact ⟨.of_eq hn hcs (hcsort.trans hst.symm) fun ρ hρ =>
        (hval ρ hρ).trans (hceval ρ hρ).symm, hcc⟩
  unfold propagateEq
  split
  · rename_i a s b s'
    split
    · rename_i c hb
      refine h.learn fun c' hc' => ?_
      obtain rfl := Option.some.inj hc'
      exact ⟨.of_var hl hr hs (h.lookup hb).1 heval, (h.lookup hb).2⟩
    · refine h.learn fun c ha => ⟨.of_var hr hl hs.symm (h.lookup ha).1 fun ρ hρ =>
        (heval ρ hρ).symm, (h.lookup ha).2⟩
  · exact hside hl hr hs heval
  · exact hside hr hl hs.symm fun ρ hρ => (heval ρ hρ).symm
  · exact h

/-! ### Arrays -/

theorem Tracked.recordStore {known stores : Known} (hk : Learned Γ H known)
    (h : Tracked Γ H stores) {a b : Expr} (ha : Sane Γ a) (hb : Sane Γ b) (hs : a.sort = b.sort)
    (heval : ∀ ρ, H ρ → a.eval ρ = b.eval ρ) : Tracked Γ H (recordStore known stores a b) := by
  unfold ConstProp.recordStore
  split
  · rename_i n s
    obtain ⟨hsane, hsort, hsub⟩ := hk.substitute hb
    dsimp only
    split_ifs
    · exact h.insert (.of_eq ha hsane (hsort.trans hs.symm) fun ρ hρ =>
        (heval ρ hρ).trans (hsub ρ hρ).symm)
    · exact h
  · exact h

theorem Tracked.collectStore {known stores : Known} (hk : Learned Γ H known)
    (h : Tracked Γ H stores) {e : Expr} (he : Constrained Γ H e) :
    Tracked Γ H (collectStore known stores e) := by
  unfold ConstProp.collectStore
  split
  · rename_i lhs rhs
    obtain ⟨hl, hr, hs, heval⟩ := he.eq
    exact (h.recordStore hk hl hr hs heval).recordStore hk hr hl hs.symm fun ρ hρ =>
      (heval ρ hρ).symm
  · exact h

/-- Aliased names have one value. -/
theorem alias_of_constrained {e : Expr} (he : Constrained Γ H e) {p : String × String}
    (hp : arrayAlias e = some p) :
    Γ p.1 = Γ p.2 ∧ ∀ ρ, H ρ → (Expr.var p.1 (Γ p.1)).eval ρ = (Expr.var p.2 (Γ p.2)).eval ρ := by
  unfold arrayAlias at hp
  split at hp
  case h_2 => cases hp
  rename_i a s b s'
  obtain ⟨-, hp⟩ := Option.ite_none_right_eq_some.1 hp
  obtain rfl := Option.some.inj hp
  obtain ⟨hl, hr, hs, heval⟩ := he.eq
  obtain rfl := hl.sort_var
  obtain rfl := hr.sort_var
  exact ⟨hs, heval⟩

theorem Tracked.propagateAlias {stores : Known} (h : Tracked Γ H stores) {p : String × String}
    (hs : Γ p.1 = Γ p.2)
    (hp : ∀ ρ, H ρ → (Expr.var p.1 (Γ p.1)).eval ρ = (Expr.var p.2 (Γ p.2)).eval ρ) :
    Tracked Γ H (propagateAlias stores p) := by
  unfold ConstProp.propagateAlias
  split
  · rename_i store ha hb
    have hm := h.lookup ha
    exact h.insert ⟨hm.sane, hm.sort.trans hs, fun ρ hρ => (hp ρ hρ).symm.trans (hm.eval ρ hρ)⟩
  · rename_i store ha hb
    have hm := h.lookup hb
    exact h.insert ⟨hm.sane, hm.sort.trans hs.symm, fun ρ hρ => (hp ρ hρ).trans (hm.eval ρ hρ)⟩
  · exact h

/-- Replacing the array of a store. -/
theorem Sane.store {array array' index value : Expr} (h : Sane Γ (array.store index value))
    (h' : Sane Γ array') (hs : array'.sort = array.sort) : Sane Γ (array'.store index value) := by
  refine ⟨wellSorted_app.2 ⟨?_, ?_⟩, regular_app.2 ⟨?_, ?_⟩, fun n s hn => ?_⟩
  · simpa [hs] using (wellSorted_app.1 h.wellSorted).1
  · simpa using ⟨h'.wellSorted, (h.arg (by simp : index ∈ _)).wellSorted,
      (h.arg (by simp : value ∈ _)).wellSorted⟩
  · simpa [hs] using (regular_app.1 h.regular).1
  · simpa using ⟨h'.regular, (h.arg (by simp : index ∈ _)).regular,
      (h.arg (by simp : value ∈ _)).regular⟩
  · simp only [freeOccs_app, List.flatMap_cons, List.flatMap_nil, List.append_nil,
      List.mem_append] at hn
    rcases hn with hn | hn | hn
    · exact h'.typed n s hn
    · exact (h.arg (by simp : index ∈ _)).typed n s hn
    · exact (h.arg (by simp : value ∈ _)).typed n s hn

theorem expandArrayStoresBounded_sound {known stores : Known} (hk : Learned Γ H known)
    (h : Tracked Γ H stores) (depth : ℕ) {e : Expr} (he : Sane Γ e) :
    Sane Γ (expandArrayStoresBounded stores known depth e) ∧
      (expandArrayStoresBounded stores known depth e).sort = e.sort ∧
      ∀ ρ, H ρ → (expandArrayStoresBounded stores known depth e).eval ρ = e.eval ρ := by
  induction depth generalizing e with
  | zero => exact ⟨he, rfl, fun _ _ => rfl⟩
  | succ depth ih =>
    unfold expandArrayStoresBounded
    split
    case h_2 => exact ⟨he, rfl, fun _ _ => rfl⟩
    rename_i array index value
    have harray : Sane Γ array := he.arg (by simp)
    -- the array the expansion goes on with denotes the array of the store
    have hinner : ∀ o : Option Expr,
        (∀ s, o = some s → Sane Γ s ∧ s.sort = array.sort ∧ ∀ ρ, H ρ → s.eval ρ = array.eval ρ) →
        Sane Γ (o.getD array) ∧ (o.getD array).sort = array.sort ∧
          ∀ ρ, H ρ → (o.getD array).eval ρ = array.eval ρ := by
      intro o ho
      cases o with
      | none => exact ⟨harray, rfl, fun _ _ => rfl⟩
      | some s => exact ho s rfl
    have hstep : ∀ e' : Expr, (Sane Γ e' ∧ e'.sort = array.sort ∧
        ∀ ρ, H ρ → e'.eval ρ = array.eval ρ) →
        Sane Γ ((expandArrayStoresBounded stores known depth e').store index value) ∧
          ((expandArrayStoresBounded stores known depth e').store index value).sort =
            (array.store index value).sort ∧
          ∀ ρ, H ρ → ((expandArrayStoresBounded stores known depth e').store index value).eval ρ =
            (array.store index value).eval ρ := by
      rintro e' ⟨hsane, hsort, heval⟩
      obtain ⟨hsane', hsort', heval'⟩ := ih hsane
      refine ⟨he.store hsane' (hsort'.trans hsort), ?_, fun ρ hρ => ?_⟩
      · simp [Op.resultSort, hsort', hsort]
      · rw [eval_store, eval_store, heval' ρ hρ, heval ρ hρ]
    refine hstep _ (hinner _ fun s hs => ?_)
    split at hs
    · rename_i n sort
      obtain ⟨store, hstore, rfl⟩ := Option.map_eq_some_iff.1 hs
      have hm := h.lookup hstore
      obtain ⟨hsane, hsort, heval⟩ := hk.substitute hm.sane
      obtain rfl := harray.sort_var
      exact ⟨hsane, hsort.trans hm.sort, fun ρ hρ => (heval ρ hρ).trans (hm.eval ρ hρ).symm⟩
    · cases hs

theorem resolveSelectFromStore_sound {known stores : Known} (hk : Learned Γ H known)
    (h : Tracked Γ H stores) {a b : Expr} (ha : Sane Γ a) (hb : Sane Γ b) (hs : a.sort = b.sort)
    (heval : ∀ ρ, H ρ → a.eval ρ = b.eval ρ) {n : String} {c : Expr}
    (hn : resolveSelectFromStore a b known stores = some (n, c)) :
    Means Γ H n c ∧ ConstProp.isConstant c = true := by
  unfold resolveSelectFromStore at hn
  split at hn
  case h_2 => cases hn
  rename_i name s
  split_ifs at hn
  obtain ⟨hsub, hsort, hsubeval⟩ := hk.substitute hb
  split at hn
  case h_2 => cases hn
  rename_i arrName arrSort index heq
  rw [heq] at hsub hsort hsubeval
  simp only [Option.bind_eq_bind, Option.bind_eq_some_iff] at hn
  obtain ⟨store, hstore, val, hval, hn⟩ := hn
  obtain ⟨hconst, hn⟩ := Option.ite_none_right_eq_some.1 hn
  obtain ⟨rfl, rfl⟩ := Prod.mk.inj (Option.some.inj hn)
  have hm := h.lookup hstore
  have harr : Sane Γ (.var arrName arrSort) := hsub.arg (by simp)
  have hindex : Sane Γ index := hsub.arg (by simp)
  obtain rfl := harr.sort_var
  obtain ⟨hs₁, hsort₁, heval₁⟩ := hk.substitute hm.sane
  obtain ⟨hs₂, hsort₂, heval₂⟩ := expandArrayStoresBounded_sound hk h 8 hs₁
  -- the expanded store is the array that is read
  generalize hexp : expandArrayStoresBounded stores known 8 (substituteVars store known) =
    expanded at hs₂ hsort₂ heval₂ hval
  have hes : expanded.sort = Γ arrName := hsort₂.trans (hsort₁.trans hm.sort)
  have hws : (expanded.select index).WellSorted := by
    refine wellSorted_app.2 ⟨?_, by simpa using ⟨hs₂.wellSorted, hindex.wellSorted⟩⟩
    simpa [hes] using (wellSorted_app.1 hsub.wellSorted).1
  obtain ⟨hr, hreg⟩ := evalSelectStoreConst_sound (H := H) hws hs₂.regular hval
  refine ⟨.of_eq ha ⟨hr.wellSorted, hreg, fun m s' hm' => ?_⟩ ?_ fun ρ hρ => ?_, hconst⟩
  · have hocc := hr.occs (m, s') hm'
    simp only [List.not_mem_nil, false_and, exists_false, or_false, freeOccs_app,
      List.flatMap_cons, List.flatMap_nil, List.append_nil, List.mem_append] at hocc
    exact hocc.elim (hs₂.typed m s') (hindex.typed m s')
  · rw [hr.sort]
    have hss : (Expr.var name s).sort = s := rfl
    rw [hss] at hs
    rw [hs, ← hsort]
    simp [Op.resultSort, hes]
  · rw [heval ρ hρ, ← hsubeval ρ hρ, hr.eval ρ hρ, eval_select, eval_select, heval₂ ρ hρ,
      heval₁ ρ hρ, hm.eval ρ hρ]

theorem Learned.resolveStep {known stores : Known} (hk : Learned Γ H known)
    (h : Tracked Γ H stores) {e : Expr} (he : Constrained Γ H e) :
    Learned Γ H (resolveStep stores known e) := by
  unfold ConstProp.resolveStep
  split
  case h_2 => exact hk
  rename_i lhs rhs
  obtain ⟨hl, hr, hs, heval⟩ := he.eq
  split
  · rename_i n c hn
    rcases Option.or_eq_some_iff.1 hn with hn | ⟨-, hn⟩
    · obtain ⟨hm, hc⟩ := resolveSelectFromStore_sound hk h hl hr hs heval hn
      exact hk.insert hm hc
    · obtain ⟨hm, hc⟩ := resolveSelectFromStore_sound hk h hr hl hs.symm
        (fun ρ hρ => (heval ρ hρ).symm) hn
      exact hk.insert hm hc
  · exact hk

/-- A fold over the constraints preserves what each of them preserves. -/
theorem foldl_preserves {α β : Type} {P : β → Prop} {f : β → α → β} {l : List α}
    (hstep : ∀ b, ∀ a ∈ l, P b → P (f b a)) {b : β} (hb : P b) : P (l.foldl f b) := by
  induction l generalizing b with
  | nil => exact hb
  | cons a l ih =>
    exact ih (fun b a ha => hstep b a (List.mem_cons_of_mem _ ha)) (hstep b a List.mem_cons_self hb)

theorem Learned.resolveArrayStoreSelects {known : Known} (hk : Learned Γ H known)
    {flat : List Expr} (hflat : ∀ e ∈ flat, Constrained Γ H e) :
    Learned Γ H (resolveArrayStoreSelects flat known) := by
  unfold ConstProp.resolveArrayStoreSelects
  dsimp only
  split_ifs
  · exact hk
  · have hstores : Tracked Γ H (flat.foldl (ConstProp.collectStore known) []) :=
      foldl_preserves (fun stores e he h => h.collectStore hk (hflat e he)) .nil
    have haliases : Tracked Γ H (propagateStoreAliases
        (flat.foldl (ConstProp.collectStore known) []) (flat.filterMap arrayAlias)) := by
      refine untilStable_induction (fun stores h => ?_) hstores
      refine foldl_preserves (fun stores p hp h => ?_) h
      obtain ⟨e, he, hp⟩ := List.mem_filterMap.1 hp
      obtain ⟨hs, heval⟩ := alias_of_constrained (hflat e he) hp
      exact h.propagateAlias hs heval
    refine untilStable_induction (fun known h => ?_) hk
    exact foldl_preserves (fun known e he h => h.resolveStep haliases (hflat e he)) h

/-! ### Flattening -/

@[simp]
theorem flattenAndList_eq (es : List Expr) : flattenAndList es = es.flatMap flattenAnd := by
  induction es with
  | nil => rfl
  | cons e es ih => simp [flattenAndList, ih]

/-- A property that passes from conjunctions to their children passes to the conjuncts. -/
theorem mem_flattenAnd {P : Expr → Prop} (hand : ∀ es, P (.and es) → ∀ e ∈ es, P e) {e : Expr}
    (he : P e) {x : Expr} (hx : x ∈ flattenAnd e) : P x := by
  induction e with
  | var n s => exact (List.mem_singleton.1 hx) ▸ he
  | quant q vs b => exact (List.mem_singleton.1 hx) ▸ he
  | app op args ih =>
    unfold flattenAnd at hx
    split at hx
    · rename_i children heq
      obtain ⟨rfl, rfl⟩ := Expr.app.inj heq
      rw [flattenAndList_eq, List.mem_flatMap] at hx
      obtain ⟨a, ha, hx⟩ := hx
      exact ih a ha (hand args he a ha) hx
    · exact (List.mem_singleton.1 hx) ▸ he

theorem Constrained.and {es : List Expr} (h : Constrained Γ H (.and es)) :
    ∀ e ∈ es, Constrained Γ H e := by
  intro e he
  have hacc : ∀ e ∈ es, e.sort = .bool := by
    simpa [Op.accepts] using (wellSorted_app.1 h.1.wellSorted).1
  exact ⟨h.1.arg he, hacc e he, fun ρ hρ => holds_and.1 (h.2.2 ρ hρ) e he⟩

/-- **Soundness of propagation.** Where the constraints hold, every recorded constant is the
value of its name. -/
theorem propagateThroughEqualities_sound {constraints : List Expr} {known : Known}
    (hc : ∀ e ∈ constraints, Constrained Γ H e) (hk : Learned Γ H known) :
    Learned Γ H (propagateThroughEqualities constraints known) := by
  have hflat : ∀ e ∈ flattenConjunctions constraints, Constrained Γ H e := by
    intro e he
    rw [flattenConjunctions, flattenAndList_eq, List.mem_flatMap] at he
    obtain ⟨c, hcm, he⟩ := he
    exact mem_flattenAnd (fun es h => h.and) (hc c hcm) he
  refine Learned.resolveArrayStoreSelects ?_ hflat
  refine untilStable_induction (fun known h => ?_) hk
  exact foldl_preserves (fun known e he h => h.propagateStep (hflat e he)) h

/-! ### Arguments -/

/-- A resolved argument has the value of the argument. -/
theorem Learned.resolveArg {known : Known} (h : Learned Γ H known) {arg : Expr} (ha : Sane Γ arg) :
    Sane Γ (resolveArg known arg) ∧ (resolveArg known arg).sort = arg.sort ∧
      ∀ ρ, H ρ → (resolveArg known arg).eval ρ = arg.eval ρ := by
  unfold ConstProp.resolveArg
  split
  · rename_i n s
    obtain rfl := ha.sort_var
    cases hc : known.lookup n with
    | none => exact ⟨ha, rfl, fun _ _ => rfl⟩
    | some c =>
      have hm := (h.lookup hc).1
      exact ⟨hm.sane, hm.sort, fun ρ hρ => (hm.eval ρ hρ).symm⟩
  · exact ⟨ha, rfl, fun _ _ => rfl⟩

/-- Names that the constraints equate have one value. -/
theorem varEquiv_sound {constraints : List Expr} (hc : ∀ e ∈ constraints, Constrained Γ H e) :
    ∀ p ∈ varEquiv constraints,
      ∀ ρ, H ρ → (Expr.var p.1 (Γ p.1)).eval ρ = (Expr.var p.2 (Γ p.2)).eval ρ := by
  refine foldl_preserves (P := fun equiv : List (String × String) => ∀ p ∈ equiv,
    ∀ ρ, H ρ → (Expr.var p.1 (Γ p.1)).eval ρ = (Expr.var p.2 (Γ p.2)).eval ρ)
    (fun equiv e he h => ?_) (by simp)
  split
  · rename_i a s b s'
    obtain ⟨hl, hr, -, heval⟩ := (hc _ he).eq
    obtain rfl := hl.sort_var
    obtain rfl := hr.sort_var
    refine List.forall_mem_cons.2 ⟨fun ρ hρ => (heval ρ hρ).symm, List.forall_mem_cons.2
      ⟨heval, h⟩⟩
  · exact h

/-- **Soundness of identity positions.** The head hands on the body's argument. -/
theorem detectIdentityPositions_sound {rule : Rule}
    (hc : ∀ e ∈ rule.body.constraints, Constrained Γ H e) (hs : ∀ e ∈ rule.terms, Sane Γ e) {i : ℕ}
    (hi : i ∈ detectIdentityPositions rule) :
    ∃ bodyRel h b, rule.body.relation = some bodyRel ∧ bodyRel.name = rule.head.name ∧
      rule.head.args[i]? = some h ∧ bodyRel.args[i]? = some b ∧
      ∀ ρ, H ρ → h.eval ρ = b.eval ρ := by
  unfold detectIdentityPositions at hi
  split at hi
  · simp at hi
  rename_i bodyRel hrel
  split_ifs at hi with hname
  · simp at hi
  obtain ⟨-, hi⟩ := List.mem_filter.1 hi
  split at hi
  case h_2 => cases hi
  rename_i headName s bodyName s' hh hb
  refine ⟨bodyRel, _, _, hrel, not_not.1 hname, hh, hb, fun ρ hρ => ?_⟩
  have hhs : Sane Γ (.var headName s) :=
    hs _ (Rule.mem_terms.2 (Or.inr (Or.inr (List.mem_of_getElem? hh))))
  have hbs : Sane Γ (.var bodyName s') :=
    hs _ (Rule.mem_terms.2 (Or.inl ⟨bodyRel, hrel, List.mem_of_getElem? hb⟩))
  obtain rfl := hhs.sort_var
  obtain rfl := hbs.sort_var
  rcases Bool.or_eq_true_iff.1 hi with heq | heq
  · rw [beq_iff_eq.1 heq]
  · obtain ⟨l₁, l₂, hequiv, -⟩ := List.lookup_eq_some_iff.1 (beq_iff_eq.1 heq)
    exact varEquiv_sound hc (headName, bodyName) (by simp [hequiv]) ρ hρ

end ConstProp

end TrustMc
