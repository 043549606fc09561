import TrustMc.ConstProp.ByName
import TrustMc.ConstProp.Rounds

/-!
# What equality chains record is entailed

`propagateThroughEqualities` records constants for names, round after round, and feeds every
round with what the rounds before recorded. A recorded constant follows from the constraints
and the initial map, as long as no step of the run misreads (`equality_chains_entailed`).

* A step misreads when its substitution does (`SubstReads`), when it evaluates a positional
  selector (`FoldsByName`), or when it reads past a store at the index that is read
  (`TellsApart`). `PropagateReads`, `CollectReads` and `ResolveReads` say of one step, in the
  state it is made in, that it does none of this.
* `Stands Γ H e e'`: where `H` holds, `e'` has the value of `e`. Every map of the loops keeps
  that its terms stand for its names.
-/

namespace TrustMc

namespace ConstProp

open Carriers Carriers.Val TrustMc.Expr Budget

variable {T : Theory} {H : T.Env → Prop} {Γ : String → SmtSort}

/-! ### Steps that read right -/

/-- `try_eval_to_const`, with the fields of selectors looked up by name. -/
def tryEvalToConstByName (e : Expr) : Option Expr := tryEvalToConstByNameAt e.depth e

/-- If `try_eval_to_const` folds the term, it folds it as by name. -/
def FoldsByName (e : Expr) : Prop :=
  ∀ c, tryEvalToConst e = some c → tryEvalToConstByName e = some c

instance (e : Expr) : Decidable (FoldsByName e) :=
  decidable_of_iff ((tryEvalToConst e).all fun c => tryEvalToConstByName e == some c) (by
    cases h : tryEvalToConst e <;> simp [FoldsByName, h])

variable (T) in
/-- Substituting into the term misreads nothing. -/
def SubstReads (known : Known) (e : Expr) : Prop :=
  known.isEmpty = false → ReadsRight DecidesByName (TellsApart T) known e

variable (T) in
/-- Evaluating the term misreads nothing. -/
def EvaluateReads (known : Known) (e : Expr) : Prop :=
  SubstReads T known e ∧
    (isConstant (substituteVars e known) = false → FoldsByName (substituteVars e known))

variable (T) in
/-- A step of `propagate_through_equalities` reads right: it evaluates the side that is no
variable, if that is no constant and the variable has none yet. -/
def PropagateReads (known : Known) : Expr → Prop
  | .app .eq [.var _ _, .var _ _] => True
  | .app .eq [.var name _, e] | .app .eq [e, .var name _] =>
    known.containsKey name = false → isConstant e = false → EvaluateReads T known e
  | _ => True

variable (T) in
/-- Recording a store reads right. -/
def RecordReads (known : Known) (varSide storeSide : Expr) : Prop :=
  match varSide with
  | .var _ _ => SubstReads T known storeSide
  | _ => True

variable (T) in
/-- A step of the store definitions reads right. -/
def CollectReads (known : Known) : Expr → Prop
  | .app .eq [lhs, rhs] => RecordReads T known lhs rhs ∧ RecordReads T known rhs lhs
  | _ => True

variable (T) in
/-- Expanding a store reads right. -/
def ExpandReads (stores known : Known) : ℕ → Expr → Prop
  | 0, _ => True
  | depth + 1, e =>
    match e with
    | .app .store [array, _, _] =>
      match array with
      | .var name s =>
        match stores.lookup name with
        | some tracked =>
          SubstReads T known tracked ∧
            ExpandReads stores known depth (substituteVars tracked known)
        | none => ExpandReads stores known depth (.var name s)
      | array => ExpandReads stores known depth array
    | _ => True

variable (T) in
/-- Reading an array that is stored to reads right. -/
def SelectReads (stores known : Known) (varSide selectSide : Expr) : Prop :=
  match varSide with
  | .var name _ =>
    known.containsKey name = false → SubstReads T known selectSide ∧
      ∀ arrName s index tracked,
        substituteVars selectSide known = (Expr.var arrName s).select index →
        stores.lookup arrName = some tracked →
        SubstReads T known tracked ∧
          ExpandReads T stores known 8 (substituteVars tracked known) ∧
          TellsApart T (expandArrayStoresBounded stores known 8 (substituteVars tracked known))
            index
  | _ => True

variable (T) in
/-- A step of `resolve_array_store_selects` reads right. -/
def ResolveReads (stores known : Known) : Expr → Prop
  | .app .eq [lhs, rhs] => SelectReads T stores known lhs rhs ∧ SelectReads T stores known rhs lhs
  | _ => True

/-! ### Terms that stand for others -/

/-- Operators take arguments of their sorts, and names occur at theirs. -/
structure Fit (Γ : String → SmtSort) (e : Expr) : Prop where
  wellSorted : e.WellSorted
  typed : Typed Γ e

namespace Fit

theorem arg {op : Op} {args : List Expr} (h : Fit Γ (.app op args)) {a : Expr} (ha : a ∈ args) :
    Fit Γ a := by
  refine ⟨(wellSorted_app.1 h.wellSorted).2 a ha, fun n s hs => h.typed n s ?_⟩
  rw [freeOccs_app]
  exact List.mem_flatMap.2 ⟨a, ha, hs⟩

theorem app {op : Op} {args : List Expr} (hacc : op.accepts (args.map Expr.sort) = true)
    (hargs : ∀ a ∈ args, Fit Γ a) : Fit Γ (.app op args) := by
  refine ⟨wellSorted_app.2 ⟨hacc, fun a ha => (hargs a ha).wellSorted⟩, fun n s hs => ?_⟩
  rw [freeOccs_app, List.mem_flatMap] at hs
  obtain ⟨a, ha, hs⟩ := hs
  exact (hargs a ha).typed n s hs

theorem sort_var {n : String} {s : SmtSort} (h : Fit Γ (.var n s)) : s = Γ n :=
  h.typed n s (by simp)

theorem of_rewrites {e e' : Expr} (h : Fit Γ e) (hr : Rewrites H [] e e') : Fit Γ e' :=
  ⟨hr.wellSorted, fun n s hs => h.typed n s (by simpa using hr.occs (n, s) hs)⟩

end Fit

/-- Under `H`, the second term has the value of the first. -/
structure Stands (Γ : String → SmtSort) (H : T.Env → Prop) (e e' : Expr) : Prop where
  fit : Fit Γ e'
  /-- The sort is kept. -/
  sort : e'.sort = e.sort
  /-- The value is kept. -/
  eval : ∀ ρ, H ρ → e'.eval ρ = e.eval ρ

namespace Stands

variable {e e' e'' : Expr}

theorem refl (h : Fit Γ e) : Stands Γ H e e := ⟨h, rfl, fun _ _ => rfl⟩

theorem trans (h : Stands Γ H e e') (h' : Stands Γ H e' e'') : Stands Γ H e e'' :=
  ⟨h'.fit, h'.sort.trans h.sort, fun ρ hρ => (h'.eval ρ hρ).trans (h.eval ρ hρ)⟩

theorem of_rewrites (h : Fit Γ e) (hr : Rewrites H [] e e') : Stands Γ H e e' :=
  ⟨h.of_rewrites hr, hr.sort, hr.eval⟩

/-- The array of a store may be replaced. -/
theorem store {array array' index value : Expr} (h : Fit Γ (array.store index value))
    (ha : Stands Γ H array array') :
    Stands Γ H (array.store index value) (array'.store index value) := by
  refine ⟨.app ?_ ?_, ?_, fun ρ hρ => ?_⟩
  · simpa [ha.sort] using (wellSorted_app.1 h.wellSorted).1
  · simpa using ⟨ha.fit, h.arg (by simp : index ∈ _), h.arg (by simp : value ∈ _)⟩
  · simp [Op.resultSort, ha.sort]
  · rw [eval_store, eval_store, ha.eval ρ hρ]

/-- The array that is read may be replaced. -/
theorem select {array array' index : Expr} (h : Fit Γ (array.select index))
    (ha : Stands Γ H array array') : Stands Γ H (array.select index) (array'.select index) := by
  refine ⟨.app ?_ ?_, ?_, fun ρ hρ => ?_⟩
  · simpa [ha.sort] using (wellSorted_app.1 h.wellSorted).1
  · simpa using ⟨ha.fit, h.arg (by simp : index ∈ _)⟩
  · simp [Op.resultSort, ha.sort]
  · rw [eval_select, eval_select, ha.eval ρ hρ]

end Stands

/-- Under `H`, every name in the map has the value of its term. -/
def Bound (Γ : String → SmtSort) (H : T.Env → Prop) (m : Known) : Prop :=
  ∀ n e, m.lookup n = some e → Stands Γ H (.var n (Γ n)) e

theorem Bound.nil : Bound Γ H [] := fun _ _ h => by cases h

theorem Bound.insert {m : Known} (h : Bound Γ H m) {n : String} {e : Expr}
    (he : Stands Γ H (.var n (Γ n)) e) : Bound Γ H (m.insert n e) := by
  intro k e' hk
  rw [lookup_insert] at hk
  split_ifs at hk with hkn
  · obtain rfl := Option.some.inj hk
    exact hkn ▸ he
  · exact h k e' hk

/-- Under `H`, every name in the map has the value of its term, which is a constant. -/
structure Valued (Γ : String → SmtSort) (H : T.Env → Prop) (known : Known) : Prop where
  bound : Bound Γ H known
  isConstant : ∀ n c, known.lookup n = some c → isConstant c = true

namespace Valued

variable {known : Known}

theorem insert (h : Valued Γ H known) {n : String} {c : Expr}
    (hc : Stands Γ H (.var n (Γ n)) c) (hconst : ConstProp.isConstant c = true) :
    Valued Γ H (known.insert n c) := by
  refine ⟨h.bound.insert hc, fun k c' hk => ?_⟩
  rw [lookup_insert] at hk
  split_ifs at hk
  · obtain rfl := Option.some.inj hk
    exact hconst
  · exact h.isConstant k c' hk

theorem learn (h : Valued Γ H known) {n : String} {o : Option Expr}
    (ho : known.containsKey n = false → ∀ c, o = some c →
      Stands Γ H (.var n (Γ n)) c ∧ ConstProp.isConstant c = true) :
    Valued Γ H (learn known n o) := by
  unfold ConstProp.learn
  split
  · rename_i c
    split_ifs with hn
    · exact h
    · obtain ⟨hc, hconst⟩ := ho (Bool.eq_false_iff.2 hn) c rfl
      exact h.insert hc hconst
  · exact h

/-- A substitution that reads right keeps the value. -/
theorem substitute (h : Valued Γ H known) {e : Expr} (he : Fit Γ e)
    (hr : SubstReads T known e) : Stands Γ H e (substituteVars e known) := by
  have hk : known.WellFormed :=
    ⟨h.isConstant, fun n c hc => (h.bound n c hc).fit.wellSorted⟩
  have hfit : known.Fits e := fun n s c ho hc => by
    rw [(h.bound n c hc).sort, sort_var, he.typed n s ho]
  rw [substituteVars]
  split_ifs with hempty
  · exact .refl he
  · have hrw := substituteVarsInner_rewrites hk he.wellSorted hfit
      ((hr (by simpa using hempty)).trusted hk he.wellSorted hfit)
    refine ⟨he.of_rewrites hrw, hrw.sort, fun ρ hρ => hrw.eval ρ fun n c hc => ?_⟩
    rw [(h.bound n c hc).sort, sort_var, (h.bound n c hc).eval ρ hρ]

/-- A term that evaluates to a constant has its value. -/
theorem evaluate (h : Valued Γ H known) {e c : Expr} (he : Fit Γ e)
    (hr : EvaluateReads T known e) (hc : evaluate known e = some c) :
    Stands Γ H e c ∧ ConstProp.isConstant c = true := by
  have hsub := h.substitute he hr.1
  unfold ConstProp.evaluate at hc
  dsimp only at hc
  split_ifs at hc with hconst
  · obtain rfl := Option.some.inj hc
    exact ⟨hsub, hconst⟩
  · have hname := hr.2 (Bool.eq_false_iff.2 hconst) c hc
    obtain ⟨hrw, hscalar⟩ := (tryEvalByNameAt_sound (H := H) _).2 _ c hsub.fit.wellSorted trivial
      hname
    exact ⟨hsub.trans (.of_rewrites hsub.fit hrw),
      isConstant_of_isScalarConstant hscalar hrw.wellSorted⟩

end Valued

/-! ### Equations -/

/-- A constraint: Boolean, and true under `H`. -/
structure Assumed (Γ : String → SmtSort) (H : T.Env → Prop) (e : Expr) : Prop where
  fit : Fit Γ e
  sort : e.sort = .bool
  holds : ∀ ρ, H ρ → Holds ρ e

/-- Either side of an equation stands for the other. -/
theorem Assumed.eq {a b : Expr} (h : Assumed Γ H (a.eq b)) :
    Stands Γ H a b ∧ Stands Γ H b a := by
  have hs := sort_eq_of_wellSorted_eq h.fit.wellSorted
  have heval : ∀ ρ, H ρ → a.eval ρ = b.eval ρ := fun ρ hρ => holds_eq.1 (h.holds ρ hρ)
  exact ⟨⟨h.fit.arg (by simp), hs.symm, fun ρ hρ => (heval ρ hρ).symm⟩,
    ⟨h.fit.arg (by simp), hs, heval⟩⟩

theorem Assumed.and {es : List Expr} (h : Assumed Γ H (.and es)) : ∀ e ∈ es, Assumed Γ H e := by
  intro e he
  have hacc : ∀ e ∈ es, e.sort = .bool := by
    simpa [Op.accepts] using (wellSorted_app.1 h.fit.wellSorted).1
  exact ⟨h.fit.arg he, hacc e he, fun ρ hρ => holds_and.1 (h.holds ρ hρ) e he⟩

theorem Assumed.flatten {constraints : List Expr} (h : ∀ e ∈ constraints, Assumed Γ H e) :
    ∀ e ∈ flattenConjunctions constraints, Assumed Γ H e := by
  intro e he
  rw [flattenConjunctions, flattenAndList_eq, List.mem_flatMap] at he
  obtain ⟨c, hc, he⟩ := he
  exact mem_flattenAnd (fun es h => h.and) (h c hc) he

/-- One step of `propagate_through_equalities`. -/
theorem Valued.propagateStep {known : Known} (h : Valued Γ H known) {e : Expr}
    (he : Assumed Γ H e) (hr : PropagateReads T known e) :
    Valued Γ H (propagateStep known e) := by
  -- a side that is a variable gets the constant of the other side
  have hside : ∀ {n : String} {s : SmtSort} {t : Expr}, Fit Γ (.var n s) → Fit Γ t →
      Stands Γ H (.var n s) t →
      (known.containsKey n = false → ConstProp.isConstant t = false → EvaluateReads T known t) →
      Valued Γ H (ConstProp.learn known n
        (if ConstProp.isConstant t then some t else ConstProp.evaluate known t)) := by
    intro n s t hn ht hst hreads
    obtain rfl := hn.sort_var
    refine h.learn fun hnew c hc => ?_
    split_ifs at hc with hconst
    · obtain rfl := Option.some.inj hc
      exact ⟨hst, hconst⟩
    · obtain ⟨hstands, hcc⟩ := h.evaluate ht (hreads hnew (Bool.eq_false_iff.2 hconst)) hc
      exact ⟨hst.trans hstands, hcc⟩
  unfold ConstProp.propagateStep
  split
  case h_2 => exact h
  rename_i lhs rhs
  obtain ⟨hlr, hrl⟩ := he.eq
  have hl := hrl.fit
  have hrt := hlr.fit
  unfold propagateEq
  split
  · rename_i a s b s'
    obtain rfl := hl.sort_var
    obtain rfl := hrt.sort_var
    split
    · rename_i c hb
      refine h.learn fun _ c' hc' => ?_
      obtain rfl := Option.some.inj hc'
      exact ⟨hlr.trans (h.bound b c hb), h.isConstant b c hb⟩
    · exact h.learn fun _ c ha => ⟨hrl.trans (h.bound a c ha), h.isConstant a c ha⟩
  · rename_i name s hne
    refine hside hl hrt hlr ?_
    rw [PropagateReads.eq_def] at hr
    split at hr <;> simp_all
  · rename_i name s hne
    refine hside hrt hl hrl ?_
    rw [PropagateReads.eq_def] at hr
    split at hr <;> simp_all
  · exact h

/-! ### Arrays -/

theorem Bound.recordStore {known stores : Known} (hk : Valued Γ H known) (h : Bound Γ H stores)
    {a b : Expr} (ha : Fit Γ a) (hab : Stands Γ H a b) (hr : RecordReads T known a b) :
    Bound Γ H (recordStore known stores a b) := by
  unfold ConstProp.recordStore
  split
  · rename_i n s
    obtain rfl := ha.sort_var
    dsimp only
    split_ifs
    · exact h.insert (hab.trans (hk.substitute hab.fit hr))
    · exact h
  · exact h

theorem Bound.collectStore {known stores : Known} (hk : Valued Γ H known) (h : Bound Γ H stores)
    {e : Expr} (he : Assumed Γ H e) (hr : CollectReads T known e) :
    Bound Γ H (collectStore known stores e) := by
  unfold ConstProp.collectStore
  split
  · obtain ⟨hlr, hrl⟩ := he.eq
    exact (h.recordStore hk hrl.fit hlr hr.1).recordStore hk hlr.fit hrl hr.2
  · exact h

theorem Bound.propagateAlias {stores : Known} (h : Bound Γ H stores) {e : Expr}
    (he : Assumed Γ H e) {p : String × String} (hp : arrayAlias e = some p) :
    Bound Γ H (propagateAlias stores p) := by
  unfold arrayAlias at hp
  split at hp
  case h_2 => cases hp
  obtain ⟨-, hp⟩ := Option.ite_none_right_eq_some.1 hp
  obtain rfl := Option.some.inj hp
  obtain ⟨hlr, hrl⟩ := he.eq
  obtain rfl := hrl.fit.sort_var
  obtain rfl := hlr.fit.sort_var
  unfold ConstProp.propagateAlias
  split
  · rename_i ha _
    exact h.insert (hrl.trans (h _ _ ha))
  · rename_i hb
    exact h.insert (hlr.trans (h _ _ hb))
  · exact h

/-- A store in which known arrays are expanded. -/
theorem Bound.expand {known stores : Known} (hk : Valued Γ H known) (h : Bound Γ H stores)
    (depth : ℕ) {e : Expr} (he : Fit Γ e) (hr : ExpandReads T stores known depth e) :
    Stands Γ H e (expandArrayStoresBounded stores known depth e) := by
  induction depth generalizing e with
  | zero => exact .refl he
  | succ depth ih =>
    unfold expandArrayStoresBounded
    split
    case h_2 => exact .refl he
    rename_i array index value
    have harray : Fit Γ array := he.arg (by simp)
    refine .store he ?_
    -- the array is expanded itself, or the store that its name is known to be
    cases array with
    | var name s =>
      rw [ExpandReads] at hr
      cases hst : stores.lookup name with
      | none =>
        rw [hst] at hr
        simpa [hst] using ih harray hr
      | some tracked =>
        rw [hst] at hr
        obtain rfl := harray.sort_var
        have hstands := h name tracked hst
        have hsub := hk.substitute hstands.fit hr.1
        simpa [hst] using hstands.trans (hsub.trans (ih hsub.fit hr.2))
    | app op args => exact ih harray hr
    | quant q vars body => exact ih harray hr

theorem Valued.resolveSelectFromStore {known stores : Known} (hk : Valued Γ H known)
    (h : Bound Γ H stores) {a b : Expr} (ha : Fit Γ a) (hab : Stands Γ H a b)
    (hr : SelectReads T stores known a b) {n : String} {c : Expr}
    (hn : resolveSelectFromStore a b known stores = some (n, c)) :
    Valued Γ H (known.insert n c) := by
  unfold ConstProp.resolveSelectFromStore at hn
  split at hn
  case h_2 => cases hn
  rename_i name s
  obtain rfl := ha.sort_var
  split_ifs at hn with hnew
  obtain ⟨hsubst, hread⟩ := hr (Bool.eq_false_iff.2 hnew)
  have hsub := hk.substitute hab.fit hsubst
  split at hn
  case h_2 => cases hn
  rename_i arrName arrSort index heq
  simp only [Option.bind_eq_bind, Option.bind_eq_some_iff] at hn
  obtain ⟨tracked, htracked, val, hval, hn⟩ := hn
  obtain ⟨hconst, hn⟩ := Option.ite_none_right_eq_some.1 hn
  obtain ⟨rfl, rfl⟩ := Prod.mk.inj (Option.some.inj hn)
  obtain ⟨hstore, hexpand, hapart⟩ := hread arrName arrSort index tracked heq htracked
  rw [heq] at hsub
  obtain rfl := (hsub.fit.arg (by simp : Expr.var arrName arrSort ∈ _)).sort_var
  -- the array that is read is the expanded store
  have harr := h arrName tracked htracked
  have hstored := hk.substitute harr.fit hstore
  have hexp := hstored.trans (h.expand hk 8 hstored.fit hexpand)
  have hsel := Stands.select hsub.fit (harr.trans hexp)
  have hrw := evalSelectStoreConst_rewrites (H := H) hsel.fit.wellSorted hapart hval
  exact hk.insert (hab.trans (hsub.trans (hsel.trans (.of_rewrites hsel.fit hrw)))) hconst

/-- One step of `resolve_array_store_selects`. -/
theorem Valued.resolveStep {known stores : Known} (hk : Valued Γ H known) (h : Bound Γ H stores)
    {e : Expr} (he : Assumed Γ H e) (hr : ResolveReads T stores known e) :
    Valued Γ H (resolveStep stores known e) := by
  unfold ConstProp.resolveStep
  split
  case h_2 => exact hk
  obtain ⟨hlr, hrl⟩ := he.eq
  split
  · rename_i n c hn
    rcases Option.or_eq_some_iff.1 hn with hn | ⟨-, hn⟩
    · exact hk.resolveSelectFromStore h hrl.fit hlr hr.1 hn
    · exact hk.resolveSelectFromStore h hlr.fit hrl hr.2 hn
  · exact hk

/-! ### Runs -/

/-- The stores that `resolve_array_store_selects` tracks. -/
def trackedStores (flat : List Expr) (known : Known) : Known :=
  propagateStoreAliases (flat.foldl (collectStore known) []) (flat.filterMap arrayAlias)

variable (T) in
/-- Every step of a run of `resolve_array_store_selects` reads right. -/
structure ResolvesRight (flat : List Expr) (known : Known) : Prop where
  collect : ∀ e ∈ flat, CollectReads T known e
  /-- The loop is reached when a store was recorded. -/
  resolve : (flat.foldl (collectStore known) []).isEmpty = false →
    ∀ p ∈ roundSteps (resolveStep (trackedStores flat known)) flat (flat.length + 1) known,
      ResolveReads T (trackedStores flat known) p.1 p.2

variable (T) in
/-- Every step of a run of `propagate_through_equalities` reads right. -/
structure PropagatesRight (constraints : List Expr) (known : Known) : Prop where
  propagate : ∀ p ∈ roundSteps propagateStep (flattenConjunctions constraints)
    ((flattenConjunctions constraints).length + 1) known, PropagateReads T p.1 p.2
  resolve : ResolvesRight T (flattenConjunctions constraints)
    (equalityRounds (flattenConjunctions constraints) known)

theorem Valued.equalityRounds {flat : List Expr} {known : Known} (h : Valued Γ H known)
    (hflat : ∀ e ∈ flat, Assumed Γ H e)
    (hr : ∀ p ∈ roundSteps ConstProp.propagateStep flat (flat.length + 1) known,
      PropagateReads T p.1 p.2) : Valued Γ H (equalityRounds flat known) :=
  untilStable_of_roundSteps (fun p hp hv =>
    hv.propagateStep (hflat p.2 (mem_of_mem_roundSteps hp)) (hr p hp)) h

theorem Bound.trackedStores {flat : List Expr} {known : Known} (h : Valued Γ H known)
    (hflat : ∀ e ∈ flat, Assumed Γ H e) (hr : ∀ e ∈ flat, CollectReads T known e) :
    Bound Γ H (trackedStores flat known) := by
  have hcollect : Bound Γ H (flat.foldl (ConstProp.collectStore known) []) :=
    foldl_preserves (fun stores e he hb => hb.collectStore h (hflat e he) (hr e he)) .nil
  refine untilStable_induction (fun stores hb => ?_) hcollect
  refine foldl_preserves (fun stores p hp hb => ?_) hb
  obtain ⟨e, he, hp⟩ := List.mem_filterMap.1 hp
  exact hb.propagateAlias (hflat e he) hp

/-- A run of `resolve_array_store_selects` whose steps read right. -/
theorem Valued.resolveArrayStoreSelects {flat : List Expr} {known : Known}
    (h : Valued Γ H known) (hflat : ∀ e ∈ flat, Assumed Γ H e)
    (hr : ResolvesRight T flat known) : Valued Γ H (resolveArrayStoreSelects flat known) := by
  unfold ConstProp.resolveArrayStoreSelects
  dsimp only
  split_ifs with hempty
  · exact h
  · have hstores := Bound.trackedStores h hflat hr.collect
    exact untilStable_of_roundSteps (fun p hp hv => hv.resolveStep hstores
      (hflat p.2 (mem_of_mem_roundSteps hp)) (hr.resolve (by simpa using hempty) p hp)) h

/-! ### Entailment -/

variable (T) in
/-- Where the constraints hold and the names of `known` have their constants, the names of
`known'` have theirs. -/
def Entails (Γ : String → SmtSort) (constraints : List Expr) (known known' : Known) : Prop :=
  ∀ ρ : T.Env, (∀ e ∈ constraints, Holds ρ e) →
    (∀ n c, known.lookup n = some c → (Expr.var n (Γ n)).eval ρ = c.eval ρ) →
    ∀ n c, known'.lookup n = some c → (Expr.var n (Γ n)).eval ρ = c.eval ρ

/-- A map of known variables: each has a constant of its sort. -/
structure Initial (Γ : String → SmtSort) (known : Known) : Prop where
  isConstant : ∀ n c, known.lookup n = some c → isConstant c = true
  wellSorted : ∀ n c, known.lookup n = some c → c.WellSorted
  sort : ∀ n c, known.lookup n = some c → c.sort = Γ n

theorem Initial.nil : Initial Γ [] :=
  ⟨fun _ _ h => (by cases h), fun _ _ h => (by cases h), fun _ _ h => (by cases h)⟩

theorem Initial.valued {known : Known} (h : Initial Γ known)
    (hH : ∀ ρ, H ρ → ∀ n c, known.lookup n = some c → (Expr.var n (Γ n)).eval ρ = c.eval ρ) :
    Valued Γ H known := by
  refine ⟨fun n c hc => ⟨⟨h.wellSorted n c hc, fun m s ho => ?_⟩, h.sort n c hc,
    fun ρ hρ => (hH ρ hρ n c hc).symm⟩, h.isConstant⟩
  rw [(closed_of_isConstant (h.isConstant n c hc) (h.wellSorted n c hc)).1] at ho
  cases ho

theorem Valued.entails {constraints : List Expr} {known known' : Known}
    (h : Valued Γ (fun ρ : T.Env => (∀ e ∈ constraints, Holds ρ e) ∧
      ∀ n c, known.lookup n = some c → (Expr.var n (Γ n)).eval ρ = c.eval ρ) known') :
    Entails T Γ constraints known known' :=
  fun ρ hc hk n c hn => ((h.bound n c hn).eval ρ ⟨hc, hk⟩).symm

/-- **Equality chains are entailed.** The loops end, for all constraints and every map. In a
run whose steps read right, every constant that is recorded follows from the constraints and
the initial map. -/
theorem equality_chains_entailed (constraints : List Expr) (known : Known) :
    (∀ flat : List Expr,
      flat.foldl propagateStep (equalityRounds flat known) = equalityRounds flat known) ∧
    (∀ (stores : Known) (aliases : List (String × String)),
      aliases.foldl propagateAlias (propagateStoreAliases stores aliases) =
        propagateStoreAliases stores aliases) ∧
    (∀ (stores : Known) (flat : List Expr),
      flat.foldl (resolveStep stores) (resolveRounds stores flat known) =
        resolveRounds stores flat known) ∧
    ∀ (T : Theory) (Γ : String → SmtSort),
      (∀ e ∈ constraints, Fit Γ e ∧ e.sort = .bool) → Initial Γ known →
      (PropagatesRight T constraints known →
        Entails T Γ constraints known (propagateThroughEqualities constraints known)) ∧
      (ResolvesRight T constraints known →
        Entails T Γ constraints known (resolveArrayStoreSelects constraints known)) := by
  refine ⟨fun flat => equalityRounds_stable flat known, aliasRounds_stable,
    fun stores flat => resolveRounds_stable stores flat known, fun T Γ hc hk => ?_⟩
  have hassumed : ∀ e ∈ constraints, Assumed Γ (fun ρ : T.Env => (∀ e ∈ constraints, Holds ρ e) ∧
      ∀ n c, known.lookup n = some c → (Expr.var n (Γ n)).eval ρ = c.eval ρ) e :=
    fun e he => ⟨(hc e he).1, (hc e he).2, fun ρ hρ => hρ.1 e he⟩
  have hvalued := hk.valued (T := T) (H := fun ρ => (∀ e ∈ constraints, Holds ρ e) ∧
    ∀ n c, known.lookup n = some c → (Expr.var n (Γ n)).eval ρ = c.eval ρ) fun ρ hρ => hρ.2
  refine ⟨fun hr => Valued.entails ?_, fun hr => Valued.entails ?_⟩
  · have hflat := Assumed.flatten hassumed
    exact (hvalued.equalityRounds hflat hr.propagate).resolveArrayStoreSelects hflat hr.resolve
  · exact hvalued.resolveArrayStoreSelects hassumed hr

/-! ### A run that reads right -/

/-- A byte. -/
private abbrev byteConst (n : ℕ) : Expr := .bitVecConst (BitVec.ofNat 8 n)

/-- The memory that is stored to. -/
private abbrev byteMemory : SmtSort := .array (.bitvec 8) (.bitvec 8)

/-- `m = m0[4 := 7]` and `y = m[4]`. -/
def storedRead : List Expr :=
  [(Expr.var "m" byteMemory).eq ((Expr.var "m0" byteMemory).store (byteConst 4) (byteConst 7)),
    (Expr.var "y" (.bitvec 8)).eq ((Expr.var "m" byteMemory).select (byteConst 4))]

/-- The sorts of the names of `storedRead`. -/
private def storedSorts (n : String) : SmtSort := if n = "y" then .bitvec 8 else byteMemory

/-- The store that `storedRead` reads. -/
private abbrev storedMemory : Expr :=
  (Expr.var "m0" byteMemory).store (byteConst 4) (byteConst 7)

private theorem selectReads_storedRead :
    SelectReads T [("m", storedMemory)] [] (.var "y" (.bitvec 8))
      ((Expr.var "m" byteMemory).select (byteConst 4)) := by
  have hread : substituteVars ((Expr.var "m" byteMemory).select (byteConst 4)) [] =
      (Expr.var "m" byteMemory).select (byteConst 4) := by decide +kernel
  have hsame : substituteVars storedMemory [] = storedMemory := by decide +kernel
  have hexpanded : expandArrayStoresBounded [("m", storedMemory)] [] 8 storedMemory =
      storedMemory := by decide +kernel
  have hempty : ∀ e : Expr, SubstReads T [] e := fun _ h => by cases h
  refine fun _ => ⟨hempty _, fun arrName s index tracked h htracked => ?_⟩
  rw [hread] at h
  simp only [Expr.app.injEq, List.cons.injEq, Expr.var.injEq, true_and, and_true] at h
  obtain ⟨⟨rfl, rfl⟩, rfl⟩ := h
  obtain rfl : storedMemory = tracked := by simpa using htracked
  rw [hsame, hexpanded]
  have hbase : ([("m", storedMemory)] : Known).lookup "m0" = none := by decide +kernel
  refine ⟨hempty _, ?_, fun hne => absurd rfl hne⟩
  rw [ExpandReads, hbase]
  trivial

private theorem propagatesRight_storedRead : PropagatesRight T storedRead [] := by
  have hflat : flattenConjunctions storedRead = storedRead := by decide +kernel
  have hrounds : roundSteps propagateStep storedRead (storedRead.length + 1) [] =
      storedRead.map ([], ·) := by decide +kernel
  have hknown : equalityRounds storedRead [] = [] := by decide +kernel
  have hstores : trackedStores storedRead [] = [("m", storedMemory)] := by decide +kernel
  have hresolve : roundSteps (resolveStep [("m", storedMemory)]) storedRead
      (storedRead.length + 1) [] =
      storedRead.map ([], ·) ++ storedRead.map ([("y", byteConst 7)], ·) := by decide +kernel
  have hempty : ∀ e : Expr, SubstReads T [] e := fun _ h => by cases h
  -- the first equation reads no array
  have hstored : ∀ known, substituteVars storedMemory known = storedMemory →
      SubstReads T known storedMemory →
      ResolveReads T [("m", storedMemory)] known ((Expr.var "m" byteMemory).eq storedMemory) := by
    intro known hsame hsubst
    refine ⟨fun _ => ⟨hsubst, fun _ _ _ _ h => ?_⟩, trivial⟩
    rw [hsame] at h
    cases h
  constructor
  · rw [hflat, hrounds]
    refine List.forall_mem_map.2 (List.forall_mem_cons.2 ⟨?_, List.forall_mem_singleton.2 ?_⟩)
    · exact fun _ _ => ⟨hempty _, fun _ => by decide +kernel⟩
    · exact fun _ _ => ⟨hempty _, fun _ => by decide +kernel⟩
  · rw [hflat, hknown]
    constructor
    · refine List.forall_mem_cons.2 ⟨⟨hempty _, trivial⟩, List.forall_mem_singleton.2 ?_⟩
      exact ⟨hempty _, trivial⟩
    · rw [hstores, hresolve]
      refine fun _ => List.forall_mem_append.2 ⟨?_, ?_⟩
      · refine List.forall_mem_map.2 (List.forall_mem_cons.2 ⟨?_, List.forall_mem_singleton.2 ?_⟩)
        · exact hstored [] (by decide +kernel) (hempty _)
        · exact ⟨selectReads_storedRead, trivial⟩
      · refine List.forall_mem_map.2 (List.forall_mem_cons.2 ⟨?_, List.forall_mem_singleton.2 ?_⟩)
        · refine hstored _ (by decide +kernel) fun _ => ?_
          simp [readsRight_app, NodeReads]
        · exact ⟨fun h => absurd h (by decide), trivial⟩

/-- The read of the stored value is recorded, and entailed. -/
theorem equality_chains_entailed_storedRead :
    propagateThroughEqualities storedRead [] = [("y", byteConst 7)] ∧
      Entails default storedSorts storedRead [] [("y", byteConst 7)] := by
  have hresult : propagateThroughEqualities storedRead [] = [("y", byteConst 7)] := by
    decide +kernel
  refine ⟨hresult, ?_⟩
  rw [← hresult]
  have hfit : ∀ e ∈ storedRead, Fit storedSorts e ∧ e.sort = .bool := by
    refine List.forall_mem_cons.2 ⟨⟨⟨?_, ?_⟩, rfl⟩, List.forall_mem_singleton.2 ⟨⟨?_, ?_⟩, rfl⟩⟩
    · simp [Op.accepts, Op.resultSort]
    · simp only [Typed, storedSorts]
      rintro n s hn
      simp at hn
      rcases hn with ⟨rfl, rfl⟩ | ⟨rfl, rfl⟩ <;> rfl
    · simp [Op.accepts, Op.resultSort, SmtSort.arraySort]
    · simp only [Typed, storedSorts]
      rintro n s hn
      simp at hn
      rcases hn with ⟨rfl, rfl⟩ | ⟨rfl, rfl⟩ <;> rfl
  obtain ⟨-, -, -, hentails⟩ := equality_chains_entailed storedRead []
  exact (hentails default storedSorts hfit .nil).1 propagatesRight_storedRead

/-! ### A store that is passed at the index that is read -/

/-- The array of zeros. -/
private abbrev allZeros : Expr := .app (.constArray (.bitvec 8)) [byteConst 0]

/-- The array of zeros, with a zero stored in it. -/
private abbrev allZerosStored : Expr := allZeros.store (byteConst 0) (byteConst 0)

/-- A memory that arrays index: 7 and then 1 are stored at the array of zeros. -/
private abbrev overwritten : Expr :=
  ((Expr.var "a" (.array byteMemory (.bitvec 8))).store allZerosStored
    (byteConst 7)).store allZeros (byteConst 1)

/-- `m = a[zeros' := 7][zeros := 1]` and `y = m[zeros']`, with two terms for the array of
zeros. -/
def overwrittenRead : List Expr :=
  [(Expr.var "m" (.array byteMemory (.bitvec 8))).eq overwritten,
    (Expr.var "y" (.bitvec 8)).eq
      ((Expr.var "m" (.array byteMemory (.bitvec 8))).select allZerosStored)]

/-- The sorts of the names of `overwrittenRead`. -/
def overwrittenSorts (n : String) : SmtSort :=
  if n = "y" then .bitvec 8 else .array byteMemory (.bitvec 8)

/-- **A binding that is not entailed**: what was overwritten is recorded for `y`. -/
theorem overwrittenRead_not_entailed :
    (∀ e ∈ overwrittenRead, Fit overwrittenSorts e ∧ e.sort = .bool) ∧
      Initial overwrittenSorts [] ∧
      (propagateThroughEqualities overwrittenRead []).lookup "y" = some (byteConst 7) ∧
      ¬Entails default overwrittenSorts overwrittenRead []
        (propagateThroughEqualities overwrittenRead []) := by
  have hresult : (propagateThroughEqualities overwrittenRead []).lookup "y" =
      some (byteConst 7) := by decide +kernel
  refine ⟨?_, .nil, hresult, fun h => ?_⟩
  · refine List.forall_mem_cons.2 ⟨⟨⟨?_, ?_⟩, rfl⟩, List.forall_mem_singleton.2 ⟨⟨?_, ?_⟩, rfl⟩⟩
    · simp [Op.accepts, Op.resultSort]
    · simp only [Typed, overwrittenSorts]
      rintro n s hn
      simp at hn
      rcases hn with ⟨rfl, rfl⟩ | ⟨rfl, rfl⟩ <;> rfl
    · simp [Op.accepts, Op.resultSort, SmtSort.arraySort]
    · simp only [Typed, overwrittenSorts]
      rintro n s hn
      simp at hn
      rcases hn with ⟨rfl, rfl⟩ | ⟨rfl, rfl⟩ <;> rfl
  · -- `m` is the stored memory, and `y` is what it holds
    let ρ₀ : (default : Theory).Env := fun _ _ => default
    let ρ : (default : Theory).Env := .ofVals fun n =>
      if n = "y" then ofBV 1#8 else if n = "m" then overwritten.eval ρ₀
      else (Expr.var n (.array byteMemory (.bitvec 8))).eval ρ₀
    have hy : (Expr.var "y" (.bitvec 8)).eval ρ = ofBV 1#8 := eval_var_ofVals rfl
    have hm : (Expr.var "m" (.array byteMemory (.bitvec 8))).eval ρ = overwritten.eval ρ := by
      have hmem : overwritten.eval ρ₀ = overwritten.eval ρ := by
        refine eval_congr_occs fun o ho => ?_
        obtain rfl : o = ("a", .array byteMemory (.bitvec 8)) := by simpa using ho
        exact (as_mk _ _).symm
      rw [← hmem]
      exact eval_var_ofVals (eval_sort overwritten ρ₀)
    have hzeros : allZeros.eval ρ = allZerosStored.eval ρ :=
      (eval_store_select rfl rfl rfl (eval_select_constArray _).symm).symm
    have hread : ((Expr.var "m" (.array byteMemory (.bitvec 8))).select allZerosStored).eval ρ =
        ofBV 1#8 := by
      rw [eval_select, hm, ← eval_select, eval_select_store_eq rfl rfl hzeros, eval_app,
        Op.interp]
    have hvalue := h ρ (List.forall_mem_cons.2 ⟨holds_eq.2 hm,
      List.forall_mem_singleton.2 (holds_eq.2 (hy.trans hread.symm))⟩) (fun _ _ h => by cases h)
      "y" (byteConst 7) hresult
    rw [show overwrittenSorts "y" = .bitvec 8 from rfl, hy, eval_app, Op.interp, ofBV_inj] at hvalue
    exact absurd hvalue (by decide)

end ConstProp

end TrustMc
