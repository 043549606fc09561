import TrustMc.DirectSmt.Crate
import TrustMc.Words.Separator

/-!
# The wide-nonlinear abstraction

When a query stays undecided, the direct solver asks it once more with its wide integer terms
replaced by new variables. A term is wide if it is certainly an integer and some part of it is a
nonlinear operation or a literal that does not fit in 64 bits. Of a replaced maximum or minimum
the new query keeps that it bounds its two parts; everything else is forgotten.

The new query is implied by the old one (`abstractWideNonlinear_sound`), which is why an
unsatisfiable answer to it, and only that, is taken as an answer to the old one. The proof
gives every new variable the value of the term it replaces; the names are new because there
are more candidates than names in the query.
-/

namespace TrustMc.DirectSmt

open Native Carriers Carriers.Val

/-! ### Wide integer terms -/

mutual

/-- `is_int_sorted`: the term is certainly an integer. -/
def isIntSorted : ChcExpr → Bool
  | .int _ => true
  | .var v => v.sort == .int
  | .funcApp _ sort _ => sort == .int
  | .op .add args | .op .sub args | .op .mul args | .op .div args | .op .mod args =>
    !args.isEmpty && allIntSorted args
  | .op .neg (a :: _) => isIntSorted a
  | .op .ite (_ :: a :: b :: _) => isIntSorted a && isIntSorted b
  | _ => false

/-- All the terms are certainly integers. -/
def allIntSorted : List ChcExpr → Bool
  | [] => true
  | e :: es => isIntSorted e && allIntSorted es

end

/-- An integer literal. -/
def isIntLiteral : ChcExpr → Bool
  | .int _ => true
  | _ => false

mutual

/-- `subtree_is_wide`: some part is a literal beyond 64 bits or a nonlinear operation. -/
def subtreeIsWide : ChcExpr → Bool
  | .int z => decide (2 ^ 63 - 1 < z.natAbs)
  | .op o args =>
    ((o == .mul || o == .div || o == .mod) && args.any (!isIntLiteral ·)) || anyWide args
  | .funcApp _ _ args | .predicateApp _ _ args => anyWide args
  | .constArray _ value => subtreeIsWide value
  | _ => false

/-- Some term has a wide part. -/
def anyWide : List ChcExpr → Bool
  | [] => false
  | e :: es => subtreeIsWide e || anyWide es

end

/-- `is_wide_int_term`. -/
def isWideIntTerm (e : ChcExpr) : Bool := isIntSorted e && subtreeIsWide e

/-! ### Abstraction -/

/-- The candidates for fresh names. -/
def absWideName (k : ℕ) : String := "__abs_wide_" ++ toString k

/-- The first candidate from `k` on that is no existing name, within the given tries. -/
def mintIndex (existing : List String) : ℕ → ℕ → ℕ
  | 0, k => k
  | fuel + 1, k => if absWideName k ∈ existing then mintIndex existing fuel (k + 1) else k

/-- What the abstraction keeps: the counter of the fresh names, the terms that were replaced,
and the lemmas about the replacements. -/
structure AbsState where
  counter : ℕ
  memo : List (ChcExpr × ChcExpr)
  lemmas : List ChcExpr

section Abstract

variable (crate : ExprCrate) (existing : List String)

/-- A new variable for a wide term; among one more candidates than names one is free. -/
def mint (e : ChcExpr) (st : AbsState) : ChcExpr × AbsState :=
  let k := mintIndex existing (existing.length + 1) st.counter
  let fresh := ChcExpr.var ⟨absWideName k, .int⟩
  (fresh, { st with counter := k + 1, memo := (e, fresh) :: st.memo })

mutual

/-- `abstract_expr`, with the lemmas of `emit_wide_replacement_lemmas` for a new variable. -/
def abstractExpr (e : ChcExpr) (st : AbsState) : ChcExpr × AbsState :=
  if isWideIntTerm e then
    match st.memo.lookup e with
    | some v => (v, st)
    | none =>
      let (fresh, st) := mint existing e st
      match e with
      | .op .ite [.op cmp [lhs, rhs], thenBranch, elseBranch] =>
        if lhs ≠ thenBranch ∨ rhs ≠ elseBranch then (fresh, st)
        else if cmp = .ge ∨ cmp = .le then
          let (a, st) := abstractExpr thenBranch st
          let (b, st) := abstractExpr elseBranch st
          let bound := if cmp = .ge then crate.ge else crate.le
          (fresh, { st with lemmas := st.lemmas ++ [bound fresh a, bound fresh b] })
        else (fresh, st)
      | _ => (fresh, st)
  else
    match e with
    | .op o args =>
      let (args, st) := abstractArgs args st
      (.op o args, st)
    | .funcApp name sort args =>
      let (args, st) := abstractArgs args st
      (.funcApp name sort args, st)
    | .predicateApp name id args =>
      let (args, st) := abstractArgs args st
      (.predicateApp name id args, st)
    | .constArray sort value =>
      let (value, st) := abstractExpr value st
      (.constArray sort value, st)
    | e => (e, st)

/-- The abstractions of a list of terms, one after the other. -/
def abstractArgs (es : List ChcExpr) (st : AbsState) : List ChcExpr × AbsState :=
  match es with
  | [] => ([], st)
  | e :: es =>
    let (e, st) := abstractExpr e st
    let (es, st) := abstractArgs es st
    (e :: es, st)

end

end Abstract

/-- `collect_var_names` on all constraints: whether every shape is known, and the names. -/
def collectVarNames (constraints : List ChcExpr) : Bool × List String :=
  (constraints.all ChcExpr.recognized, (ChcExpr.varsList constraints).map ChcVar.name)

/-- `abstract_wide_nonlinear`. -/
def abstractWideNonlinear (crate : ExprCrate) (constraints : List ChcExpr) : List ChcExpr :=
  let (censusComplete, existing) := collectVarNames constraints
  if !censusComplete then constraints
  else
    let (out, st) := abstractArgs crate existing constraints ⟨0, [], []⟩
    out ++ st.lemmas

/-! ### Integer values -/

/-- The operators of an integer term. -/
theorem isIntSorted_op {o : ChcOp} {args : List ChcExpr} (h : isIntSorted (.op o args) = true) :
    (o ∈ [.add, .sub, .mul, .div, .mod] ∧ args ≠ [] ∧ allIntSorted args = true) ∨
      (o = .neg ∧ ∃ a rest, args = a :: rest ∧ isIntSorted a = true) ∨
      o = .ite ∧ ∃ c a b rest, args = c :: a :: b :: rest ∧
        isIntSorted a = true ∧ isIntSorted b = true := by
  unfold isIntSorted at h
  split at h
  case h_4 | h_5 | h_6 | h_7 | h_8 =>
    rename_i heq
    obtain ⟨rfl, rfl⟩ := ChcExpr.op.inj heq
    rw [Bool.and_eq_true] at h
    exact .inl ⟨by decide, by simpa using h.1, h.2⟩
  case h_9 a rest heq =>
    obtain ⟨rfl, rfl⟩ := ChcExpr.op.inj heq
    exact .inr (.inl ⟨rfl, a, rest, rfl, h⟩)
  case h_10 c a b rest heq =>
    obtain ⟨rfl, rfl⟩ := ChcExpr.op.inj heq
    rw [Bool.and_eq_true] at h
    exact .inr (.inr ⟨rfl, c, a, b, rest, rfl, h⟩)
  all_goals simp_all

section Values

variable {T : Theory}

mutual

/-- What is certainly an integer denotes one. -/
theorem fst_eval_of_isIntSorted (ρ : ChcEnv T) :
    ∀ e : ChcExpr, isIntSorted e = true → (e.eval ρ).1 = .int
  | .int _, _ => rfl
  | .var v, h => by
    have hv : v.sort = .int := by simpa [isIntSorted] using h
    simp [hv, ChcSort.toSmt]
  | .funcApp _ sort _, h => by
    have hs : sort = .int := by simpa [isIntSorted] using h
    simp [ChcExpr.eval, hs, ChcSort.toSmt]
  | .op o args, h => by
    rw [ChcExpr.eval]
    rcases isIntSorted_op h with ⟨ho, hne, hargs⟩ | ⟨rfl, a, rest, rfl, ha⟩ |
      ⟨rfl, c, a, b, rest, rfl, ha, hb⟩
    · refine fst_interp_arith ho fun v hv => ?_
      rw [ChcExpr.evalList_eq] at hv
      obtain ⟨e, he, rfl⟩ := List.mem_map.1 hv
      exact fst_eval_of_allIntSorted ρ args hargs e he
    · have hv := fst_eval_of_isIntSorted ρ a ha
      rw [ChcExpr.evalList, ChcOp.interp]
      dsimp only
      rw [if_neg (by simp [hv]), Op.fst_interp]
      rfl
    · rw [ChcOp.interp, Op.fst_interp]
      exact fst_eval_of_isIntSorted ρ a ha
  | .bool _, h | .real _ _, h | .bitVec _ _, h | .predicateApp _ _ _, h
  | .constArrayMarker _, h | .isTesterMarker _, h | .constArray _ _, h | .unrecognized, h => by
    simp [isIntSorted] at h

theorem fst_eval_of_allIntSorted (ρ : ChcEnv T) :
    ∀ es : List ChcExpr, allIntSorted es = true → ∀ e ∈ es, (e.eval ρ).1 = .int
  | [], _ => by simp
  | e :: es, h => by
    rw [allIntSorted, Bool.and_eq_true] at h
    exact List.forall_mem_cons.2 ⟨fst_eval_of_isIntSorted ρ e h.1,
      fst_eval_of_allIntSorted ρ es h.2⟩

end

/-- The maximum and the minimum of two integers, written with a comparison. -/
theorem eval_bound {a b : ChcExpr} {ρ : ChcEnv T} {x y : ℤ} (ha : a.eval ρ = ofInt x)
    (hb : b.eval ρ = ofInt y) :
    (ChcExpr.op .ite [.op .ge [a, b], a, b]).eval ρ = ofInt (max x y) ∧
      (ChcExpr.op .ite [.op .le [a, b], a, b]).eval ρ = ofInt (min x y) := by
  have hite : ∀ c : Bool, Op.ite.interp [(ofBool c : T.Val), ofInt x, ofInt y] =
      ofInt (if c then x else y) := fun c => by
    rw [Op.interp, toBool_ofBool]
    cases c
    · exact mk_as rfl
    · rfl
  simp only [ChcExpr.eval_op, List.map_cons, List.map_nil, ChcOp.interp, ha, hb, compare_int,
    ArithCmp.denote, hite, ofInt_inj, decide_eq_true_eq]
  exact ⟨(max_def' x y).symm, (min_def x y).symm⟩

end Values

/-! ### Fresh names -/

theorem absWideName_inj {k k' : ℕ} (h : absWideName k = absWideName k') : k = k' := by
  have hlist := congrArg String.toList h
  simp only [absWideName, String.toList_append, List.append_cancel_left_eq] at hlist
  refine Words.toDigits_inj ?_
  rw [← Nat.toList_repr, ← Nat.toList_repr]
  exact hlist

theorem le_mintIndex (existing : List String) (fuel k : ℕ) : k ≤ mintIndex existing fuel k := by
  induction fuel generalizing k with
  | zero => exact le_rfl
  | succ fuel ih =>
    rw [mintIndex]
    split_ifs
    · exact (Nat.le_succ k).trans (ih (k + 1))
    · exact le_rfl

/-- **A minted name is fresh**: there are more candidates than names. -/
theorem mintIndex_notMem (existing : List String) (k : ℕ) :
    absWideName (mintIndex existing (existing.length + 1) k) ∉ existing := by
  have htries : ∀ fuel k, absWideName (mintIndex existing fuel k) ∈ existing →
      ∀ j ≤ fuel, absWideName (k + j) ∈ existing := by
    intro fuel
    induction fuel with
    | zero =>
      rintro k h j hj
      obtain rfl : j = 0 := by omega
      exact h
    | succ fuel ih =>
      intro k h j hj
      rw [mintIndex] at h
      split_ifs at h with hk
      · cases j with
        | zero => exact hk
        | succ j =>
          have hnext := ih (k + 1) h j (by omega)
          rwa [show k + (j + 1) = k + 1 + j by omega]
      · exact absurd h hk
  intro h
  have hsub : (List.range (existing.length + 2)).map (fun j => absWideName (k + j)) ⊆
      existing := by
    intro name hname
    obtain ⟨j, hj, rfl⟩ := List.mem_map.1 hname
    exact htries _ k h j (by have := List.mem_range.1 hj; omega)
  have hnodup : ((List.range (existing.length + 2)).map fun j => absWideName (k + j)).Nodup :=
    List.nodup_range.map fun j j' h => by have := absWideName_inj h; omega
  have hlen := (List.subperm_of_subset hnodup hsub).length_le
  rw [List.length_map, List.length_range] at hlen
  omega

/-! ### The abstraction is an over-approximation -/

/-- The replacements stand for wide integers and are different new variables. -/
structure AbsInv (existing : List String) (st : AbsState) : Prop where
  fresh : ∀ p ∈ st.memo, isIntSorted p.1 = true ∧
    ∃ k < st.counter, absWideName k ∉ existing ∧ p.2 = .var ⟨absWideName k, .int⟩
  nodup : (st.memo.map Prod.snd).Nodup

theorem AbsInv.mint {existing : List String} {st : AbsState} (h : AbsInv existing st)
    {e : ChcExpr} (he : isIntSorted e = true) :
    AbsInv existing (DirectSmt.mint existing e st).2 := by
  have hk := le_mintIndex existing (existing.length + 1) st.counter
  constructor
  · refine List.forall_mem_cons.2 ⟨⟨he, _, Nat.lt_succ_self _, mintIndex_notMem _ _, rfl⟩, ?_⟩
    intro p hp
    obtain ⟨hp, k, hlt, hnew, heq⟩ := h.fresh p hp
    exact ⟨hp, k, Nat.lt_succ_of_lt (Nat.lt_of_lt_of_le hlt hk), hnew, heq⟩
  · refine List.nodup_cons.2 ⟨fun hmem => ?_, h.nodup⟩
    -- earlier replacements have smaller indices
    obtain ⟨p, hp, heq⟩ := List.mem_map.1 hmem
    obtain ⟨-, k, hlt, -, hp⟩ := h.fresh p hp
    rw [hp] at heq
    have hname := absWideName_inj (congrArg ChcVar.name (ChcExpr.var.inj heq))
    omega

section Sound

variable {T : Theory} {existing : List String}

open Classical in
/-- The assignment that gives the new variables the values of what they replace. -/
noncomputable def absEnv (memo : List (ChcExpr × ChcExpr)) (ρ : ChcEnv T) : ChcEnv T := fun w =>
  if h : ∃ e, (e, .var w) ∈ memo then (h.choose.eval ρ).as w.sort.toSmt else ρ w

/-- A replacement has the value of what it replaces. -/
theorem eval_replacement {st : AbsState} (h : AbsInv existing st) (ρ : ChcEnv T) {e f : ChcExpr}
    (hmem : (e, f) ∈ st.memo) : f.eval (absEnv st.memo ρ) = e.eval ρ := by
  obtain ⟨he, k, -, -, heq⟩ := h.fresh _ hmem
  obtain rfl : f = .var ⟨absWideName k, .int⟩ := heq
  have hex : ∃ e, (e, ChcExpr.var ⟨absWideName k, .int⟩) ∈ st.memo := ⟨e, hmem⟩
  have huniq : hex.choose = e :=
    congrArg Prod.fst (List.inj_on_of_nodup_map h.nodup hex.choose_spec hmem rfl)
  rw [ChcExpr.eval_var, absEnv, dif_pos hex, huniq]
  exact mk_as (fst_eval_of_isIntSorted ρ e he)

/-- The existing variables keep their values. -/
theorem absEnv_of_mem {st : AbsState} (h : AbsInv existing st) (ρ : ChcEnv T) {w : ChcVar}
    (hw : w.name ∈ existing) : absEnv st.memo ρ w = ρ w := by
  refine dif_neg ?_
  rintro ⟨e, hmem⟩
  obtain ⟨-, k, -, hnew, heq⟩ := h.fresh _ hmem
  obtain rfl := ChcExpr.var.inj heq
  exact hnew hw

/-- What the abstraction of a list of terms has done: it has replaced more terms, and once all
replacements have been made, the results have the values of the terms and the lemmas hold. -/
structure Abstracts (existing : List String) (es : List ChcExpr) (st : AbsState)
    (es' : List ChcExpr) (st' : AbsState) : Prop where
  inv : AbsInv existing st'
  grows : ∀ p ∈ st.memo, p ∈ st'.memo
  sound : ∀ fin, AbsInv existing fin → (∀ p ∈ st'.memo, p ∈ fin.memo) →
    ∀ {T : Theory} (ρ : ChcEnv T), (∀ e ∈ es, ∀ v ∈ e.vars, v.name ∈ existing) →
      es'.map (·.eval (absEnv fin.memo ρ)) = es.map (·.eval ρ) ∧
        ((∀ l ∈ st.lemmas, l.Holds (absEnv fin.memo ρ)) →
          ∀ l ∈ st'.lemmas, l.Holds (absEnv fin.memo ρ))

/-- The abstractions of two lists of terms, one after the other. -/
theorem Abstracts.append {es fs es' fs' : List ChcExpr} {st st' st'' : AbsState}
    (h : Abstracts existing es st es' st') (h' : Abstracts existing fs st' fs' st'') :
    Abstracts existing (es ++ fs) st (es' ++ fs') st'' := by
  refine ⟨h'.inv, fun p hp => h'.grows p (h.grows p hp), fun fin hfin hsub T ρ hvars => ?_⟩
  obtain ⟨hes, hlemmas⟩ := h.sound fin hfin (fun p hp => hsub p (h'.grows p hp)) ρ
    fun e he => hvars e (List.mem_append_left _ he)
  obtain ⟨hfs, hlemmas'⟩ := h'.sound fin hfin hsub ρ
    fun e he => hvars e (List.mem_append_right _ he)
  rw [List.map_append, List.map_append, hes, hfs]
  exact ⟨rfl, fun hl => hlemmas' (hlemmas hl)⟩

/-- A new variable is minted for a wide term. -/
theorem abstracts_mint {e : ChcExpr} {st : AbsState} (h : AbsInv existing st)
    (he : isIntSorted e = true) :
    Abstracts existing [e] st [(mint existing e st).1] (mint existing e st).2 := by
  refine ⟨h.mint he, fun p hp => List.mem_cons_of_mem _ hp, fun fin hfin hsub T ρ _ => ?_⟩
  exact ⟨congrArg (fun v => [v]) (eval_replacement hfin ρ (hsub _ List.mem_cons_self)), id⟩

/-- A term is rebuilt from the abstractions of its parts. -/
theorem Abstracts.rebuild {args args' : List ChcExpr} {e e' : ChcExpr} {st st' : AbsState}
    (h : Abstracts existing args st args' st') (hvars : ∀ a ∈ args, ∀ v ∈ a.vars, v ∈ e.vars)
    (heval : ∀ {T : Theory} (ρ ρ' : ChcEnv T),
      args'.map (·.eval ρ') = args.map (·.eval ρ) → e'.eval ρ' = e.eval ρ) :
    Abstracts existing [e] st [e'] st' := by
  refine ⟨h.inv, h.grows, fun fin hfin hsub T ρ hnames => ?_⟩
  obtain ⟨hargs, hlemmas⟩ := h.sound fin hfin hsub ρ fun a ha v hv =>
    hnames e List.mem_cons_self v (hvars a ha v hv)
  exact ⟨by rw [List.map_singleton, List.map_singleton, heval ρ _ hargs], hlemmas⟩

/-- The bounds of a maximum or minimum hold of its replacement. -/
theorem Abstracts.bound {crate : ExprCrate} (hcrate : crate.Lawful) {a b a' b' fresh : ChcExpr}
    {cmp : ChcOp} {st st₁ st₂ st₃ : AbsState} (hcmp : cmp = .ge ∨ cmp = .le)
    (hsort : isIntSorted (.op .ite [.op cmp [a, b], a, b]) = true)
    (h₁ : Abstracts existing [.op .ite [.op cmp [a, b], a, b]] st [fresh] st₁)
    (h₂ : Abstracts existing [a] st₁ [a'] st₂) (h₃ : Abstracts existing [b] st₂ [b'] st₃) :
    Abstracts existing [.op .ite [.op cmp [a, b], a, b]] st [fresh]
      { st₃ with lemmas := st₃.lemmas ++
        [(if cmp = .ge then crate.ge else crate.le) fresh a',
          (if cmp = .ge then crate.ge else crate.le) fresh b'] } := by
  have hall := h₁.append (h₂.append h₃)
  refine ⟨⟨hall.inv.fresh, hall.inv.nodup⟩, hall.grows, fun fin hfin hsub T ρ hnames => ?_⟩
  have hparts : ∀ v, v ∈ a.vars ∨ v ∈ b.vars →
      v ∈ (ChcExpr.op .ite [.op cmp [a, b], a, b]).vars := fun v hv => by
    rw [ChcExpr.vars, ChcExpr.mem_varsList]
    rcases hv with hv | hv
    · exact ⟨a, by simp, hv⟩
    · exact ⟨b, by simp, hv⟩
  obtain ⟨hevals, hlemmas⟩ := hall.sound fin hfin hsub ρ fun e he v hv => by
    simp only [List.cons_append, List.nil_append, List.mem_cons, List.not_mem_nil,
      or_false] at he
    rcases he with rfl | rfl | rfl
    · exact hnames _ List.mem_cons_self v hv
    · exact hnames _ List.mem_cons_self v (hparts v (.inl hv))
    · exact hnames _ List.mem_cons_self v (hparts v (.inr hv))
  simp only [List.cons_append, List.nil_append, List.map_cons, List.map_nil, List.cons.injEq,
    and_true] at hevals
  obtain ⟨hfresh, ha', hb'⟩ := hevals
  refine ⟨by rw [List.map_singleton, List.map_singleton, hfresh], fun hl l hmem => ?_⟩
  rcases List.mem_append.1 hmem with hmem | hmem
  · exact hlemmas hl l hmem
  · -- the replacement has the value of the maximum or minimum
    obtain ⟨ha, hb⟩ : isIntSorted a = true ∧ isIntSorted b = true := by
      simpa [isIntSorted] using hsort
    have hx := (ofInt_toInt (fst_eval_of_isIntSorted ρ a ha)).symm
    have hy := (ofInt_toInt (fst_eval_of_isIntSorted ρ b hb)).symm
    have hvalue := eval_bound hx hy
    rw [hx] at ha'
    rw [hy] at hb'
    rcases hcmp with rfl | rfl
    · rw [hvalue.1] at hfresh
      simp only [if_true, List.mem_cons, List.not_mem_nil, or_false] at hmem
      rcases hmem with rfl | rfl
      · simp [ChcExpr.Holds, hcrate.eval_ge, ChcOp.interp, hfresh, ha', compare_int,
          ArithCmp.denote]
      · simp [ChcExpr.Holds, hcrate.eval_ge, ChcOp.interp, hfresh, hb', compare_int,
          ArithCmp.denote]
    · rw [hvalue.2] at hfresh
      simp only [reduceCtorEq, if_false, List.mem_cons, List.not_mem_nil, or_false] at hmem
      rcases hmem with rfl | rfl
      · simp [ChcExpr.Holds, hcrate.eval_le, ChcOp.interp, hfresh, ha', compare_int,
          ArithCmp.denote]
      · simp [ChcExpr.Holds, hcrate.eval_le, ChcOp.interp, hfresh, hb', compare_int,
          ArithCmp.denote]

/-- **The abstraction of a list of terms**: by induction along the rewriting. -/
theorem abstracts_abstractArgs {crate : ExprCrate} (hcrate : crate.Lawful)
    (es : List ChcExpr) (st : AbsState) (h : AbsInv existing st) :
    Abstracts existing es st (abstractArgs crate existing es st).1
      (abstractArgs crate existing es st).2 := by
  induction es, st using abstractArgs.induct crate existing
    (motive_1 := fun e st => AbsInv existing st →
      Abstracts existing [e] st [(abstractExpr crate existing e st).1]
        (abstractExpr crate existing e st).2) with
  | case1 e st hwide v hlookup h =>
    -- the term was replaced before
    rw [abstractExpr.eq_def, if_pos hwide, hlookup]
    obtain ⟨l₁, l₂, hmemo, -⟩ := List.lookup_eq_some_iff.1 hlookup
    refine ⟨h, fun p hp => hp, fun fin hfin hsub T ρ _ => ⟨?_, id⟩⟩
    exact congrArg (fun w => [w]) (eval_replacement hfin ρ (hsub _ (by simp [hmemo])))
  | case2 st fresh st₁ cmp lhs rhs a b hne hwide hlookup hmint h =>
    -- the branches of the conditional are not the terms it compares
    rw [abstractExpr, if_pos hwide, hlookup]
    simp only [hmint, if_pos hne]
    have hnew := abstracts_mint h (Bool.and_eq_true_iff.1 hwide).1
    rwa [hmint] at hnew
  | case3 st fresh st₁ cmp lhs rhs a b hne hcmp a' st₂ ha b' st₃ hb hwide hlookup hmint iha ihb h =>
    -- a maximum or a minimum: both branches are abstracted, and bound the new variable
    obtain ⟨rfl, rfl⟩ : lhs = a ∧ rhs = b := by simpa [not_or] using hne
    rw [abstractExpr, if_pos hwide, hlookup]
    simp only [hmint, if_neg hne, if_pos hcmp, ha, hb]
    have hsort := (Bool.and_eq_true_iff.1 hwide).1
    have hnew := abstracts_mint h hsort
    rw [hmint] at hnew
    have iha := iha hnew.inv
    rw [ha] at iha
    have ihb := ihb iha.inv
    rw [hb] at ihb
    exact hnew.bound hcrate hcmp hsort iha ihb
  | case4 st fresh st₁ cmp lhs rhs a b hne hcmp hwide hlookup hmint h =>
    -- another comparison bounds nothing
    rw [abstractExpr, if_pos hwide, hlookup]
    simp only [hmint, if_neg hne, if_neg hcmp]
    have hnew := abstracts_mint h (Bool.and_eq_true_iff.1 hwide).1
    rwa [hmint] at hnew
  | case5 e st hwide hlookup fresh st₁ hmint hshape h =>
    -- any other wide term gets a fresh variable
    have hnew := abstracts_mint h (Bool.and_eq_true_iff.1 hwide).1
    rw [hmint] at hnew
    rw [abstractExpr.eq_def, if_pos hwide, hlookup]
    simp only [hmint]
    exact hnew
  | case6 st o args args' st' hargs hwide ih h =>
    -- below a narrow term the arguments are abstracted
    rw [abstractExpr, if_neg hwide]
    have ih := ih h
    simp only [hargs] at ih ⊢
    refine ih.rebuild (fun a ha v hv => ?_) fun ρ ρ' heq => ?_
    · exact ChcExpr.mem_varsList.2 ⟨a, ha, hv⟩
    · rw [ChcExpr.eval_op, ChcExpr.eval_op, heq]
  | case7 st name sort args args' st' hargs hwide ih h =>
    rw [abstractExpr, if_neg hwide]
    have ih := ih h
    simp only [hargs] at ih ⊢
    refine ih.rebuild (fun a ha v hv => ?_) fun ρ ρ' heq => ?_
    · exact ChcExpr.mem_varsList.2 ⟨a, ha, hv⟩
    · rw [ChcExpr.eval, ChcExpr.eval, ChcExpr.evalList_eq, ChcExpr.evalList_eq, heq]
  | case8 st name id args args' st' hargs hwide ih h =>
    rw [abstractExpr, if_neg hwide]
    have ih := ih h
    simp only [hargs] at ih ⊢
    refine ih.rebuild (fun a ha v hv => ?_) fun ρ ρ' heq => ?_
    · exact ChcExpr.mem_varsList.2 ⟨a, ha, hv⟩
    · rw [ChcExpr.eval, ChcExpr.eval, ChcExpr.evalList_eq, ChcExpr.evalList_eq, heq]
  | case9 st sort value value' st' hvalue hwide ih h =>
    rw [abstractExpr, if_neg hwide]
    have ih := ih h
    simp only [hvalue] at ih ⊢
    refine ih.rebuild (by simp [ChcExpr.vars]) fun ρ ρ' heq => ?_
    have hvalue : value'.eval ρ' = value.eval ρ := List.singleton_inj.1 heq
    rw [ChcExpr.eval, ChcExpr.eval, hvalue]
  | case10 st e hop hfunc hpred harray hwide h =>
    -- a leaf stays
    have hleaf : (abstractExpr crate existing e st) = (e, st) := by
      rw [abstractExpr.eq_def, if_neg hwide]
      cases e with
      | op o args => exact absurd rfl (hop o args)
      | funcApp name sort args => exact absurd rfl (hfunc name sort args)
      | predicateApp name id args => exact absurd rfl (hpred name id args)
      | constArray sort value => exact absurd rfl (harray sort value)
      | _ => rfl
    rw [hleaf]
    refine ⟨h, fun p hp => hp, fun fin hfin hsub T ρ hnames => ⟨?_, fun hl => hl⟩⟩
    have hcongr : e.eval (absEnv fin.memo ρ) = e.eval ρ := ChcExpr.eval_congr fun v hv =>
      absEnv_of_mem hfin ρ (hnames e List.mem_cons_self v hv)
    exact congrArg (fun w => [w]) hcongr
  | case11 st =>
    rw [abstractArgs]
    exact ⟨h, fun p hp => hp, fun _ _ _ _ _ _ => ⟨rfl, id⟩⟩
  | case12 st e es e' st₁ he es' st₂ hes ihe ihes =>
    have ihe := ihe h
    rw [he] at ihe
    have ihes := ihes ihe.inv
    rw [hes] at ihes
    rw [abstractArgs]
    simp only [he, hes]
    exact ihe.append ihes

/-- A replacement changes the assignment at new integer variables only. -/
theorem fresh_of_absEnv_ne {st : AbsState} (h : AbsInv existing st) (ρ : ChcEnv T) {w : ChcVar}
    (hw : absEnv st.memo ρ w ≠ ρ w) :
    w.sort = .int ∧ (∃ k, w.name = absWideName k) ∧ w.name ∉ existing := by
  have hmem : ∃ e, (e, ChcExpr.var w) ∈ st.memo := by
    by_contra hnone
    exact hw (dif_neg hnone)
  obtain ⟨e, hmem⟩ := hmem
  obtain ⟨-, k, -, hnew, heq⟩ := h.fresh _ hmem
  obtain rfl := ChcExpr.var.inj heq
  exact ⟨rfl, ⟨k, rfl⟩, hnew⟩

/-- What satisfies the constraints satisfies their abstraction, once the new variables have the
values of what they replace. -/
theorem exists_extension {crate : ExprCrate} (hcrate : crate.Lawful)
    {constraints : List ChcExpr} {ρ : ChcEnv T} (h : ∀ c ∈ constraints, c.Holds ρ) :
    ∃ ρ' : ChcEnv T,
      (∀ w, ρ' w ≠ ρ w → w.sort = .int ∧ (∃ k, w.name = absWideName k) ∧
        w.name ∉ (ChcExpr.varsList constraints).map ChcVar.name) ∧
      ∀ c ∈ abstractWideNonlinear crate constraints, c.Holds ρ' := by
  cases hcensus : constraints.all ChcExpr.recognized with
  | false =>
    rw [show abstractWideNonlinear crate constraints = constraints by
      rw [abstractWideNonlinear, collectVarNames, hcensus]; rfl]
    exact ⟨ρ, fun w hw => absurd rfl hw, h⟩
  | true =>
    set names := (ChcExpr.varsList constraints).map ChcVar.name with hnames
    have hinit : AbsInv names ⟨0, [], []⟩ := ⟨by simp, by simp⟩
    have hall := abstracts_abstractArgs hcrate constraints _ hinit
    obtain ⟨⟨out, st⟩, hout⟩ : ∃ r, abstractArgs crate names constraints ⟨0, [], []⟩ = r :=
      ⟨_, rfl⟩
    rw [hout] at hall
    rw [show abstractWideNonlinear crate constraints = out ++ st.lemmas by
      rw [abstractWideNonlinear, collectVarNames, hcensus, ← hnames]
      simp only [hout, Bool.not_true, Bool.false_eq_true, if_false]]
    obtain ⟨hevals, hlemmas⟩ := hall.sound st hall.inv (fun p hp => hp) ρ fun e he v hv =>
      List.mem_map_of_mem (ChcExpr.mem_varsList.2 ⟨e, he, hv⟩)
    refine ⟨absEnv st.memo ρ, fun w hw => fresh_of_absEnv_ne hall.inv ρ hw, fun c hc => ?_⟩
    rcases List.mem_append.1 hc with hc | hc
    · -- an abstracted constraint has the value of the constraint it stands for
      have hmem := List.mem_map_of_mem (f := fun c => c.eval (absEnv st.memo ρ)) hc
      rw [hevals] at hmem
      obtain ⟨c', hc', heq⟩ := List.mem_map.1 hmem
      exact (congrArg Val.toBool heq.symm).trans (h c' hc')
    · exact hlemmas (by simp) c hc

/-- **The abstraction is an over-approximation**: what satisfies the constraints can be extended
to satisfy their abstraction. -/
theorem abstractWideNonlinear_sound {crate : ExprCrate} (hcrate : crate.Lawful)
    {constraints : List ChcExpr} {ρ : ChcEnv T} (h : ∀ c ∈ constraints, c.Holds ρ) :
    ∃ ρ' : ChcEnv T, ∀ c ∈ abstractWideNonlinear crate constraints, c.Holds ρ' := by
  obtain ⟨ρ', -, hρ'⟩ := exists_extension hcrate h
  exact ⟨ρ', hρ'⟩

/-- **The abstraction only adds models**: an assignment that satisfies the constraints satisfies
their abstraction after a change at variables that the constraints do not have, and an abstraction
without a model has constraints without one. -/
theorem abstraction_only_adds_models {crate : ExprCrate} (hcrate : crate.Lawful) (T : Theory)
    (constraints : List ChcExpr) :
    (∀ ρ : ChcEnv T, (∀ c ∈ constraints, c.Holds ρ) →
      ∃ ρ' : ChcEnv T,
        (∀ w, ρ' w ≠ ρ w → w.sort = .int ∧ (∃ k, w.name = absWideName k) ∧
          w.name ∉ (ChcExpr.varsList constraints).map ChcVar.name) ∧
        ∀ c ∈ abstractWideNonlinear crate constraints, c.Holds ρ') ∧
    ((¬ ∃ ρ : ChcEnv T, ∀ c ∈ abstractWideNonlinear crate constraints, c.Holds ρ) →
      ¬ ∃ ρ : ChcEnv T, ∀ c ∈ constraints, c.Holds ρ) := by
  refine ⟨fun ρ hρ => exists_extension hcrate hρ, fun hunsat => ?_⟩
  rintro ⟨ρ, hρ⟩
  obtain ⟨ρ', -, hρ'⟩ := exists_extension hcrate hρ
  exact hunsat ⟨ρ', hρ'⟩

end Sound

end TrustMc.DirectSmt
