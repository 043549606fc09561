import TrustMc.Relations.Canonical
import TrustMc.Words.Separator

/-!
# When canonical order keeps arguments in their slots

A rewritten application is right when every argument that has the name of a slot stands in that
slot, no argument is lost, and the other slots hold pads that occur nowhere else in the rule
(`KeepsSlots`). The pass rewrites more than that.

* A variable whose name no slot has is put in the first free slot of its sort, like a constant.
* The pad of a slot is the same in the two applications of a rule, and may be in the rule
  already.

`canonicalize_keeps_iff`: an application is right exactly when neither happens to it.
-/

namespace TrustMc

namespace Relations

open Slots

/-! ### The property -/

/-- The names in the terms of a rule. -/
def ruleNames (r : Rule) : List String := r.terms.flatMap Expr.varNames

/-- The names in the arguments of applications. -/
def appNames (apps : List RelationApp) : List String :=
  apps.flatMap fun app => app.args.flatMap Expr.varNames

/-- The arguments `args'` come from `args` by the row of slots in which every argument of `args`
has its slot, and pads elsewhere that do not occur among the names `elsewhere`. -/
structure KeepsBy (layout : List CanonSlot) (decl : List SmtSort) (args args' : List Expr)
    (elsewhere : List String) (row : List (Option Expr)) : Prop where
  /-- The row has the declared length. -/
  length : row.length = decl.length
  /-- So has the result, and the declared sorts. -/
  sorts : argSortsMatchDecl args' decl = true
  /-- The arguments of the row stay where they are. -/
  kept : ∀ k a, Has row k a → args'[k]? = some a
  /-- An argument with a name stands in the slot of that name. -/
  own : ∀ k a, Has row k a → ∀ b, baseName a = some b → layout[k]? = some (.named b)
  /-- No argument is lost. -/
  all : row.reduceOption.Perm (args.filter (!isPadArg ·))
  /-- Arguments without a name keep their order. -/
  order : (args.filter fun a => !isPadArg a && (baseName a).isNone).Sublist row.reduceOption
  /-- The other slots hold variables of their sorts that occur nowhere else. -/
  pads : ∀ k, Free row k → ∃ n s, decl[k]? = some s ∧ args'[k]? = some (.var n s) ∧
    n ∉ elsewhere ∧ ∀ j e, args'[j]? = some e → n ∈ e.varNames → j = k

/-- The application is untouched, or its arguments stand in their slots; `others` are the other
applications of the rule after the pass. -/
def KeepsSlots (vc : ChcVc) (r : Rule) (others : List RelationApp) (app app' : RelationApp) :
    Prop :=
  app' = app ∨ app'.name = app.name ∧ ∃ decl layout row,
    relSorts vc.relations app.name = some decl ∧ canon vc app.name = some layout ∧
      KeepsBy layout decl app.args app'.args (ruleNames r ++ appNames others) row

/-! ### The condition -/

section Condition

variable (showSort : SmtSort → String) (vc : ChcVc)

/-- Arguments are placed by name and sort. -/
abbrev HasSort (a : Expr) (s : SmtSort) : Prop := a.sort = s

/-- The application lacks the declared sorts, the layout of its relation is known, and all its
arguments can get a slot. -/
structure Divergent (app : RelationApp) (decl : List SmtSort) (layout : List CanonSlot) :
    Prop where
  /-- The relation is declared. -/
  declared : relSorts vc.relations app.name = some decl
  /-- The application does not have the declared sorts. -/
  differs : argSortsMatchDecl app.args decl = false
  /-- Another one has. -/
  known : canon vc app.name = some layout
  /-- The layout is that of the declaration. -/
  length : layout.length = decl.length
  /-- The arguments can be placed. -/
  placeable : Placeable HasSort (anchorPos layout) decl (app.args.filter (!isPadArg ·))

/-- The pads of the slots that stay vacant. -/
def Pads (app : RelationApp) (n : String) : Prop :=
  ∃ decl layout, Divergent vc app decl layout ∧ ∃ k s,
    (s, k) ∈ vacant HasSort (anchorPos layout) decl (app.args.filter (!isPadArg ·)) ∧
      n = cpadName showSort app.name k s

/-- If the application is rewritten then every argument with a name has a slot, and its pads
occur neither in the rule nor as pads of its other applications. -/
def Clean (r : Rule) (others : List RelationApp) (app : RelationApp) : Prop :=
  ∀ decl layout, Divergent vc app decl layout →
    (∀ a ∈ app.args, ∀ b, baseName a = some b → .named b ∈ layout) ∧
      ∀ n, Pads showSort vc app n → n ∉ ruleNames r ∧ ∀ o ∈ others, ¬ Pads showSort vc o n

end Condition

/-! ### Names of pads -/

section Names

variable {showSort : SmtSort → String} {relName : String}

theorem cpadName_inj {i j : ℕ} {s t : SmtSort}
    (h : cpadName showSort relName i s = cpadName showSort relName j t) : i = j := by
  have hlist := congrArg String.toList h
  simp only [cpadName, String.toList_append, List.append_assoc, List.append_cancel_left_eq]
    at hlist
  have hsep : Words.Unbordered "_".toList := by decide
  have hnot : ∀ k : ℕ, ¬ "_".toList <:+: (toString k).toList := fun k => by
    rw [show (toString k).toList = Nat.toDigits 10 k from Nat.toList_repr]
    exact Words.not_infix_toDigits ⟨'_', by decide, by decide⟩
  refine Words.toDigits_inj ?_
  rw [← Nat.toList_repr, ← Nat.toList_repr]
  exact (Words.append_inj_of_unbordered hsep (hnot i) (hnot j) hlist).1

/-- A pad of this pass has a name like a variable. -/
theorem baseName_cpad (showSort : SmtSort → String) (relName : String) (k : ℕ) (s : SmtSort) :
    ∃ b, baseName (.var (cpadName showSort relName k s) s) = some b := by
  rw [baseName, canonicalSlotName, if_neg]
  · exact ⟨_, rfl⟩
  · have hpad : "__pad_".toList = ['_', '_', 'p', 'a', 'd', '_'] := by decide
    have hcpad : "__cpad_".toList = ['_', '_', 'c', 'p', 'a', 'd', '_'] := by decide
    rw [cpadName]
    simp only [String.toList_append, List.append_assoc, hpad, hcpad]
    simp

end Names

/-! ### Layouts -/

/-- A name that two positions claim is conflicted. -/
theorem mem_conflicted {positions : List SlotSeen} {i j : ℕ} {p q : SlotSeen} {b : String}
    (hi : positions[i]? = some p) (hj : positions[j]? = some q) (hp : p.claim = some b)
    (hq : q.claim = some b) (hij : i < j) : b ∈ conflicted positions := by
  obtain ⟨hilt, rfl⟩ := List.getElem?_eq_some_iff.1 hi
  obtain ⟨hjlt, rfl⟩ := List.getElem?_eq_some_iff.1 hj
  have hsub : [positions[i], positions[j]].Sublist positions := by
    have hmem : positions[j] ∈ positions.drop (i + 1) := by
      refine List.mem_of_getElem? (i := j - (i + 1)) ?_
      rw [List.getElem?_drop, show i + 1 + (j - (i + 1)) = j by omega, hj]
    refine .trans ?_ (List.drop_sublist i positions)
    rw [List.drop_eq_getElem_cons hilt]
    exact (List.singleton_sublist.2 hmem).cons_cons _
  have hclaims : [b, b].Sublist (positions.filterMap SlotSeen.claim) := by
    have := hsub.filterMap SlotSeen.claim
    simpa [hp, hq] using this
  have hcount : 1 < (positions.filterMap SlotSeen.claim).count b :=
    Nat.lt_of_lt_of_le (by simp) (hclaims.count_le b)
  rw [conflicted, List.mem_filter]
  exact ⟨List.count_pos_iff.1 (by omega), by simpa using hcount⟩

theorem slotOf_eq_named {names : List String} {seen : SlotSeen} {b : String} :
    slotOf names seen = .named b ↔ seen.claim = some b ∧ b ∉ names := by
  obtain ⟨agreed, conflict, sawConst, sawPad⟩ := seen
  have hrest : (if sawConst then CanonSlot.const else if sawPad then .pad else .const) ≠
      .named b := by
    split_ifs <;> simp
  cases agreed with
  | none => cases conflict <;> simp [slotOf, SlotSeen.claim, hrest]
  | some a =>
    cases conflict with
    | true => simp [slotOf, SlotSeen.claim, hrest]
    | false =>
      rw [slotOf, SlotSeen.claim]
      by_cases ha : a ∈ names
      · dsimp only
        rw [if_neg (by simpa using ha)]
        refine iff_of_false hrest ?_
        rintro ⟨heq, hb⟩
        obtain rfl : a = b := by simpa using heq
        exact hb ha
      · dsimp only
        rw [if_pos (by simpa using ha), CanonSlot.named.injEq, if_neg Bool.false_ne_true,
          Option.some.injEq]
        exact ⟨fun h => ⟨h, h ▸ ha⟩, fun h => h.1⟩

/-- A name has one slot. -/
theorem named_inj {vc : ChcVc} {name : String} {layout : List CanonSlot}
    (h : canon vc name = some layout) {i j : ℕ} {b : String}
    (hi : layout[i]? = some (.named b)) (hj : layout[j]? = some (.named b)) : i = j := by
  obtain ⟨positions, -, rfl⟩ := Option.map_eq_some_iff.1 h
  rw [List.getElem?_map, Option.map_eq_some_iff] at hi hj
  obtain ⟨p, hp, hpb⟩ := hi
  obtain ⟨q, hq, hqb⟩ := hj
  rw [slotOf_eq_named] at hpb hqb
  rcases Nat.lt_trichotomy i j with hij | hij | hij
  · exact absurd (mem_conflicted hp hq hpb.1 hqb.1 hij) hpb.2
  · exact hij
  · exact absurd (mem_conflicted hq hp hqb.1 hpb.1 hij) hpb.2

theorem nameToPos_eq_some {layout : List CanonSlot} {b : String} {k : ℕ}
    (h : nameToPos layout b = some k) : layout[k]? = some (.named b) := by
  obtain ⟨p, hp, rfl⟩ := Option.map_eq_some_iff.1 h
  have hmem := List.mem_of_find?_eq_some hp
  have hname := List.find?_some hp
  rw [List.mem_reverse, List.mem_zipIdx_iff_getElem?] at hmem
  rw [hmem, beq_iff_eq.1 hname]

/-- An argument is anchored where its name belongs. -/
theorem anchorPos_eq_some_iff {vc : ChcVc} {name : String} {layout : List CanonSlot}
    (h : canon vc name = some layout) {a : Expr} {k : ℕ} :
    anchorPos layout a = some k ↔ ∃ b, baseName a = some b ∧ layout[k]? = some (.named b) := by
  rw [anchorPos, Option.bind_eq_some_iff]
  refine exists_congr fun b => and_congr_right fun _ => ⟨nameToPos_eq_some, fun hk => ?_⟩
  cases hpos : nameToPos layout b with
  | none =>
    rw [nameToPos, Option.map_eq_none_iff, List.find?_eq_none] at hpos
    have hmem : (CanonSlot.named b, k) ∈ layout.zipIdx.reverse := by
      rw [List.mem_reverse, List.mem_zipIdx_iff_getElem?]
      exact hk
    simpa using hpos _ hmem
  | some j => rw [named_inj h (nameToPos_eq_some hpos) hk]

theorem isPadArg_of_baseName {a : Expr} {b : String} (h : baseName a = some b) :
    isPadArg a = false := by
  cases a with
  | var n s =>
    rw [baseName] at h
    rw [isPadArg, h]
    rfl
  | app op args => rfl
  | quant q vs b => rfl

/-! ### One application -/

section App

variable {showSort : SmtSort → String} {vc : ChcVc} {app : RelationApp}

/-- The arguments of a row, with pads in the free slots. -/
def padRow (showSort : SmtSort → String) (relName : String) (decl : List SmtSort)
    (row : List (Option Expr)) : List Expr :=
  (row.zip decl).mapIdx fun k (o, s) => o.getD (.var (cpadName showSort relName k s) s)

theorem getElem?_padRow (showSort : SmtSort → String) (relName : String) {decl : List SmtSort}
    {row : List (Option Expr)}
    {k : ℕ} {s : SmtSort} {o : Option Expr} (ho : row[k]? = some o) (hs : decl[k]? = some s) :
    (padRow showSort relName decl row)[k]? =
      some (o.getD (.var (cpadName showSort relName k s) s)) := by
  have hzip : (row.zip decl)[k]? = some (o, s) := List.getElem?_zip_eq_some.2 ⟨ho, hs⟩
  rw [padRow, List.getElem?_mapIdx, hzip]
  rfl

/-- An entry of the padded row is an argument of the row or a pad. -/
theorem padRow_cases {relName : String} {decl : List SmtSort} {row : List (Option Expr)} {k : ℕ}
    {e : Expr} (h : (padRow showSort relName decl row)[k]? = some e) :
    Has row k e ∨ ∃ s, Free row k ∧ decl[k]? = some s ∧
      e = .var (cpadName showSort relName k s) s := by
  rw [padRow, List.getElem?_mapIdx, Option.map_eq_some_iff] at h
  obtain ⟨⟨o, s⟩, hos, rfl⟩ := h
  obtain ⟨ho, hs⟩ := List.getElem?_zip_eq_some.1 hos
  cases o with
  | none => exact Or.inr ⟨s, ho, hs, rfl⟩
  | some a => exact Or.inl ho

/-- A padded row of arguments in slots of their sorts has the declared sorts. -/
theorem sorts_padRow {relName : String} {decl : List SmtSort} {row : List (Option Expr)}
    (hlen : row.length = decl.length)
    (hsorts : ∀ k a, Has row k a → ∃ s, decl[k]? = some s ∧ a.sort = s) :
    argSortsMatchDecl (padRow showSort relName decl row) decl = true := by
  rw [argSortsMatchDecl, beq_iff_eq]
  refine List.ext_getElem? fun k => ?_
  rw [List.getElem?_map]
  cases hs : decl[k]? with
  | none =>
    have hk := List.getElem?_eq_none_iff.1 hs
    rw [List.getElem?_eq_none_iff.2 (by simpa [padRow, hlen] using hk)]
    rfl
  | some s =>
    have hk : k < row.length := hlen ▸ (List.getElem?_eq_some_iff.1 hs).1
    cases ho : row[k] with
    | none =>
      rw [getElem?_padRow showSort relName (List.getElem?_eq_some_iff.2 ⟨hk, ho⟩) hs]
      rfl
    | some a =>
      rw [getElem?_padRow showSort relName (List.getElem?_eq_some_iff.2 ⟨hk, ho⟩) hs]
      obtain ⟨t, ht, hat⟩ := hsorts k a (List.getElem?_eq_some_iff.2 ⟨hk, ho⟩)
      obtain rfl := Option.some.inj (hs.symm.trans ht)
      exact congrArg some hat

theorem canonApp_of_not_conforms {decl : List SmtSort}
    (hdecl : relSorts vc.relations app.name = some decl)
    (hconf : appConforms vc.relations app = false) :
    canonApp showSort vc app =
      match canon vc app.name with
      | none => (app, false)
      | some layout =>
        if layout.length ≠ decl.length then (app, false)
        else
          match realign showSort app.name app.args layout decl with
          | none => (app, false)
          | some args => (⟨app.name, args⟩, true) := by
  rw [canonApp, hdecl]
  dsimp only
  rw [hconf]
  rfl

/-- What the pass does to an application: nothing if it is not divergent, else its arguments are
placed. -/
theorem canonApp_cases (showSort : SmtSort → String) (vc : ChcVc) (app : RelationApp) :
    ((canonApp showSort vc app).1 = app ∧ ∀ decl layout, ¬ Divergent vc app decl layout) ∨
      ∃ decl layout row, Divergent vc app decl layout ∧
        place HasSort (anchorPos layout) decl (app.args.filter (!isPadArg ·)) = some row ∧
        (canonApp showSort vc app).1 = ⟨app.name, padRow showSort app.name decl row⟩ := by
  cases hdecl : relSorts vc.relations app.name with
  | none =>
    refine Or.inl ⟨by rw [canonApp, hdecl], fun decl layout hdiv => ?_⟩
    exact absurd (hdecl.symm.trans hdiv.declared) (by simp)
  | some decl =>
    have hconforms : appConforms vc.relations app = argSortsMatchDecl app.args decl := by
      rw [appConforms, hdecl]
      rfl
    by_cases hconf : argSortsMatchDecl app.args decl = true
    · refine Or.inl ⟨?_, fun decl' layout hdiv => ?_⟩
      · rw [canonApp, hdecl]
        dsimp only
        rw [hconforms, if_pos hconf]
      · obtain rfl := Option.some.inj (hdecl.symm.trans hdiv.declared)
        exact absurd hconf (by simp [hdiv.differs])
    · rw [canonApp_of_not_conforms hdecl (hconforms.trans (Bool.eq_false_of_not_eq_true hconf))]
      cases hlayout : canon vc app.name with
      | none =>
        refine Or.inl ⟨rfl, fun decl' layout hdiv => ?_⟩
        exact absurd (hlayout.symm.trans hdiv.known) (by simp)
      | some layout =>
        by_cases hlen : layout.length = decl.length
        · dsimp only
          rw [if_neg (not_not.2 hlen), realign]
          have hplace : place HasSort (anchorPos layout) decl (app.args.filter (!isPadArg ·)) ≠
              none ↔ _ := place_ne_none_iff
          cases hrow : place HasSort (anchorPos layout) decl (app.args.filter (!isPadArg ·)) with
          | none =>
            refine Or.inl ⟨rfl, fun decl' layout' hdiv => ?_⟩
            obtain rfl := Option.some.inj (hdecl.symm.trans hdiv.declared)
            obtain rfl := Option.some.inj (hlayout.symm.trans hdiv.known)
            exact hplace.2 hdiv.placeable hrow
          | some row =>
            refine Or.inr ⟨decl, layout, row, ⟨hdecl, by simpa using hconf, hlayout, hlen, ?_⟩,
              hrow, rfl⟩
            exact hplace.1 (by rw [hrow]; exact Option.some_ne_none _)
        · refine Or.inl ⟨?_, fun decl' layout' hdiv => ?_⟩
          · dsimp only
            rw [if_pos hlen]
          · obtain rfl := Option.some.inj (hdecl.symm.trans hdiv.declared)
            obtain rfl := Option.some.inj (hlayout.symm.trans hdiv.known)
            exact hlen hdiv.length

/-- The names of a rewritten application are names of the application and its pads. -/
theorem names_canonApp {n : String} :
    (n ∈ appNames [(canonApp showSort vc app).1] → n ∈ appNames [app] ∨ Pads showSort vc app n) ∧
      (Pads showSort vc app n → n ∈ appNames [(canonApp showSort vc app).1]) := by
  simp only [appNames, List.flatMap_singleton]
  rcases canonApp_cases showSort vc app with ⟨happ, hno⟩ | ⟨decl, layout, row, hdiv, hrow, happ⟩
  · rw [happ]
    refine ⟨Or.inl, ?_⟩
    rintro ⟨decl, layout, hdiv, -⟩
    exact absurd hdiv (hno decl layout)
  · obtain ⟨hlen, hperm, -, -, -, -, hfree⟩ := place_spec hrow
    rw [happ]
    constructor
    · intro hn
      obtain ⟨e, he, hn⟩ := List.mem_flatMap.1 hn
      obtain ⟨k, hk⟩ := List.mem_iff_getElem?.1 he
      rcases padRow_cases hk with h | ⟨s, hkfree, hs, rfl⟩
      · have hmem : e ∈ app.args.filter (!isPadArg ·) :=
          hperm.mem_iff.1 (List.reduceOption_mem_iff.2 (List.mem_of_getElem? h))
        exact Or.inl (List.mem_flatMap.2 ⟨e, (List.mem_filter.1 hmem).1, hn⟩)
      · obtain ⟨t, ht⟩ := (hfree k).1 hkfree
        obtain rfl := Option.some.inj (hs.symm.trans (getElem?_of_mem_vacant ht))
        exact Or.inr ⟨decl, layout, hdiv, k, s, ht, List.mem_singleton.1 hn⟩
    · rintro ⟨decl', layout', hdiv', k, s, hvac, rfl⟩
      obtain rfl := Option.some.inj (hdiv.declared.symm.trans hdiv'.declared)
      obtain rfl := Option.some.inj (hdiv.known.symm.trans hdiv'.known)
      have hpad := getElem?_padRow showSort app.name ((hfree k).2 ⟨s, hvac⟩)
        (getElem?_of_mem_vacant hvac)
      refine List.mem_flatMap.2 ⟨_, List.mem_of_getElem? hpad, ?_⟩
      exact List.mem_singleton_self _

/-- **One application**: it is right exactly when it is clean. -/
theorem keepsSlots_iff {r : Rule} {others : List RelationApp}
    (hargs : ∀ o ∈ app :: others, ∀ n ∈ appNames [o], n ∈ ruleNames r) :
    KeepsSlots vc r (others.map fun o => (canonApp showSort vc o).1) app
        (canonApp showSort vc app).1 ↔ Clean showSort vc r others app := by
  rcases canonApp_cases showSort vc app with ⟨happ, hno⟩ | ⟨decl, layout, row, hdiv, hrow, happ⟩
  · rw [happ]
    exact iff_of_true (Or.inl rfl) fun decl layout hdiv => absurd hdiv (hno decl layout)
  · obtain ⟨hlen, hperm, hsub, hhas, hsorts, hanchored, hfree⟩ := place_spec hrow
    have hsorted : argSortsMatchDecl (padRow showSort app.name decl row) decl = true :=
      sorts_padRow hlen hsorts
    have hnames : ∀ n, n ∈ ruleNames r ++
        appNames (others.map fun o => (canonApp showSort vc o).1) ↔
          n ∈ ruleNames r ∨ ∃ o ∈ others, Pads showSort vc o n := by
      intro n
      have hothers : n ∈ appNames (others.map fun o => (canonApp showSort vc o).1) ↔
          ∃ o ∈ others, n ∈ appNames [(canonApp showSort vc o).1] := by
        simp [appNames]
      rw [List.mem_append, hothers]
      constructor
      · rintro (hn | ⟨o, ho, hn⟩)
        · exact Or.inl hn
        · rcases names_canonApp.1 hn with hn | hn
          · exact Or.inl (hargs o (List.mem_cons_of_mem _ ho) n hn)
          · exact Or.inr ⟨o, ho, hn⟩
      · rintro (hn | ⟨o, ho, hn⟩)
        · exact Or.inl hn
        · exact Or.inr ⟨o, ho, names_canonApp.2 hn⟩
    have hmem : ∀ {k a}, Has row k a → a ∈ app.args := fun h =>
      (List.mem_filter.1 (hperm.mem_iff.1
        (List.reduceOption_mem_iff.2 (List.mem_of_getElem? h)))).1
    rw [happ]
    constructor
    · rintro (huntouched | ⟨-, decl', layout', row', hdecl', hlayout', hkeeps⟩) decl'' layout''
        hdiv'
      · -- a divergent application does not stay
        have hargs' : padRow showSort app.name decl row = app.args :=
          congrArg RelationApp.args huntouched
        rw [hargs', hdiv.differs] at hsorted
        exact absurd hsorted Bool.false_ne_true
      · obtain rfl := Option.some.inj (hdiv.declared.symm.trans hdecl')
        obtain rfl := Option.some.inj (hdiv.known.symm.trans hlayout')
        obtain rfl := Option.some.inj (hdiv.declared.symm.trans hdiv'.declared)
        obtain rfl := Option.some.inj (hdiv.known.symm.trans hdiv'.known)
        refine ⟨fun a ha b hb => ?_, fun n hn => ?_⟩
        · have hkeep : a ∈ app.args.filter (!isPadArg ·) :=
            List.mem_filter.2 ⟨ha, by rw [isPadArg_of_baseName hb]; rfl⟩
          obtain ⟨k, hk⟩ := List.mem_iff_getElem?.1
            (List.reduceOption_mem_iff.1 (hkeeps.all.mem_iff.2 hkeep))
          exact List.mem_of_getElem? (hkeeps.own k a hk b hb)
        · obtain ⟨decl', layout', hdiv', k, s, hvac, rfl⟩ := hn
          obtain rfl := Option.some.inj (hdiv.declared.symm.trans hdiv'.declared)
          obtain rfl := Option.some.inj (hdiv.known.symm.trans hdiv'.known)
          have hs := getElem?_of_mem_vacant hvac
          have hk := (hfree k).2 ⟨s, hvac⟩
          have hpad := getElem?_padRow showSort app.name hk hs
          have hlt : k < row'.length := hkeeps.length ▸ (List.getElem?_eq_some_iff.1 hs).1
          cases ho : row'[k] with
          | some a =>
            -- then the pad would be an argument with a slot, and have it in the row of the pass
            have hhas' : Has row' k a := List.getElem?_eq_some_iff.2 ⟨hlt, ho⟩
            obtain rfl := Option.some.inj (hpad.symm.trans (hkeeps.kept k a hhas'))
            obtain ⟨b, hb⟩ := baseName_cpad showSort app.name k s
            have hanchor := (anchorPos_eq_some_iff hdiv.known).2 ⟨b, hb, hkeeps.own k _ hhas' b hb⟩
            have hmem' := hkeeps.all.mem_iff.1
              (List.reduceOption_mem_iff.2 (List.mem_of_getElem? hhas'))
            exact absurd (hk.symm.trans (hhas _ hmem' k hanchor)) (by simp)
          | none =>
            obtain ⟨n, t, -, hn, hnot, -⟩ :=
              hkeeps.pads k (List.getElem?_eq_some_iff.2 ⟨hlt, ho⟩)
            obtain ⟨rfl, rfl⟩ := Expr.var.inj (Option.some.inj (hpad.symm.trans hn))
            rw [hnames] at hnot
            exact ⟨fun h => hnot (Or.inl h), fun o ho h => hnot (Or.inr ⟨o, ho, h⟩)⟩
    · intro hclean
      obtain ⟨hnamed, hfresh⟩ := hclean decl layout hdiv
      refine Or.inr ⟨rfl, decl, layout, row, hdiv.declared, hdiv.known, hlen, hsorted,
        fun k a hk => ?_, fun k a hk b hb => ?_, hperm, ?_, fun k hk => ?_⟩
      · obtain ⟨s, hs, -⟩ := hsorts k a hk
        exact getElem?_padRow showSort app.name hk hs
      · rcases hanchored k a hk with hpos | hpos
        · obtain ⟨b', hb', hslot⟩ := (anchorPos_eq_some_iff hdiv.known).1 hpos
          rwa [Option.some.inj (hb.symm.trans hb')]
        · -- its name has a slot, so it is anchored
          obtain ⟨j, hj⟩ := List.mem_iff_getElem?.1 (hnamed a (hmem hk) b hb)
          have hanchor := (anchorPos_eq_some_iff hdiv.known).2 ⟨b, hb, hj⟩
          exact absurd (hpos.symm.trans hanchor) (by simp)
      · refine .trans ?_ hsub
        rw [unanchored, List.filter_filter]
        refine List.monotone_filter_right _ fun a ha => ?_
        rw [Bool.and_eq_true, Option.isNone_iff_eq_none] at ha
        rw [Bool.and_eq_true, anchorPos, ha.2]
        exact ⟨rfl, ha.1⟩
      · obtain ⟨s, hvac⟩ := (hfree k).1 hk
        have hs := getElem?_of_mem_vacant hvac
        obtain ⟨hrule, hother⟩ := hfresh _ ⟨decl, layout, hdiv, k, s, hvac, rfl⟩
        refine ⟨_, s, hs, getElem?_padRow showSort app.name hk hs, ?_, fun j e hj hn => ?_⟩
        · rw [hnames]
          rintro (h | ⟨o, ho, h⟩)
          · exact hrule h
          · exact hother o ho h
        · rcases padRow_cases hj with h | ⟨t, -, -, rfl⟩
          · refine absurd (hargs app List.mem_cons_self _ ?_) hrule
            rw [appNames, List.flatMap_singleton]
            exact List.mem_flatMap.2 ⟨e, hmem h, hn⟩
          · exact (cpadName_inj (List.mem_singleton.1 hn)).symm

end App

/-! ### The pass -/

/-- The rule after the pass. -/
def canonRule (showSort : SmtSort → String) (vc : ChcVc) (r : Rule) : Rule :=
  ⟨⟨r.body.relation.map fun app => (canonApp showSort vc app).1, r.body.constraints⟩,
    (canonApp showSort vc r.head).1⟩

theorem rule_eq_canonRule (showSort : SmtSort → String) (vc : ChcVc) (r : Rule) :
    (match r.body.relation with
      | none => ((⟨⟨none, r.body.constraints⟩, (canonApp showSort vc r.head).1⟩ : Rule),
          (canonApp showSort vc r.head).2)
      | some app => (⟨⟨some (canonApp showSort vc app).1, r.body.constraints⟩,
          (canonApp showSort vc r.head).1⟩,
          (canonApp showSort vc r.head).2 || (canonApp showSort vc app).2)).1 =
      canonRule showSort vc r := by
  rw [canonRule]
  cases r.body.relation <;> rfl

theorem canonicalize_rules (showSort : SmtSort → String) (vc : ChcVc) :
    (canonicalizeBlockRelationApps showSort vc).rules = vc.rules.map (canonRule showSort vc) := by
  rw [canonicalizeBlockRelationApps]
  dsimp only
  split_ifs
  · rw [(declareUsed_rules _ _).1, List.map_map]
    exact List.map_congr_left fun r _ => rule_eq_canonRule showSort vc r
  · rw [List.map_map]
    exact List.map_congr_left fun r _ => rule_eq_canonRule showSort vc r

theorem canonicalize_relations (showSort : SmtSort → String) (vc : ChcVc) :
    (canonicalizeBlockRelationApps showSort vc).relations = vc.relations := by
  rw [canonicalizeBlockRelationApps]
  dsimp only
  split_ifs
  · exact (declareUsed_rules _ _).2
  · rfl

/-- The head of a rule keeps its slots. -/
def KeepsHead (vc : ChcVc) (r r' : Rule) : Prop :=
  KeepsSlots vc r r'.body.relation.toList r.head r'.head

/-- So does the application in its body. -/
def KeepsBody (vc : ChcVc) (r r' : Rule) : Prop :=
  ∀ app ∈ r.body.relation, ∃ app', r'.body.relation = some app' ∧
    KeepsSlots vc r [r'.head] app app'

/-- **When canonical order keeps arguments in their slots**: for every application of every rule,
exactly when it is clean. -/
theorem canonicalize_keeps_iff (showSort : SmtSort → String) (vc : ChcVc) :
    List.Forall₂ (fun r r' =>
        (KeepsHead vc r r' ↔ Clean showSort vc r r.body.relation.toList r.head) ∧
          (KeepsBody vc r r' ↔ ∀ app ∈ r.body.relation, Clean showSort vc r [r.head] app))
      vc.rules (canonicalizeBlockRelationApps showSort vc).rules := by
  rw [canonicalize_rules]
  refine List.forall₂_map_right_iff.2 (List.forall₂_same.2 fun r _ => ?_)
  have hhead : ∀ n ∈ appNames [r.head], n ∈ ruleNames r := by
    simp only [appNames, List.flatMap_singleton, ruleNames, Rule.terms, List.flatMap_append]
    exact fun n hn => List.mem_append_right _ hn
  have hbody : ∀ app, r.body.relation = some app → ∀ n ∈ appNames [app], n ∈ ruleNames r := by
    intro app happ
    simp only [appNames, List.flatMap_singleton, ruleNames, Rule.terms, List.flatMap_append, happ]
    exact fun n hn => List.mem_append_left _ (List.mem_append_left _ hn)
  constructor
  · rw [← keepsSlots_iff, KeepsHead, canonRule]
    · cases r.body.relation <;> rfl
    · intro o ho
      rcases List.mem_cons.1 ho with rfl | ho
      · exact hhead
      · exact hbody o (Option.mem_toList.1 ho)
  · refine forall₂_congr fun app happ => ?_
    rw [← keepsSlots_iff, canonRule, Option.mem_def.1 happ]
    · constructor
      · rintro ⟨app', happ', hkeeps⟩
        obtain rfl := Option.some.inj happ'
        exact hkeeps
      · exact fun hkeeps => ⟨_, rfl, hkeeps⟩
    · intro o ho
      rcases List.mem_cons.1 ho with rfl | ho
      · exact hbody o happ
      · rw [List.mem_singleton.1 ho]
        exact hhead

/-- `f__bb2(_6, _8)` shows which variable belongs where; `f__bb2(_7)` names neither. -/
def strangerVc : ChcVc :=
  { vars := [("_6", .bitvec 32), ("_7", .bitvec 32), ("_8", .bitvec 32)]
    relations := [⟨"f__bb2", [.bitvec 32, .bitvec 32]⟩, ⟨"error", []⟩]
    rules :=
      [⟨⟨none, []⟩, ⟨"f__bb2", [.var "_6" (.bitvec 32), .var "_8" (.bitvec 32)]⟩⟩,
        ⟨⟨some ⟨"f__bb2", [.var "_7" (.bitvec 32)]⟩, []⟩, .nullary "error"⟩]
    target := some "error"
    triviallySafeDischarged := false }

/-- The variable is put in the slot of `_6`. -/
theorem canonicalize_misplaces :
    (canonicalizeBlockRelationApps (fun _ => "BitVec 32") strangerVc).rules.map
        (fun r => r.body.relation.map RelationApp.args) =
      [none, some [.var "_7" (.bitvec 32), .var "__cpad_f__bb2_1_BitVec_32" (.bitvec 32)]] ∧
      ∃ p ∈ strangerVc.rules.zip
          (canonicalizeBlockRelationApps (fun _ => "BitVec 32") strangerVc).rules,
        ¬ KeepsBody strangerVc p.1 p.2 := by
  rw [canonicalize_rules]
  refine ⟨by decide +kernel, _, List.mem_cons_of_mem _ List.mem_cons_self, fun h => ?_⟩
  obtain ⟨app', happ', hkeeps⟩ := h _ rfl
  rcases hkeeps with rfl | ⟨-, decl, layout, row, -, hlayout, hkeeps⟩
  · revert happ'
    decide +kernel
  · have hrow := hkeeps.all.mem_iff.2
      (show Expr.var "_7" (.bitvec 32) ∈ _ from by decide +kernel)
    obtain ⟨k, hk⟩ := List.mem_iff_getElem?.1 (List.reduceOption_mem_iff.1 hrow)
    have hslot := List.mem_of_getElem? (hkeeps.own k _ hk "_7" (by decide +kernel))
    have hcanon : canon strangerVc "f__bb2" = some [.named "_6", .named "_8"] := by
      decide +kernel
    obtain rfl := Option.some.inj (hcanon.symm.trans hlayout)
    revert hslot
    decide

end Relations

end TrustMc
