import TrustMc.Relations.Arity

/-!
# What the arity repair does to an application

* `Places`: arguments stand in slots of their sorts, in order, and the other slots hold pads.
* The alignments place the arguments, or some of them, whenever they succeed; the one that a
  full application gives succeeds when the arguments are a subsequence of it, and the one by
  sorts when the sorts are a subsequence of the declared ones.
* `fixup_spec`: what becomes of every application of a verification condition, and that the
  repair changes nothing the second time.

An application that is too short and cannot be aligned keeps its arguments and gets pads at one
end. It has the declared arity then, but not always the declared sorts.
-/

namespace TrustMc

namespace Relations

open Slots

variable {relName : String} {args out : List Expr} {decl : List SmtSort} {k : ℕ}

/-- The arguments stand in slots of their sorts, in order, and the other slots hold pads. -/
abbrev Places (relName : String) (k : ℕ) (decl : List SmtSort) (args out : List Expr) : Prop :=
  Fills (fun a s => a.sort = s) (padVar relName) k decl args out

/-- The arguments stand where the full application has them, and the other slots hold pads. -/
abbrev PlacesAs (relName : String) (template : List Expr) (decl : List SmtSort)
    (args out : List Expr) : Prop :=
  Fills (fun a (p : Expr × SmtSort) => a = p.1) (fun k p => padVar relName k p.2) 0
    (template.zip decl) args out

theorem argSortsMatchDecl_iff :
    argSortsMatchDecl args decl = true ↔ List.Forall₂ (fun a s => a.sort = s) args decl := by
  rw [argSortsMatchDecl, beq_iff_eq, ← List.forall₂_eq_eq_eq, List.forall₂_map_left_iff]

theorem length_of_argSortsMatchDecl (h : argSortsMatchDecl args decl = true) :
    args.length = decl.length :=
  (argSortsMatchDecl_iff.1 h).length_eq

/-- A row in which arguments are placed has the declared sorts. -/
theorem conforms_of_places (h : Places relName k decl args out) :
    argSortsMatchDecl out decl = true :=
  argSortsMatchDecl_iff.2 (h.forall₂ fun _ _ => rfl)

theorem mem_of_places (h : Places relName 0 decl args out) {e : Expr} (he : e ∈ out) :
    e ∈ args ∨ ∃ i s, decl[i]? = some s ∧ e = padVar relName i s := by
  obtain ⟨i, hi⟩ := List.mem_iff_getElem?.1 he
  refine (h.mem_or_pad hi).imp_right ?_
  rintro ⟨s, hs, rfl⟩
  exact ⟨i, s, hs, by rw [Nat.zero_add]⟩

/-! ### The alignment by sorts -/

theorem greedy_places (relName : String) (decl : List SmtSort) (args : List Expr) :
    ∃ used, args = used ++
        (greedy (fun (a : Expr) s => a.sort = s) (padVar relName) 0 decl args).2.1 ∧
      Places relName 0 decl used
        (greedy (fun (a : Expr) s => a.sort = s) (padVar relName) 0 decl args).1 :=
  greedy_fills 0 decl args

theorem alignPad_of_some
    (h : alignArgsToDeclSortsWithPadding relName args decl = some out) :
    ∃ used, used.Sublist args ∧ Places relName 0 decl used out := by
  rw [alignArgsToDeclSortsWithPadding] at h
  split_ifs at h
  obtain ⟨used, hused, hfills⟩ := greedy_places relName decl args
  simp only [Option.ite_none_right_eq_some, Option.some.injEq] at h
  rw [h.2] at hfills
  exact ⟨used, hused ▸ List.sublist_append_left _ _, hfills⟩

/-- Fewer arguments than slots whose sorts fit some of the slots are all placed. -/
theorem alignPad_of_fit (hlen : args.length < decl.length)
    (hfit : Fit (fun (a : Expr) s => a.sort = s) args decl) :
    ∃ out, alignArgsToDeclSortsWithPadding relName args decl = some out ∧
      Places relName 0 decl args out := by
  obtain ⟨used, hused, hfills⟩ := greedy_places relName decl args
  have hleft : (greedy (fun (a : Expr) s => a.sort = s) (padVar relName) 0 decl args).2.1 = [] :=
    greedy_complete hfit
  have hpad : (greedy (fun (a : Expr) s => a.sort = s) (padVar relName) 0 decl args).2.2 = true :=
    inserted_of_length_lt hlen
  rw [hleft, List.append_nil] at hused
  rw [← hused] at hfills
  refine ⟨_, ?_, hfills⟩
  rw [alignArgsToDeclSortsWithPadding, if_neg (by omega)]
  simp [hleft, hpad]

/-- What could not be aligned cannot be aligned with more arguments behind it. -/
theorem alignPad_append {more : List Expr} (hlen : args.length < decl.length)
    (h : alignArgsToDeclSortsWithPadding relName args decl = none) :
    alignArgsToDeclSortsWithPadding relName (args ++ more) decl = none := by
  have hpad : (greedy (fun (a : Expr) s => a.sort = s) (padVar relName) 0 decl args).2.2 = true :=
    inserted_of_length_lt hlen
  rw [alignArgsToDeclSortsWithPadding, if_neg (by omega)] at h
  simp only [hpad, Bool.true_and, ite_eq_right_iff, reduceCtorEq, imp_false] at h
  have hleft : (greedy (fun (a : Expr) s => a.sort = s) (padVar relName) 0 decl args).2.1 ≠ [] := by
    intro hnil
    simp [hnil] at h
  have happ : (greedy (fun (a : Expr) s => a.sort = s) (padVar relName) 0 decl
      (args ++ more)).2.1 = _ ++ more := (greedy_append hleft).2
  rw [alignArgsToDeclSortsWithPadding]
  split_ifs with hlong
  · rfl
  · simp only [happ, List.all_append, Bool.not_eq_true] at h ⊢
    simp [h]

/-! ### The alignment by a full application -/

theorem canMatchTemplate_iff {template : List Expr} :
    canMatchTemplate args template = true ↔ args.Sublist template := by
  induction template generalizing args with
  | nil => cases args <;> simp [canMatchTemplate]
  | cons t template ih =>
    cases args with
    | nil => simp [canMatchTemplate]
    | cons a args =>
      rw [canMatchTemplate, Bool.or_eq_true, Bool.and_eq_true, beq_iff_eq, ih, ih]
      constructor
      · rintro (h | ⟨rfl, h⟩)
        · exact h.cons _
        · exact h.cons_cons _
      · intro h
        cases h with
        | cons _ h => exact Or.inl h
        | cons_cons _ h => exact Or.inr ⟨rfl, h⟩

theorem templateRow_fills {slots : List (Expr × SmtSort)}
    (h : args.Sublist (slots.map Prod.fst)) :
    Fills (fun a p => a = p.1) (fun k p => padVar relName k p.2) k slots args
      (templateRow relName k slots args) := by
  induction slots generalizing k args with
  | nil =>
    obtain rfl := List.sublist_nil.1 h
    exact .nil
  | cons p slots ih =>
    obtain ⟨t, s⟩ := p
    cases args with
    | nil => exact .pad (ih (List.nil_sublist _))
    | cons a args =>
      rw [templateRow]
      split_ifs with ha
      · exact .keep ha.1 (ih (canMatchTemplate_iff.1 ha.2))
      · -- the argument stands further on, so the slot is a pad
        refine .pad (ih ?_)
        cases h with
        | cons _ h => exact h
        | cons_cons _ h => exact absurd ⟨rfl, canMatchTemplate_iff.2 h⟩ ha

theorem alignTemplate_of_some {template : List Expr}
    (h : alignArgsToTemplate relName args decl template = some out) :
    argSortsMatchDecl template decl = true ∧ PlacesAs relName template decl args out := by
  rw [alignArgsToTemplate] at h
  split_ifs at h with hbad hmatch
  simp only [Bool.or_eq_true, Bool.not_eq_true', decide_eq_true_eq, not_or,
    Bool.not_eq_false] at hbad hmatch
  obtain rfl := Option.some.inj h
  have hlen := length_of_argSortsMatchDecl hbad.1
  refine ⟨hbad.1, templateRow_fills ?_⟩
  rw [List.map_fst_zip hlen.le]
  exact canMatchTemplate_iff.1 hmatch

theorem alignTemplate_of_sublist {template : List Expr}
    (hconf : argSortsMatchDecl template decl = true) (h : args.Sublist template) :
    alignArgsToTemplate relName args decl template ≠ none := by
  rw [alignArgsToTemplate, if_neg, if_neg]
  · exact Option.some_ne_none _
  · simp [canMatchTemplate_iff.2 h]
  · simp [hconf, h.length_le]

/-- Arguments placed as in a full application are placed in slots of their sorts. -/
theorem places_of_placesAs {template : List Expr} (hconf : argSortsMatchDecl template decl = true)
    (h : PlacesAs relName template decl args out) : Places relName 0 decl args out := by
  have hall := argSortsMatchDecl_iff.1 hconf
  have hfills : Places relName 0 ((template.zip decl).map Prod.snd) args out :=
    h.map fun a _ p hp hap => by
      rw [hap]
      exact (List.forall₂_iff_zip.1 hall).2 hp
  rwa [List.map_snd_zip hall.length_eq.ge] at hfills

/-! ### Too many arguments -/

theorem canMatchSorts_iff :
    canMatchSorts args decl = true ↔ decl.Sublist (args.map Expr.sort) := by
  induction args generalizing decl with
  | nil => cases decl <;> simp [canMatchSorts]
  | cons a args ih =>
    cases decl with
    | nil => simp [canMatchSorts]
    | cons s decl =>
      rw [canMatchSorts, Bool.or_eq_true, Bool.and_eq_true, beq_iff_eq, ih, ih, List.map_cons]
      constructor
      · rintro (h | ⟨rfl, h⟩)
        · exact h.cons _
        · exact h.cons_cons _
      · intro h
        cases h with
        | cons _ h => exact Or.inl h
        | cons_cons _ h => exact Or.inr ⟨rfl, h⟩

theorem trimmedArgs_sublist : (trimmedArgs args decl).Sublist args := by
  induction args generalizing decl with
  | nil => cases decl <;> simp [trimmedArgs]
  | cons a args ih =>
    cases decl with
    | nil => simp [trimmedArgs]
    | cons s decl =>
      rw [trimmedArgs]
      split_ifs
      · exact ih.cons_cons a
      · exact ih.cons a

theorem trimmedArgs_sorts (h : canMatchSorts args decl = true) :
    (trimmedArgs args decl).map Expr.sort = decl := by
  induction args generalizing decl with
  | nil =>
    cases decl with
    | nil => rfl
    | cons s decl => simp [canMatchSorts] at h
  | cons a args ih =>
    cases decl with
    | nil => rfl
    | cons s decl =>
      rw [trimmedArgs]
      rw [canMatchSorts, Bool.or_eq_true, Bool.and_eq_true, beq_iff_eq] at h
      split_ifs with ha
      · rw [List.map_cons, ih ha.2, ha.1]
      · exact ih (h.resolve_right ha)

theorem alignArgsToDeclSorts_eq :
    alignArgsToDeclSorts args decl =
      if canMatchSorts args decl = true then some (trimmedArgs args decl) else none := by
  rw [alignArgsToDeclSorts]
  cases h : canMatchSorts args decl with
  | false => rfl
  | true =>
    have hlen := congrArg List.length (trimmedArgs_sorts h)
    rw [List.length_map] at hlen
    simp [hlen]

theorem sublist_of_argsContain {template : List Expr}
    (h : argsContainTemplateInOrder args template = true) : template.Sublist args := by
  induction args generalizing template with
  | nil => cases template <;> simp_all [argsContainTemplateInOrder]
  | cons a args ih =>
    cases template with
    | nil => exact List.nil_sublist _
    | cons t template =>
      rw [argsContainTemplateInOrder] at h
      split_ifs at h with ha
      · exact ha ▸ (ih h).cons_cons a
      · exact (ih h).cons a

theorem trim_of_some {templates : List (List Expr)}
    (h : trimRelationArgsToDecl templates args decl = some out) :
    out.Sublist args ∧ argSortsMatchDecl out decl = true := by
  rw [trimRelationArgsToDecl] at h
  split_ifs at h
  rcases Option.or_eq_some_iff.1 h with h | ⟨-, h⟩
  · have hfound := List.find?_some h
    rw [Bool.and_eq_true] at hfound
    exact ⟨sublist_of_argsContain hfound.2, hfound.1⟩
  · rw [alignArgsToDeclSorts_eq] at h
    split_ifs at h with hmatch
    obtain rfl := Option.some.inj h
    exact ⟨trimmedArgs_sublist, by simp [argSortsMatchDecl, trimmedArgs_sorts hmatch]⟩

/-- A full application that the arguments contain shows that they can be trimmed by their sorts,
so that the full applications do not decide whether trimming succeeds. -/
theorem trim_eq_none_congr {templates templates' : List (List Expr)}
    (h : trimRelationArgsToDecl templates args decl = none) :
    trimRelationArgsToDecl templates' args decl = none := by
  rw [trimRelationArgsToDecl] at h ⊢
  split_ifs at h ⊢ with hlen
  · rfl
  · obtain ⟨-, hsorts⟩ := Option.or_eq_none_iff.1 h
    refine Option.or_eq_none_iff.2 ⟨List.find?_eq_none.2 fun template _ hfound => ?_, hsorts⟩
    rw [Bool.and_eq_true] at hfound
    have hsub := (sublist_of_argsContain hfound.2).map Expr.sort
    rw [beq_iff_eq.1 hfound.1, ← canMatchSorts_iff] at hsub
    simp [alignArgsToDeclSorts_eq, hsub] at hsorts

/-! ### The alignments with skips -/

theorem greedySkipRow_fills (k : ℕ) (decl : List SmtSort) (args : List Expr) :
    ∃ used, used.Sublist args ∧
      Places relName k decl used (greedySkipRow relName k decl args).1 := by
  induction decl generalizing k args with
  | nil => exact ⟨[], List.nil_sublist _, .nil⟩
  | cons s decl ih =>
    have hdrop := List.dropWhile_sublist (l := args)
      fun a => decide (a.sort ≠ s ∧ decl.head? ≠ some a.sort)
    rw [greedySkipRow]
    split
    next =>
      obtain ⟨used, hused, hfills⟩ := ih (k + 1) []
      exact ⟨used, hused.trans (List.nil_sublist _), .pad hfills⟩
    next a rest hrest =>
      rw [hrest] at hdrop
      split_ifs with ha
      · obtain ⟨used, hused, hfills⟩ := ih (k + 1) rest
        exact ⟨a :: used, (hused.cons_cons a).trans hdrop, .keep ha hfills⟩
      · obtain ⟨used, hused, hfills⟩ := ih (k + 1) (a :: rest)
        exact ⟨used, hused.trans hdrop, .pad hfills⟩

theorem skipArgs_sublist {s : SmtSort} : (skipArgs s decl args).Sublist args := by
  induction args with
  | nil => exact .slnil
  | cons a args ih =>
    rw [skipArgs]
    split_ifs
    · exact List.Sublist.refl _
    · exact ih.cons a
    · exact List.Sublist.refl _

theorem cheapestRow_fills (k : ℕ) (decl : List SmtSort) (args : List Expr) :
    ∃ used, used.Sublist args ∧
      Places relName k decl used (cheapestRow relName k decl args).1 := by
  induction decl generalizing k args with
  | nil => exact ⟨[], List.nil_sublist _, .nil⟩
  | cons s decl ih =>
    have hskip : (skipArgs s decl args).Sublist args := skipArgs_sublist
    rw [cheapestRow]
    split
    next =>
      obtain ⟨used, hused, hfills⟩ := ih (k + 1) []
      exact ⟨used, hused.trans (List.nil_sublist _), .pad hfills⟩
    next a rest hrest =>
      rw [hrest] at hskip
      split_ifs with ha
      · obtain ⟨used, hused, hfills⟩ := ih (k + 1) rest
        exact ⟨a :: used, (hused.cons_cons a).trans hskip, .keep ha.1 hfills⟩
      · obtain ⟨used, hused, hfills⟩ := ih (k + 1) (a :: rest)
        exact ⟨used, hused.trans hskip, .pad hfills⟩

theorem acceptSkips_of_some {row : List Expr × ℕ × ℕ} {padded : Bool}
    (h : acceptSkips args decl row = some (out, padded)) : row.1 = out := by
  obtain ⟨row, matched, pads⟩ := row
  rw [acceptSkips] at h
  split_ifs at h
  exact congrArg Prod.fst (Option.some.inj h)

theorem alignSkips_of_some {padded : Bool}
    (h : alignArgsToDeclSortsWithSkipsAndPadding relName args decl = some (out, padded)) :
    ∃ used, used.Sublist args ∧ Places relName 0 decl used out := by
  rcases Option.or_eq_some_iff.1 h with h | ⟨-, h⟩
  · obtain rfl := acceptSkips_of_some h
    exact greedySkipRow_fills 0 decl args
  · obtain rfl := acceptSkips_of_some h
    exact cheapestRow_fills 0 decl args

/-! ### One application -/

section Repair

variable {showSort : SmtSort → String} {relations : List RelationDecl}
  {templates : String → List (List Expr)}

theorem sorts_mapIdx (f : ℕ → SmtSort → Expr) (hf : ∀ i s, (f i s).sort = s)
    (sorts : List SmtSort) : (sorts.mapIdx f).map Expr.sort = sorts := by
  refine List.ext_getElem? fun i => ?_
  rw [List.getElem?_map, List.getElem?_mapIdx, Option.map_map,
    show Expr.sort ∘ f i = id from funext (hf i), Option.map_id_fun, id_eq]

variable (showSort relName args decl) in
/-- Arguments that no alignment places get pads in front, if that gives them the declared sorts,
or at the end. -/
theorem padEnds_cases :
    argSortsMatchDecl (padEnds showSort relName args decl) decl = true ∨
      padEnds showSort relName args decl = args ++ (decl.drop args.length).mapIdx fun i =>
        taggedPadVar showSort relName (args.length + i) := by
  rw [padEnds]
  split_ifs with h
  · left
    simp only [Bool.and_eq_true, beq_iff_eq] at h
    rw [argSortsMatchDecl, beq_iff_eq, List.map_append, sorts_mapIdx _ fun _ _ => rfl, h.1,
      List.take_append_drop]
  · exact Or.inr rfl

variable (showSort relName) in
theorem length_padEnds (hlen : args.length < decl.length) :
    (padEnds showSort relName args decl).length = decl.length := by
  rcases padEnds_cases relName args decl showSort with h | h
  · exact length_of_argSortsMatchDecl h
  · rw [h, List.length_append, List.length_mapIdx, List.length_drop]
    omega

theorem mem_padEnds {e : Expr} (he : e ∈ padEnds showSort relName args decl) :
    e ∈ args ∨ ∃ i s, decl[i]? = some s ∧ e = taggedPadVar showSort relName i s := by
  rw [padEnds] at he
  split_ifs at he
  · rcases List.mem_append.1 he with h | h
    · obtain ⟨i, hi, rfl⟩ := List.mem_mapIdx.1 h
      have hlt : i < decl.length := (List.length_take_le' _ _).trans_lt' hi
      exact Or.inr ⟨i, decl[i], List.getElem?_eq_getElem hlt, by rw [List.getElem_take]⟩
    · exact Or.inl h
  · rcases List.mem_append.1 he with h | h
    · exact Or.inl h
    · obtain ⟨i, hi, rfl⟩ := List.mem_mapIdx.1 h
      refine Or.inr ⟨args.length + i, _, ?_, rfl⟩
      rw [← List.getElem?_drop, List.getElem?_eq_getElem hi]

variable (showSort templates) in
theorem normalizedRelationArgs_of_conforms (h : argSortsMatchDecl args decl = true)
    (hdecl : relSorts relations relName = some decl) :
    normalizedRelationArgs showSort relations templates relName args = none := by
  rw [normalizedRelationArgs, hdecl, Option.bind_eq_bind, Option.bind_some,
    if_pos (length_of_argSortsMatchDecl h), if_pos h]

variable (showSort templates) in
theorem normalizedRelationArgs_of_lt (h : args.length < decl.length)
    (hdecl : relSorts relations relName = some decl) :
    normalizedRelationArgs showSort relations templates relName args =
      some (((((templates relName).findSome? (alignArgsToTemplate relName args decl)).or
        (alignArgsToDeclSortsWithPadding relName args decl)).getD
          (padEnds showSort relName args decl)), true) := by
  rw [normalizedRelationArgs, hdecl, Option.bind_eq_bind, Option.bind_some, if_neg (by omega),
    if_neg (by omega)]

variable (showSort templates args) in
/-- **What the repair does** to the arguments of a declared relation: nothing, whatever the full
applications are; an alignment of some of them; or pads at one end. -/
theorem normalizedRelationArgs_cases (hdecl : relSorts relations relName = some decl) :
    (∀ templates', decl.length ≤ args.length ∧
        normalizedRelationArgs showSort relations templates' relName args = none) ∨
      (∃ out padded, normalizedRelationArgs showSort relations templates relName args =
          some (out, padded) ∧ ∃ used, used.Sublist args ∧ Places relName 0 decl used out) ∨
      (args.length < decl.length ∧
        alignArgsToDeclSortsWithPadding relName args decl = none ∧
        normalizedRelationArgs showSort relations templates relName args =
          some (padEnds showSort relName args decl, true)) := by
  rcases lt_trichotomy args.length decl.length with hlen | hlen | hlen
  · rw [normalizedRelationArgs_of_lt _ _ hlen hdecl]
    cases htemplate : (templates relName).findSome? (alignArgsToTemplate relName args decl) with
    | some out =>
      obtain ⟨template, -, h⟩ := List.exists_of_findSome?_eq_some htemplate
      obtain ⟨hconf, hplaces⟩ := alignTemplate_of_some h
      exact Or.inr (Or.inl ⟨out, true, rfl, args, .refl _, places_of_placesAs hconf hplaces⟩)
    | none =>
      cases hpad : alignArgsToDeclSortsWithPadding relName args decl with
      | some out => exact Or.inr (Or.inl ⟨out, true, rfl, alignPad_of_some hpad⟩)
      | none => exact Or.inr (Or.inr ⟨hlen, rfl, rfl⟩)
  · have hnorm : ∀ templates',
        normalizedRelationArgs showSort relations templates' relName args =
          if argSortsMatchDecl args decl then none
          else (alignArgsToDeclSortsWithPadding relName args decl).map (·, true) := by
      intro templates'
      rw [normalizedRelationArgs, hdecl, Option.bind_eq_bind, Option.bind_some, if_pos hlen]
    by_cases hconf : argSortsMatchDecl args decl = true
    · exact Or.inl fun templates' => ⟨hlen.ge, normalizedRelationArgs_of_conforms _ _ hconf hdecl⟩
    · cases hpad : alignArgsToDeclSortsWithPadding relName args decl with
      | none => exact Or.inl fun templates' => ⟨hlen.ge, by rw [hnorm, if_neg hconf, hpad]; rfl⟩
      | some out =>
        refine Or.inr (Or.inl ⟨out, true, ?_, alignPad_of_some hpad⟩)
        rw [hnorm, if_neg hconf, hpad, Option.map_some]
  · have hnorm : ∀ templates',
        normalizedRelationArgs showSort relations templates' relName args =
          ((trimRelationArgsToDecl (templates' relName) args decl).map (·, false)).or
            (alignArgsToDeclSortsWithSkipsAndPadding relName args decl) := by
      intro templates'
      rw [normalizedRelationArgs, hdecl, Option.bind_eq_bind, Option.bind_some,
        if_neg hlen.ne', if_pos hlen]
    cases htrim : trimRelationArgsToDecl (templates relName) args decl with
    | some out =>
      obtain ⟨hsub, hconf⟩ := trim_of_some htrim
      refine Or.inr (Or.inl ⟨out, false, ?_, out, hsub, ?_⟩)
      · rw [hnorm, htrim]
        rfl
      · exact .self (argSortsMatchDecl_iff.1 hconf)
    | none =>
      cases hskips : alignArgsToDeclSortsWithSkipsAndPadding relName args decl with
      | some result =>
        obtain ⟨out, padded⟩ := result
        refine Or.inr (Or.inl ⟨out, padded, ?_, alignSkips_of_some hskips⟩)
        rw [hnorm, htrim, hskips]
        rfl
      | none =>
        refine Or.inl fun templates' => ⟨hlen.le, ?_⟩
        rw [hnorm, trim_eq_none_congr htrim, hskips]
        rfl

/-- What is normalized needs no repair, whatever the full applications are. -/
theorem normalizedRelationArgs_normalizeArgs (templates' : String → List (List Expr)) :
    normalizedRelationArgs showSort relations templates' relName
      (normalizeArgs showSort relations templates relName args).1 = none := by
  rw [normalizeArgs]
  cases hdecl : relSorts relations relName with
  | none =>
    simp [normalizedRelationArgs, hdecl]
  | some decl =>
    rcases normalizedRelationArgs_cases args showSort templates hdecl with
      h | ⟨out, padded, h, used, -, hplaces⟩ | ⟨hlen, hpad, h⟩
    · rw [(h templates).2]
      exact (h templates').2
    · rw [h]
      exact normalizedRelationArgs_of_conforms _ _ (conforms_of_places hplaces) hdecl
    · rw [h]
      change normalizedRelationArgs _ _ _ _ (padEnds showSort relName args decl) = none
      rcases padEnds_cases relName args decl showSort with hconf | hends
      · exact normalizedRelationArgs_of_conforms _ _ hconf hdecl
      · have hlen' := length_padEnds relName showSort hlen
        rw [normalizedRelationArgs, hdecl, Option.bind_eq_bind, Option.bind_some, if_pos hlen']
        rw [hends, alignPad_append hlen hpad]
        split_ifs <;> rfl

/-- The repair puts in nothing but pads, of the sorts declared for their slots. -/
theorem mem_normalizeArgs {e : Expr}
    (he : e ∈ (normalizeArgs showSort relations templates relName args).1) :
    e ∈ args ∨ ∃ decl i s, relSorts relations relName = some decl ∧ decl[i]? = some s ∧
      (e = padVar relName i s ∨ e = taggedPadVar showSort relName i s) := by
  rw [normalizeArgs] at he
  cases hdecl : relSorts relations relName with
  | none =>
    left
    simpa [normalizedRelationArgs, hdecl] using he
  | some decl =>
    rcases normalizedRelationArgs_cases args showSort templates hdecl with
      h | ⟨out, padded, h, used, hsub, hplaces⟩ | ⟨-, -, h⟩
    · rw [(h templates).2] at he
      exact Or.inl he
    · rw [h] at he
      refine (mem_of_places hplaces he).imp (hsub.subset ·) ?_
      rintro ⟨i, s, hs, hpad⟩
      exact ⟨decl, i, s, rfl, hs, Or.inl hpad⟩
    · rw [h] at he
      refine (mem_padEnds he).imp_right ?_
      rintro ⟨i, s, hs, hpad⟩
      exact ⟨decl, i, s, rfl, hs, Or.inr hpad⟩

end Repair

/-! ### The whole pass -/

/-- The application occurs in a rule and has the declared sorts. -/
def FullApp (vc : ChcVc) (name : String) (decl : List SmtSort) (args : List Expr) : Prop :=
  (∃ rule ∈ vc.rules, (name, args) ∈ ruleApps rule) ∧ argSortsMatchDecl args decl = true

/-- What the repair does to the arguments of an application. -/
structure RepairedArgs (showSort : SmtSort → String) (vc : ChcVc) (name : String)
    (args args' : List Expr) : Prop where
  /-- The arguments of an undeclared relation stay. -/
  undeclared : relSorts vc.relations name = none → args' = args
  /-- Arguments of the declared sorts stay. -/
  conforming : ∀ decl, relSorts vc.relations name = some decl →
    argSortsMatchDecl args decl = true → args' = args
  /-- Too few arguments become as many as declared. -/
  arity : ∀ decl, relSorts vc.relations name = some decl → args.length < decl.length →
    args'.length = decl.length
  /-- They get the declared sorts, or pads of the declared sorts at the end. -/
  sorts : ∀ decl, relSorts vc.relations name = some decl → args.length < decl.length →
    argSortsMatchDecl args' decl = true ∨
      args' = args ++ (decl.drop args.length).mapIdx fun i =>
        taggedPadVar showSort name (args.length + i)
  /-- Arguments whose sorts are a subsequence of the declared ones stand in slots of their sorts,
  and every other slot holds its pad. -/
  places : ∀ decl, relSorts vc.relations name = some decl →
    Fit (fun (a : Expr) s => a.sort = s) args decl → Places name 0 decl args args'
  /-- Arguments that are a subsequence of a full application stand as in a full application, and
  every other slot holds its pad. -/
  placesAs : ∀ decl template, relSorts vc.relations name = some decl →
    FullApp vc name decl template → args.Sublist template →
      ∃ template', FullApp vc name decl template' ∧ PlacesAs name template' decl args args'

/-- The applications inside a term are repaired, inner ones first, and nothing else changes. -/
inductive RepairedExpr (showSort : SmtSort → String) (vc : ChcVc) : Expr → Expr → Prop
  | var {n : String} {s : SmtSort} : RepairedExpr showSort vc (.var n s) (.var n s)
  | app {op : Op} {args args' : List Expr} (hop : ∀ name s, op ≠ .funcApp name s)
      (h : List.Forall₂ (RepairedExpr showSort vc) args args') :
      RepairedExpr showSort vc (.app op args) (.app op args')
  | rel {name : String} {s : SmtSort} {args mid args' : List Expr}
      (h : List.Forall₂ (RepairedExpr showSort vc) args mid)
      (hrel : RepairedArgs showSort vc name mid args') :
      RepairedExpr showSort vc (.app (.funcApp name s) args) (.app (.funcApp name s) args')
  | quant {q : Quantifier} {vs : List (String × SmtSort)} {b b' : Expr}
      (h : RepairedExpr showSort vc b b') :
      RepairedExpr showSort vc (.quant q vs b) (.quant q vs b')

/-- The applications of a rule are repaired, and nothing else changes. -/
structure RepairedRule (showSort : SmtSort → String) (vc : ChcVc) (r r' : Rule) : Prop where
  /-- The head is of the same relation. -/
  headName : r'.head.name = r.head.name
  /-- The head is repaired. -/
  head : RepairedArgs showSort vc r.head.name r.head.args r'.head.args
  /-- The body application is repaired. -/
  body : Option.Rel (fun a a' => a'.name = a.name ∧ RepairedArgs showSort vc a.name a.args a'.args)
    r.body.relation r'.body.relation
  /-- The constraints are repaired. -/
  constraints : List.Forall₂ (RepairedExpr showSort vc) r.body.constraints r'.body.constraints

section Spec

variable {showSort : SmtSort → String} {vc : ChcVc}

theorem mem_collectFullRelationTemplates {name : String} {decl : List SmtSort}
    {template : List Expr} (hdecl : relSorts vc.relations name = some decl) :
    template ∈ collectFullRelationTemplates vc name ↔ FullApp vc name decl template := by
  rw [collectFullRelationTemplates, List.mem_eraseDups]
  simp only [List.mem_map, List.mem_filter, List.mem_flatMap, Bool.and_eq_true, beq_iff_eq,
    Prod.exists, FullApp]
  constructor
  · rintro ⟨n, T, ⟨⟨rule, hrule, happ⟩, rfl, hconf⟩, rfl⟩
    rw [hdecl] at hconf
    exact ⟨⟨rule, hrule, happ⟩, hconf⟩
  · rintro ⟨⟨rule, hrule, happ⟩, hconf⟩
    refine ⟨name, template, ⟨⟨rule, hrule, happ⟩, rfl, ?_⟩, rfl⟩
    rw [hdecl]
    exact hconf

theorem forall₂_zip_left {args : List Expr} {decl : List SmtSort}
    (h : List.Forall₂ (fun a s => a.sort = s) args decl) :
    List.Forall₂ (fun a (p : Expr × SmtSort) => a = p.1) args (args.zip decl) := by
  induction h with
  | nil => exact .nil
  | cons _ _ ih => exact .cons rfl ih

/-- An application that a full one contains is aligned by a full one. -/
theorem placesAs_normalizeArgs {name : String} {decl : List SmtSort} {args template : List Expr}
    (hdecl : relSorts vc.relations name = some decl) (hfull : FullApp vc name decl template)
    (hsub : args.Sublist template) :
    ∃ template', FullApp vc name decl template' ∧ PlacesAs name template' decl args
      (normalizeArgs showSort vc.relations (collectFullRelationTemplates vc) name args).1 := by
  have hlen := length_of_argSortsMatchDecl hfull.2
  rcases hsub.length_le.lt_or_eq with hlt | heq
  · rw [normalizeArgs, normalizedRelationArgs_of_lt _ _ (hlen ▸ hlt) hdecl]
    cases hfound : (collectFullRelationTemplates vc name).findSome?
        (alignArgsToTemplate name args decl) with
    | none =>
      rw [List.findSome?_eq_none_iff] at hfound
      exact absurd (hfound template ((mem_collectFullRelationTemplates hdecl).2 hfull))
        (alignTemplate_of_sublist hfull.2 hsub)
    | some out =>
      obtain ⟨template', hmem, halign⟩ := List.exists_of_findSome?_eq_some hfound
      exact ⟨template', (mem_collectFullRelationTemplates hdecl).1 hmem,
        (alignTemplate_of_some halign).2⟩
  · obtain rfl := hsub.eq_of_length heq
    refine ⟨args, hfull, ?_⟩
    rw [normalizeArgs, normalizedRelationArgs_of_conforms _ _ hfull.2 hdecl]
    exact .self (forall₂_zip_left (argSortsMatchDecl_iff.1 hfull.2))

theorem repairedArgs_normalizeArgs (name : String) (args : List Expr) :
    RepairedArgs showSort vc name args
      (normalizeArgs showSort vc.relations (collectFullRelationTemplates vc) name args).1 where
  undeclared hdecl := by
    simp [normalizeArgs, normalizedRelationArgs, hdecl]
  conforming decl hdecl hconf := by
    rw [normalizeArgs, normalizedRelationArgs_of_conforms _ _ hconf hdecl]
    rfl
  arity decl hdecl hlen := by
    rcases normalizedRelationArgs_cases args showSort (collectFullRelationTemplates vc) hdecl with
      h | ⟨out, padded, h, used, -, hplaces⟩ | ⟨-, -, h⟩
    · exact absurd (h fun _ => []).1 (by omega)
    · rw [normalizeArgs, h]
      exact hplaces.length_eq
    · rw [normalizeArgs, h]
      exact length_padEnds _ _ hlen
  sorts decl hdecl hlen := by
    rcases normalizedRelationArgs_cases args showSort (collectFullRelationTemplates vc) hdecl with
      h | ⟨out, padded, h, used, -, hplaces⟩ | ⟨-, -, h⟩
    · exact absurd (h fun _ => []).1 (by omega)
    · rw [normalizeArgs, h]
      exact Or.inl (conforms_of_places hplaces)
    · rw [normalizeArgs, h]
      exact padEnds_cases _ _ _ _
  places decl hdecl hfit := by
    rcases (fit_length_le hfit).lt_or_eq with hlen | hlen
    · rw [normalizeArgs, normalizedRelationArgs_of_lt _ _ hlen hdecl]
      cases hfound : (collectFullRelationTemplates vc name).findSome?
          (alignArgsToTemplate name args decl) with
      | some out =>
        obtain ⟨template, -, halign⟩ := List.exists_of_findSome?_eq_some hfound
        exact places_of_placesAs (alignTemplate_of_some halign).1 (alignTemplate_of_some halign).2
      | none =>
        obtain ⟨out, hout, hplaces⟩ := alignPad_of_fit hlen hfit
        rw [hout]
        exact hplaces
    · have hall := forall₂_of_fit hfit hlen.ge
      rw [normalizeArgs,
        normalizedRelationArgs_of_conforms _ _ (argSortsMatchDecl_iff.2 hall) hdecl]
      exact .self hall
  placesAs decl template hdecl hfull hsub := placesAs_normalizeArgs hdecl hfull hsub

theorem padRelationExprsList_eq_map {relations : List RelationDecl}
    {templates : String → List (List Expr)} (es : List Expr) :
    (padRelationExprsList showSort relations templates es).1 =
      es.map fun e => (padRelationExprs showSort relations templates e).1 := by
  induction es with
  | nil => rw [padRelationExprsList, List.map_nil]
  | cons e es ih =>
    rw [padRelationExprsList, List.map_cons]
    exact congrArg (_ :: ·) ih

theorem repairedExpr_padRelationExprs (e : Expr) :
    RepairedExpr showSort vc e
      (padRelationExprs showSort vc.relations (collectFullRelationTemplates vc) e).1 := by
  induction e with
  | var n s =>
    rw [padRelationExprs]
    exact .var
  | app op args ih =>
    have hargs := List.forall₂_map_right_iff.2 (List.forall₂_same.2 ih)
    rw [← padRelationExprsList_eq_map] at hargs
    rw [padRelationExprs.eq_def]
    dsimp only
    split
    next name s => exact .rel hargs (repairedArgs_normalizeArgs name _)
    next hop => exact .app hop hargs
  | quant q vs b ih =>
    rw [padRelationExprs]
    exact .quant ih

theorem repairedRule_fixRule (r : Rule) :
    RepairedRule showSort vc r
      (fixRule showSort vc.relations (collectFullRelationTemplates vc) r).1 := by
  have hconstraints : List.Forall₂ (RepairedExpr showSort vc) r.body.constraints
      (padRelationExprsList showSort vc.relations (collectFullRelationTemplates vc)
        r.body.constraints).1 := by
    rw [padRelationExprsList_eq_map]
    refine List.forall₂_map_right_iff.2 (List.forall₂_same.2 fun c _ => ?_)
    exact repairedExpr_padRelationExprs c
  have hhead : RepairedArgs showSort vc r.head.name r.head.args _ :=
    repairedArgs_normalizeArgs r.head.name r.head.args
  obtain ⟨⟨relation, cs⟩, head⟩ := r
  cases relation with
  | none => exact ⟨rfl, hhead, .none, hconstraints⟩
  | some a =>
    exact ⟨rfl, hhead, .some ⟨rfl, repairedArgs_normalizeArgs a.name a.args⟩, hconstraints⟩

/-! ### The second time -/

section Again

variable {relations : List RelationDecl} {templates templates' : String → List (List Expr)}

theorem normalizeArgs_normalizeArgs (name : String) (args : List Expr) :
    normalizeArgs showSort relations templates' name
        (normalizeArgs showSort relations templates name args).1 =
      ((normalizeArgs showSort relations templates name args).1, false) := by
  rw [normalizeArgs.eq_def showSort relations templates', normalizedRelationArgs_normalizeArgs]
  rfl

theorem padRelationExprsList_of_forall {es : List Expr}
    (h : ∀ e ∈ es, padRelationExprs showSort relations templates e = (e, false)) :
    padRelationExprsList showSort relations templates es = (es, false) := by
  induction es with
  | nil => rw [padRelationExprsList]
  | cons e es ih =>
    rw [padRelationExprsList, h e List.mem_cons_self,
      ih fun e he => h e (List.mem_cons_of_mem _ he)]
    rfl

/-- A repaired term needs no repair: the arguments of its applications are repaired terms or
pads. -/
theorem padRelationExprs_padRelationExprs (e : Expr) :
    padRelationExprs showSort relations templates'
        (padRelationExprs showSort relations templates e).1 =
      ((padRelationExprs showSort relations templates e).1, false) := by
  induction e with
  | var n s =>
    rw [padRelationExprs]
    change padRelationExprs showSort relations templates' (.var n s) = _
    rw [padRelationExprs]
  | app op args ih =>
    have hargs : ∀ e ∈ (padRelationExprsList showSort relations templates args).1,
        padRelationExprs showSort relations templates' e = (e, false) := by
      intro e he
      rw [padRelationExprsList_eq_map] at he
      obtain ⟨a, ha, rfl⟩ := List.mem_map.1 he
      exact ih a ha
    rw [padRelationExprs.eq_def showSort relations templates]
    dsimp only
    split
    next name s =>
      have hnorm : ∀ e ∈ (normalizeArgs showSort relations templates name
          (padRelationExprsList showSort relations templates args).1).1,
            padRelationExprs showSort relations templates' e = (e, false) := by
        intro e he
        rcases mem_normalizeArgs he with h | ⟨decl, i, s, -, -, rfl | rfl⟩
        · exact hargs e h
        · rw [padVar, padRelationExprs]
        · rw [taggedPadVar, padRelationExprs]
      dsimp only
      rw [padRelationExprs, padRelationExprsList_of_forall hnorm]
      dsimp only
      rw [normalizeArgs_normalizeArgs]
      rfl
    next hop =>
      dsimp only
      rw [padRelationExprs, padRelationExprsList_of_forall hargs]
      dsimp only
      split
      next name s => exact absurd rfl (hop name s)
      next => rfl
  | quant q vs b ih =>
    rw [padRelationExprs]
    dsimp only
    rw [padRelationExprs, ih]

theorem fixRule_fixRule (r : Rule) :
    fixRule showSort relations templates' (fixRule showSort relations templates r).1 =
      ((fixRule showSort relations templates r).1, false) := by
  have hconstraints : padRelationExprsList showSort relations templates'
      (padRelationExprsList showSort relations templates r.body.constraints).1 =
        ((padRelationExprsList showSort relations templates r.body.constraints).1, false) := by
    refine padRelationExprsList_of_forall fun e he => ?_
    rw [padRelationExprsList_eq_map] at he
    obtain ⟨c, -, rfl⟩ := List.mem_map.1 he
    exact padRelationExprs_padRelationExprs c
  obtain ⟨⟨relation, cs⟩, head⟩ := r
  cases relation with
  | none =>
    simp only [fixRule, fixApp, normalizeArgs_normalizeArgs] at hconstraints ⊢
    rw [hconstraints]
    rfl
  | some a =>
    simp only [fixRule, fixApp, normalizeArgs_normalizeArgs] at hconstraints ⊢
    rw [hconstraints]
    rfl
end Again

/-- The rules after the repair, and when declarations are added. -/
theorem fixup_eq : fixupRelationAppArities showSort vc =
    let fixed := vc.rules.map (fixRule showSort vc.relations (collectFullRelationTemplates vc))
    if fixed.any Prod.snd then declareUsed isPadName { vc with rules := fixed.map Prod.fst }
    else { vc with rules := fixed.map Prod.fst } :=
  rfl

variable (showSort vc) in
theorem fixup_rules :
    (fixupRelationAppArities showSort vc).rules = vc.rules.map (fun r =>
        (fixRule showSort vc.relations (collectFullRelationTemplates vc) r).1) ∧
      (fixupRelationAppArities showSort vc).relations = vc.relations := by
  rw [fixup_eq]
  dsimp only
  split_ifs
  · rw [(declareUsed_rules _ _).1, (declareUsed_rules _ _).2, List.map_map]
    exact ⟨rfl, rfl⟩
  · rw [List.map_map]
    exact ⟨rfl, rfl⟩

/-- **The arity repair**: what it does to the applications of every rule; relations stay as they
are, and a second repair changes nothing. -/
theorem fixup_spec (showSort : SmtSort → String) (vc : ChcVc) :
    (fixupRelationAppArities showSort vc).relations = vc.relations ∧
      List.Forall₂ (RepairedRule showSort vc) vc.rules
        (fixupRelationAppArities showSort vc).rules ∧
      fixupRelationAppArities showSort (fixupRelationAppArities showSort vc) =
        fixupRelationAppArities showSort vc := by
  obtain ⟨hrules, hrelations⟩ := fixup_rules showSort vc
  refine ⟨hrelations, ?_, ?_⟩
  · rw [hrules]
    exact List.forall₂_map_right_iff.2 (List.forall₂_same.2 fun r _ => repairedRule_fixRule r)
  · have hagain : ∀ templates', (fixupRelationAppArities showSort vc).rules.map
        (fixRule showSort vc.relations templates') =
          (fixupRelationAppArities showSort vc).rules.map fun r => (r, false) := by
      intro templates'
      rw [hrules]
      refine List.map_congr_left fun r hr => ?_
      obtain ⟨r, -, rfl⟩ := List.mem_map.1 hr
      exact fixRule_fixRule r
    rw [fixup_eq, hrelations, hagain, ← hrelations]
    simp [Function.comp_def]

/-! ### Where more was claimed -/

/-- One argument whose sort no slot has: the application gets the declared arity, not the
declared sorts. -/
def misfitVc : ChcVc :=
  { vars := [("x", .bitvec 8)]
    relations := [⟨"bb1", [.bool, .bool]⟩]
    rules := [⟨⟨none, []⟩, ⟨"bb1", [.var "x" (.bitvec 8)]⟩⟩]
    target := none
    triviallySafeDischarged := false }

/-- An argument that is named like the pad of the slot after it: the repaired application has
this variable twice. -/
def takenPadVc : ChcVc :=
  { vars := [("x", .bool), ("__pad_bb1_2", .bool)]
    relations := [⟨"bb1", [.bool, .bool, .bool]⟩]
    rules := [⟨⟨none, []⟩, ⟨"bb1", [.var "x" .bool, .var "__pad_bb1_2" .bool]⟩⟩]
    target := none
    triviallySafeDischarged := false }

/-- A repaired application may lack the declared sorts, and its pads need not be fresh. -/
theorem fixup_misfits :
    (fixupRelationAppArities (fun _ => "Bool") misfitVc).rules.map (·.head.args) =
        [[.var "x" (.bitvec 8), .var "__pad_bb1_1_Bool" .bool]] ∧
      argSortsMatchDecl [.var "x" (.bitvec 8), .var "__pad_bb1_1_Bool" .bool] [.bool, .bool] =
        false ∧
      (fixupRelationAppArities (fun _ => "Bool") takenPadVc).rules.map (·.head.args) =
        [[.var "x" .bool, .var "__pad_bb1_2" .bool, .var "__pad_bb1_2" .bool]] := by
  decide +kernel

end Spec

end Relations

end TrustMc
