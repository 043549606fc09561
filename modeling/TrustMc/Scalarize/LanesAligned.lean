import TrustMc.Scalarize.Pass

/-!
# Scalarization and the shape of the relations

The lanes of an array are put for the arguments of applications by the **name** of the argument,
in every column, and the declaration of a relation is rebuilt from its first application. The
columns of a relation stay aligned exactly if all its applications come to the same sorts
(`SameLanes`), which the plan does not ensure: in a column where the applications name different
arrays, each argument becomes the lanes of the array that it names
(`scalarizeVc_misaligns`).

Every phase before the lanes are carried has its own condition, which is exact for the phase;
carrying lanes and pruning scalars keep applications and declarations aligned.
-/

namespace TrustMc

namespace Scalarize

open ConstProp DeadScalars

/-- The applications of all rules. -/
def allApps (vc : ChcVc) : List RelationApp := vc.rules.flatMap Rule.apps

/-- Every application is of a declared relation. -/
def Declared (vc : ChcVc) : Prop := ∀ a ∈ allApps vc, ∃ d ∈ vc.relations, d.name = a.name

theorem aligned_iff {vc : ChcVc} :
    vc.Aligned ↔ ∀ a ∈ allApps vc, Conforms vc.relations a := by
  simp only [ChcVc.Aligned, allApps, List.mem_flatMap]
  exact ⟨fun h a ⟨r, hr, ha⟩ => h r hr a ha, fun h r hr a ha => h a ⟨r, hr, ha⟩⟩

theorem declared_of_aligned {vc : ChcVc} (h : vc.Aligned) : Declared vc :=
  fun a ha => (aligned_iff.1 h a ha).1

/-- An application in the place of one that conforms. -/
theorem conforms_congr_iff {relations : List RelationDecl} {a a' : RelationApp}
    (h : Conforms relations a) (hname : a'.name = a.name) :
    Conforms relations a' ↔ rowSorts a' = rowSorts a := by
  obtain ⟨⟨d, hd, hda⟩, hsorts⟩ := h
  constructor
  · intro h'
    rw [rowSorts, rowSorts, h'.2 d hd (hda.trans hname.symm), hsorts d hd hda]
  · intro hrow
    refine ⟨⟨d, hd, hda.trans hname.symm⟩, fun d' hd' hname' => ?_⟩
    rw [← hsorts d' hd' (hname'.trans hname)]
    exact hrow

/-! ### Aliases -/

section Aliases

/-- What the collapse of aliases does to the applications of a rule: it keeps their names. -/
theorem exists_apps_collapseLoop (n : ℕ) (r : Rule) :
    ∃ f : RelationApp → RelationApp, (∀ a, (f a).name = a.name) ∧
      (collapseLoop n r).apps = r.apps.map f := by
  induction n generalizing r with
  | zero => exact ⟨id, fun _ => rfl, (List.map_id _).symm⟩
  | succ n ih =>
    rw [collapseLoop]
    split
    · exact ⟨id, fun _ => rfl, (List.map_id _).symm⟩
    · rename_i mid root _
      obtain ⟨f, hname, hf⟩ := ih (collapseStep mid root r)
      refine ⟨f ∘ substituteInApp mid root, fun a => hname _, ?_⟩
      rw [hf, ← List.map_map]
      refine congrArg (List.map f) ?_
      rw [Rule.apps, Rule.apps, collapseStep]
      cases r.body.relation <;> rfl

theorem exists_apps_collapseRule (r : Rule) :
    ∃ f : RelationApp → RelationApp, (∀ a, (f a).name = a.name) ∧
      (collapseRule r).apps = r.apps.map f := by
  rw [collapseRule]
  split_ifs
  · exact ⟨id, fun _ => rfl, (List.map_id _).symm⟩
  · exact exists_apps_collapseLoop _ _

/-- In applications, aliases have the sorts of what replaces them. -/
def AliasesKeepSorts (vc : ChcVc) : Prop :=
  ∀ r ∈ vc.rules, (collapseRule r).apps.map rowSorts = r.apps.map rowSorts

instance (vc : ChcVc) : Decidable (AliasesKeepSorts vc) :=
  inferInstanceAs (Decidable (∀ _ ∈ _, _))

theorem aligned_simplifiedVc_iff {vc : ChcVc} (h : vc.Aligned) :
    (simplifiedVc vc).Aligned ↔ AliasesKeepSorts vc := by
  have hrules : (simplifiedVc vc).Aligned ↔
      ∀ r ∈ vc.rules, ∀ a ∈ (collapseRule r).apps, Conforms vc.relations a := by
    rw [ChcVc.Aligned, simplifiedVc, simplifyStoreSelectChainsInVc, collapseMidAliases,
      List.forall_mem_map, List.forall_mem_map]
    exact Iff.rfl
  rw [hrules]
  refine forall₂_congr fun r hr => ?_
  obtain ⟨f, hname, hf⟩ := exists_apps_collapseRule r
  rw [hf, List.map_map, List.forall_mem_map, List.map_inj_left]
  exact forall₂_congr fun a ha => conforms_congr_iff (h r hr a ha) (hname a)

theorem declared_simplifiedVc {vc : ChcVc} (h : vc.Aligned) : Declared (simplifiedVc vc) := by
  intro a ha
  obtain ⟨r', hr', ha⟩ := List.mem_flatMap.1 ha
  obtain ⟨r₁, hr₁, rfl⟩ := List.mem_map.1 hr'
  obtain ⟨r, hr, rfl⟩ := List.mem_map.1 hr₁
  obtain ⟨f, hname, hf⟩ := exists_apps_collapseRule r
  have ha' : a ∈ r.apps.map f := hf ▸ ha
  obtain ⟨b, hb, rfl⟩ := List.mem_map.1 ha'
  obtain ⟨d, hd, hdb⟩ := (h r hr b hb).1
  exact ⟨d, hd, hdb.trans (hname b).symm⟩

end Aliases

/-! ### Folded arrays -/

section Folded

variable (infos : List ConstFoldInfo)

/-- The sorts of the arguments that are left of an application. -/
def keptRow (app : RelationApp) : List SmtSort :=
  (app.args.filter (!isFoldedArg infos ·)).map Expr.sort

/-- What is left of an application has the sorts that are left of the head that declares its
relation, or the declared sorts without one. -/
def FitsKept (relations : List RelationDecl) (app : RelationApp) : Option RelationApp → Prop
  | some head => keptRow infos app = keptRow infos head
  | none => ∀ d ∈ relations, d.name = app.name → keptRow infos app = d.argSorts

instance (relations : List RelationDecl) (app : RelationApp) (declaring : Option RelationApp) :
    Decidable (FitsKept infos relations app declaring) :=
  match declaring with
  | some _ => inferInstanceAs (Decidable (_ = _))
  | none => inferInstanceAs (Decidable (∀ _ ∈ _, _ → _))

/-- What is left of the applications of a relation has one list of sorts, that of its first
head. -/
def FoldsAlike (vc : ChcVc) : Prop :=
  ∀ a ∈ allApps vc,
    FitsKept infos vc.relations a ((vc.rules.map Rule.head).find? (·.name == a.name))

instance (vc : ChcVc) : Decidable (FoldsAlike infos vc) :=
  inferInstanceAs (Decidable (∀ _ ∈ _, _))

variable {infos}

theorem allApps_foldArrays (vc : ChcVc) :
    allApps (foldArrays infos vc) = (allApps vc).map (removeFoldedArgs infos) := by
  rw [allApps, allApps, foldArrays, List.flatMap_map, List.map_flatMap]
  refine List.flatMap_congr fun r _ => ?_
  rw [Rule.apps, Rule.apps, foldRule]
  cases r.body.relation <;> rfl

/-- **Folding arrays** keeps the columns aligned exactly if the applications of a relation lose
the same columns as the head that declares it. -/
theorem aligned_foldArrays_iff {vc : ChcVc} (h : Declared vc) :
    (foldArrays infos vc).Aligned ↔ FoldsAlike infos vc := by
  have hheads : (foldArrays infos vc).relations =
      vc.relations.map (redeclare ((vc.rules.map Rule.head).map (removeFoldedArgs infos))) := by
    simp only [foldArrays, List.map_map]
    rfl
  rw [aligned_iff, allApps_foldArrays, hheads, List.forall_mem_map, FoldsAlike]
  refine forall₂_congr fun a ha => ?_
  have hdecl : ∃ d ∈ vc.relations, d.name = (removeFoldedArgs infos a).name := h a ha
  rw [conforms_redeclare_iff hdecl, List.find?_map]
  have hcomp : ((fun app : RelationApp => app.name == (removeFoldedArgs infos a).name) ∘
      removeFoldedArgs infos) = fun app => app.name == a.name := rfl
  rw [hcomp]
  cases (vc.rules.map Rule.head).find? (·.name == a.name) <;> exact Iff.rfl

theorem declared_preparedVc {vc : ChcVc} (h : Declared (simplifiedVc vc)) :
    Declared (preparedVc vc) := by
  rw [preparedVc, applyConstFolding]
  split_ifs
  · exact h
  · intro a ha
    rw [allApps_foldArrays] at ha
    obtain ⟨b, hb, rfl⟩ := List.mem_map.1 ha
    obtain ⟨d, hd, hname⟩ := h b hb
    exact ⟨redeclare _ d, List.mem_map_of_mem hd, (name_redeclare _ d).trans hname⟩

end Folded

/-! ### Lanes -/

section Lanes

variable (infos : List ScalarInfo)

/-- The sorts of the arguments that replace one. -/
def argLaneSorts (planned : Option ScalarInfo) (arg : Expr) : List SmtSort :=
  match (asVarName arg).bind (scalarInfoForArrayVar infos) with
  | some (info, _) => List.replicate info.indexToScalar.length info.elemSort
  | none =>
    match planned with
    | some info =>
      List.replicate info.indexToScalar.length ((arg.sort.arraySort.map Prod.snd).getD .bool)
    | none => [arg.sort]

/-- The sorts that an application comes to. -/
def laneRow (vc : ChcVc) (app : RelationApp) : List SmtSort :=
  app.args.zipIdx.flatMap fun p =>
    argLaneSorts infos (scalarizePositionPlan infos vc app.name)[p.2]?.join p.1

/-- The applications of a relation come to the same sorts. -/
def SameLanes (vc : ChcVc) : Prop :=
  ∀ a ∈ allApps vc, ∀ b ∈ allApps vc, a.name = b.name → laneRow infos vc a = laneRow infos vc b

instance (vc : ChcVc) : Decidable (SameLanes infos vc) :=
  inferInstanceAs (Decidable (∀ _ ∈ _, ∀ _ ∈ _, _ → _))

/-- The condition with these arrays replaced by their lanes. -/
def rewriteArrays (vc : ChcVc) : ChcVc :=
  commitRewrite vc infos (stageRuleRewrites infos vc).1 (stageRuleRewrites infos vc).2

variable {infos}

theorem sorts_expandArg (planned : Option ScalarInfo) (arg : Expr) :
    (expandArg infos planned arg).map Expr.sort = argLaneSorts infos planned arg := by
  unfold expandArg argLaneSorts
  cases (asVarName arg).bind (scalarInfoForArrayVar infos) with
  | some p =>
    obtain ⟨info, isOutput⟩ := p
    dsimp only [ScalarInfo.laneVars]
    rw [List.map_map]
    exact List.map_const'
  | none =>
    cases planned with
    | none => rfl
    | some info =>
      have hsort : (Expr.sort ∘ fun lane : ConstIdx × String => arg.select lane.1.toExpr) =
          fun _ => (arg.sort.arraySort.map Prod.snd).getD .bool := by
        funext lane
        simp [Op.resultSort]
      dsimp only
      rw [List.map_map, hsort]
      exact List.map_const'

theorem rowSorts_expandRelationApp (vc : ChcVc) (app : RelationApp) :
    rowSorts (expandRelationApp infos (scalarizePositionPlan infos vc) app) =
      laneRow infos vc app := by
  rw [rowSorts, expandRelationApp, List.map_flatMap]
  exact List.flatMap_congr fun p _ => sorts_expandArg _ _

theorem apps_stageRules (plan : String → List (Option ScalarInfo)) (rules : List Rule)
    (ctx : RewriteContext) :
    (stageRules infos plan rules ctx).1.flatMap Rule.apps =
      (rules.flatMap Rule.apps).map (expandRelationApp infos plan) := by
  induction rules generalizing ctx with
  | nil => rfl
  | cons r rules ih =>
    have happs : (stageRule infos plan r ctx).1.apps =
        r.apps.map (expandRelationApp infos plan) := by
      rw [Rule.apps, Rule.apps, stageRule]
      cases r.body.relation <;> rfl
    rw [stageRules, List.flatMap_cons, List.flatMap_cons, List.map_append, ← happs, ← ih]

/-- **Replacing arrays by lanes**, whatever the arrays and lanes, keeps the columns aligned
exactly if the applications of a relation come to the same sorts. -/
theorem aligned_rewriteArrays_iff {vc : ChcVc} (h : Declared vc) :
    (rewriteArrays infos vc).Aligned ↔ SameLanes infos vc := by
  set plan := scalarizePositionPlan infos vc with hplan
  set expanded := (allApps vc).map (expandRelationApp infos plan) with hexpanded
  obtain ⟨hrules, hrelations⟩ := ChcVc.foldl_addVar
    (addedVars infos (stageRuleRewrites infos vc).2)
    { vc with
      rules := (stageRuleRewrites infos vc).1
      relations := vc.relations.map
        (redeclare ((stageRuleRewrites infos vc).1.flatMap Rule.apps)) }
  have happs : allApps (rewriteArrays infos vc) = expanded := by
    rw [allApps, rewriteArrays, commitRewrite, hrules]
    exact apps_stageRules _ _ _
  have hdecls : (rewriteArrays infos vc).relations =
      vc.relations.map (redeclare expanded) := by
    rw [rewriteArrays, commitRewrite, hrelations]
    exact congrArg (fun apps => vc.relations.map (redeclare apps)) (apps_stageRules _ _ _)
  have hdecl : ∀ a ∈ expanded, ∃ d ∈ vc.relations, d.name = a.name := List.forall_mem_map.2 h
  rw [aligned_iff, happs, hdecls, forall_conforms_redeclare_iff hdecl, hexpanded,
    List.forall_mem_map]
  refine forall₂_congr fun a _ => ?_
  rw [List.forall_mem_map]
  refine forall₂_congr fun b _ => ?_
  rw [hplan, rowSorts_expandRelationApp, rowSorts_expandRelationApp]
  exact Iff.rfl

end Lanes

/-! ### The pass -/

section Pass

/-- An application with its lanes conforms exactly if it did without. -/
theorem conforms_carry_iff {vc : ChcVc} {f : String × SmtSort → Expr} (hf : ∀ p, (f p).sort = p.2)
    (a : RelationApp) :
    Conforms (carryRhsScalarizedLanes vc).relations ⟨a.name, a.args ++ (lanesOf vc a.name).map f⟩ ↔
      Conforms vc.relations a := by
  have hlanes : ((lanesOf vc a.name).map f).map Expr.sort =
      (lanesOf vc a.name).map Prod.snd := by
    rw [List.map_map]
    exact List.map_congr_left fun p _ => hf p
  rw [Conforms, Conforms, carryRhsScalarizedLanes, List.forall_mem_map]
  refine and_congr ?_ (forall₂_congr fun d hd => ?_)
  · simp only [List.mem_map, exists_exists_and_eq_and]
  · refine imp_congr_right fun hname => ?_
    have hname' : d.name = a.name := hname
    rw [List.map_append, hlanes, hname']
    exact List.append_left_inj _

/-- **Carrying lanes** adds the same columns to applications and declarations. -/
theorem aligned_carryRhsScalarizedLanes_iff {vc : ChcVc} :
    (carryRhsScalarizedLanes vc).Aligned ↔ vc.Aligned := by
  have hrules : (carryRhsScalarizedLanes vc).Aligned ↔
      ∀ r ∈ vc.rules, ∀ a ∈ (carryRule (lanesOf vc) r).apps,
        Conforms (carryRhsScalarizedLanes vc).relations a := List.forall_mem_map
  rw [hrules]
  refine forall₂_congr fun r _ => ?_
  rw [Rule.apps, Rule.apps, List.forall_mem_cons, List.forall_mem_cons, carryRule]
  refine and_congr (conforms_carry_iff (fun _ => rfl) _) ?_
  cases r.body.relation with
  | none => simp
  | some a =>
    rw [Option.map_some, Option.toList_some, Option.toList_some, List.forall_mem_singleton,
      List.forall_mem_singleton]
    exact conforms_carry_iff (fun _ => rfl) _

/-- The arrays that are folded. -/
def foldPlan (vc : ChcVc) : List ConstFoldInfo :=
  foldedArrays (simplifiedVc vc) (identifyConstFoldableArrays (simplifiedVc vc))

/-- What keeps the columns aligned: if arrays are scalarized, that the applications of a relation
come to the same sorts; if they are only folded, that the applications lose the same columns; else
that aliases have the sorts of what replaces them. -/
def PlanAligned (vc : ChcVc) : Option (List ScalarInfo × List Rule × RewriteContext) → Prop
  | some (infos, _, _) => SameLanes infos (preparedVc vc)
  | none =>
    if (foldPlan vc).isEmpty then AliasesKeepSorts vc
    else FoldsAlike (foldPlan vc) (simplifiedVc vc)

instance (vc : ChcVc) (plan : Option (List ScalarInfo × List Rule × RewriteContext)) :
    Decidable (PlanAligned vc plan) :=
  match plan with
  | some (_, _, _) => inferInstanceAs (Decidable (SameLanes _ _))
  | none => inferInstanceAs (Decidable (if (foldPlan vc).isEmpty = true then _ else _))

/-- The plan of the search keeps the columns aligned. -/
def KeepsAligned (vc : ChcVc) : Prop := PlanAligned vc (lanePlan (preparedVc vc))

instance (vc : ChcVc) : Decidable (KeepsAligned vc) :=
  inferInstanceAs (Decidable (PlanAligned _ _))

variable {vc : ChcVc}

/-- The staged rules of a plan are those of its arrays. -/
theorem staged_of_selectArrays {n : ℕ} {banned : List String}
    {infos : List ScalarInfo} {staged : List Rule} {ctx : RewriteContext}
    (h : selectArrays vc n banned = some (infos, staged, ctx)) :
    commitRewrite vc infos staged ctx = rewriteArrays infos vc := by
  induction n generalizing banned with
  | zero => cases h
  | succ n ih =>
    rw [selectArrays] at h
    dsimp only at h
    split_ifs at h
    · obtain ⟨rfl, hstaged⟩ := Prod.mk.inj (Option.some.inj h)
      obtain ⟨rfl, rfl⟩ := Prod.mk.inj hstaged
      rfl
    · exact ih h

theorem aligned_scalarizeArrays_iff (h : vc.Aligned) :
    (scalarizeArrays (preparedVc vc)).Aligned ↔ KeepsAligned vc := by
  have hdecl := declared_simplifiedVc h
  rw [scalarizeArrays, KeepsAligned]
  cases hplan : lanePlan (preparedVc vc) with
  | some plan =>
    obtain ⟨infos, staged, ctx⟩ := plan
    dsimp only
    rw [staged_of_selectArrays hplan]
    exact aligned_rewriteArrays_iff (declared_preparedVc hdecl)
  | none =>
    dsimp only [PlanAligned]
    rw [preparedVc, applyConstFolding]
    split_ifs with hnone hfolds hfolds
    · exact aligned_simplifiedVc_iff h
    · exact absurd hnone hfolds
    · exact absurd hfolds hnone
    · exact aligned_foldArrays_iff hdecl

/-- The condition before dead columns are dropped. -/
def carriedVc (vc : ChcVc) : ChcVc :=
  pruneDeadSingleUseLocalAssignments
    (carryRhsScalarizedLanes (scalarizeArrays (preparedVc vc)))

/-- **Scalarization and alignment.** Replacing arrays by lanes keeps the applications of every
relation aligned with its declaration, whatever the arrays and lanes, exactly if the applications
of a relation come to the same sorts. After the pass has replaced the arrays that it plans, they
are aligned exactly if the plan keeps them so, and then they are after the whole pass; unless
columns are dropped as dead, the whole pass keeps them aligned only then. -/
theorem scalarizeVc_aligned (vc : ChcVc) (h : vc.Aligned) :
    (∀ infos, (rewriteArrays infos vc).Aligned ↔ SameLanes infos vc) ∧
      ((scalarizeArrays (preparedVc vc)).Aligned ↔ KeepsAligned vc) ∧
      (KeepsAligned vc → (scalarizeVc vc).Aligned) ∧
      (dropsColumns (carriedVc vc) = false → ((scalarizeVc vc).Aligned ↔ KeepsAligned vc)) := by
  have hpass := aligned_scalarizeArrays_iff h
  refine ⟨fun infos => aligned_rewriteArrays_iff (declared_of_aligned h), hpass,
    fun hkeeps => ?_, fun hdrops => ?_⟩
  · exact aligned_pruneDeadScalars (aligned_carryRhsScalarizedLanes_iff.2 (hpass.2 hkeeps))
  · rw [scalarizeVc, aligned_pruneDeadScalars_iff hdrops, aligned_carryRhsScalarizedLanes_iff,
      hpass]

/-- A byte array with word indices. -/
def byteArray : SmtSort := .array (.bitvec 32) (.bitvec 8)

/-- The byte at the index is one. -/
def isOneAt (name : String) (index : BitVec 32) : Expr :=
  .eq (.select (.var name byteArray) (.bitVecConst index)) (.bitVecConst 1#8)

/-- Two rules read the array that a relation holds; the first calls it `A` and reads two bytes,
the second reads one byte. -/
def twoReadsVc (name : String) : ChcVc where
  vars := [("A", byteArray), ("B", byteArray)]
  relations := [⟨"start", [byteArray]⟩, ⟨"next", [byteArray]⟩, ⟨"error", []⟩]
  rules := [
    ⟨⟨none, []⟩, ⟨"start", [.var "A" byteArray]⟩⟩,
    ⟨⟨some ⟨"start", [.var "A" byteArray]⟩, [isOneAt "A" 0, isOneAt "A" 1]⟩,
      ⟨"next", [.var "A" byteArray]⟩⟩,
    ⟨⟨some ⟨"next", [.var name byteArray]⟩, [isOneAt name 0]⟩, ⟨"error", []⟩⟩]
  target := some "error"
  triviallySafeDischarged := false

theorem twoReads_aligned :
    KeepsAligned (twoReadsVc "A") ∧ (scalarizeVc (twoReadsVc "A")).Aligned :=
  ⟨by decide +kernel,
    (scalarizeVc_aligned (twoReadsVc "A") (by decide +kernel)).2.2.1 (by decide +kernel)⟩

/-- **Scalarization misaligns.** The second rule calls the array `B`: the column conflicts, and
the relation is declared with the two lanes of `A`, but applied to the one lane of `B`. -/
theorem scalarizeVc_misaligns :
    (twoReadsVc "B").Aligned ∧
      (scalarizeArrays (preparedVc (twoReadsVc "B"))).relations.map
        (fun d => (d.name, d.argSorts.length)) = [("start", 2), ("next", 2), ("error", 0)] ∧
      ¬ (scalarizeVc (twoReadsVc "B")).Aligned := by
  decide +kernel

end Pass

end Scalarize

end TrustMc
