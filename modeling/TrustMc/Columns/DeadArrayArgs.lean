import TrustMc.Columns.DeadScalars
import TrustMc.Columns.Embedded
import TrustMc.Words.Separator

/-!
# Dead array arguments

`pruneDeadArrayRelationArgs` drops the columns that no application seems to read after arrays have
been scalarized: every application of the relation, also inside constraints, has there a term
without variables, the pad that was generated for the column, or, in an array column, a variable
that stands in no constraint or a compound term without pads. Copies between an array and its
output do not count as constraints. The variables that are named like the pads of dropped columns
lose their declarations.

* `isGeneratedPadName_padName`: for which columns a pad is recognised.
* `sort_stripExpr`, `mem_funcApps_stripExpr`, `freeOccs_stripExpr_subset`: what dropping columns
  inside a term keeps.
-/

namespace TrustMc

namespace DeadArrayArgs

open DeadScalars Relations

/-! ### Pad names -/

/-- What follows the relation in a pad's name: the column, and perhaps the tag of a sort. -/
def isSlotSuffix (idx : ℕ) (rest : List Char) : Bool :=
  let digits := rest.takeWhile Char.isDigit
  let tail := rest.drop digits.length
  !digits.isEmpty && ConstProp.parseUsize digits == some idx &&
    (tail.isEmpty || tail.head? == some '_')

/-- `is_generated_pad_name`. -/
def isGeneratedPadName (name relName : String) (idx : ℕ) : Bool :=
  (((ConstProp.stripPrefix "__pad_".toList name.toList).bind
    (ConstProp.stripPrefix relName.toList)).bind (ConstProp.stripPrefix ['_'])).any
      (isSlotSuffix idx)

/-! ### Variables of constraints -/

/-- Cuts a reversed `__out` off as often as it stands in front. -/
def trimOutRev : List Char → List Char
  | 't' :: 'u' :: 'o' :: '_' :: '_' :: cs => trimOutRev cs
  | cs => cs

/-- `name.trim_end_matches("__out")`. -/
def trimEndOut (name : String) : List Char := (trimOutRev name.toList.reverse).reverse

/-- `is_pure_array_state_copy`. -/
def isPureArrayStateCopy (lhs rhs : Expr) : Bool :=
  match lhs, rhs with
  | .var lhsName s, .var rhsName s' =>
    trimEndOut lhsName == trimEndOut rhsName && s.isArray && s'.isArray &&
      ("__out".toList.isSuffixOf lhsName.toList || "__out".toList.isSuffixOf rhsName.toList)
  | _, _ => false

mutual

/-- `collect_expr_vars_excluding_relation_apps`. -/
def varsExcludingRelationApps (relationNames : List String) : Expr → List String
  | .var name _ => [name]
  | .app .eq [lhs, rhs] =>
    if isPureArrayStateCopy lhs rhs then []
    else varsExcludingRelationApps relationNames lhs ++ varsExcludingRelationApps relationNames rhs
  | .app (.funcApp name _) args =>
    if name ∈ relationNames then [] else varsExcludingRelationAppsList relationNames args
  | .app _ args => varsExcludingRelationAppsList relationNames args
  | .quant _ _ body => varsExcludingRelationApps relationNames body

/-- The variables of a list of terms. -/
def varsExcludingRelationAppsList (relationNames : List String) : List Expr → List String
  | [] => []
  | e :: es =>
    varsExcludingRelationApps relationNames e ++ varsExcludingRelationAppsList relationNames es

end

/-- `collect_non_relation_constraint_vars`. -/
def nonRelationConstraintVars (vc : ChcVc) : List String :=
  vc.rules.flatMap fun rule =>
    rule.body.constraints.flatMap (varsExcludingRelationApps (vc.relations.map (·.name)))

/-! ### Columns -/

/-- What the applications say of a column. -/
structure ClosedArgCandidate where
  /-- It holds arrays. -/
  arraySort : Bool
  /-- An application has been looked at. -/
  seen : Bool
  /-- An application speaks against dropping it. -/
  rejected : Bool

/-- `classify_prunable_relation_arg`, with the reason why the argument stays; of several pads the
source may name any. -/
def classifyPrunableRelationArg (relName : String) (idx : ℕ) (arraySort : Bool) (arg : Expr)
    (constraintVars : List String) : Except String Unit :=
  if arg.varNames.isEmpty then .ok ()
  else
    match arg with
    | .var name _ =>
      if isGeneratedPadName name relName idx && decide (name ∉ constraintVars) then .ok ()
      else if arraySort && decide (name ∉ constraintVars) then .ok ()
      else .error ("bare_var:" ++ name)
    | _ =>
      match arg.varNames.find? fun name => "__pad_".toList.isPrefixOf name.toList with
      | some pad => .error ("compound_mentions_pad:" ++ pad)
      | none => if arraySort then .ok () else .error "compound_scalar_mentions_non_pad_var"

/-- One column in `record_relation_args`. -/
def recordArg (relName : String) (constraintVars : List String) (idx : ℕ)
    (state : ClosedArgCandidate) (arg : Expr) : ClosedArgCandidate :=
  if state.rejected then state
  else
    match classifyPrunableRelationArg relName idx state.arraySort arg constraintVars with
    | .ok () => { state with seen := true }
    | .error _ => { state with seen := true, rejected := true }

/-- `record_relation_args`. -/
def recordRelationArgs (relName : String) (constraintVars : List String)
    (states : List ClosedArgCandidate) (args : List Expr) : List ClosedArgCandidate :=
  if args.length ≠ states.length then states.map fun state => { state with rejected := true }
  else (states.zip args).mapIdx fun idx p => recordArg relName constraintVars idx p.1 p.2

/-- `collect_candidate_states`: the columns of a relation, after all its applications. In which
order those inside a constraint are met does not matter. -/
def candidateStates (vc : ChcVc) (name : String) : Option (List ClosedArgCandidate) :=
  (relSorts vc.relations name).map fun sorts =>
    (((vc.rules.flatMap ruleApps).filter (·.1 == name)).map Prod.snd).foldl
      (recordRelationArgs name (nonRelationConstraintVars vc))
      (sorts.map fun sort => ⟨sort.isArray, false, false⟩)

/-- `dead_array_arg_masks`. -/
def deadArrayArgMasks (vc : ChcVc) (name : String) : Option (List Bool) :=
  (candidateStates vc name).bind fun states =>
    let mask := states.map fun state => state.seen && !state.rejected
    if mask.any id then some mask else none

/-! ### Stripping -/

section Strip

variable (masks : String → Option (List Bool))

/-- One declaration in `strip_relation_decls`. -/
def strippedDecl (rel : RelationDecl) : RelationDecl :=
  match masks rel.name with
  | none => rel
  | some mask => { rel with argSorts := dropFlagged mask rel.argSorts }

/-- `strip_relation_decls`; it panics at a column past the end of its mask. -/
def stripRelationDecls (relations : List RelationDecl) : Option (List RelationDecl) :=
  relations.mapM fun rel =>
    if (masks rel.name).any (·.length < rel.argSorts.length) then none
    else some (strippedDecl masks rel)

mutual

/-- `StripDeadArrayRelationExprs`: arguments first. -/
def stripExpr : Expr → Expr
  | .var n s => .var n s
  | .app op args =>
    match op with
    | .funcApp name s =>
      .app (.funcApp name s) ((maskColumns masks).strip name (stripExprList args))
    | op => .app op (stripExprList args)
  | .quant q vs b => .quant q vs (stripExpr b)

/-- `StripDeadArrayRelationExprs` on a list of terms. -/
def stripExprList : List Expr → List Expr
  | [] => []
  | e :: es => stripExpr e :: stripExprList es

end

/-- `strip_rule_relation_apps`: a rule in whose constraints nothing is stripped keeps them. -/
def stripRuleRelationApps (rule : Rule) : Rule where
  body := ⟨rule.body.relation.map (maskColumns masks).stripApp,
    rule.body.constraints.map (stripExpr masks)⟩
  head := (maskColumns masks).stripApp rule.head

/-- The columns that are dropped. -/
def strippedPadSlots (relations : List RelationDecl) : List (String × ℕ) :=
  (relations.map (·.name)).dedup.flatMap fun name =>
    match masks name with
    | none => []
    | some mask =>
      ((List.range mask.length).filter fun idx => mask[idx]? == some true).map fun idx =>
        (name, idx)

/-- The name is recognised as the pad of a dropped column. -/
def isStrippedPad (relations : List RelationDecl) (name : String) : Bool :=
  (strippedPadSlots masks relations).any fun slot => isGeneratedPadName name slot.1 slot.2

end Strip

/-- `prune_dead_array_relation_args`: the result and the number of columns dropped. -/
def pruneDeadArrayRelationArgs (vc : ChcVc) : Option (ChcVc × ℕ) :=
  let masks := deadArrayArgMasks vc
  let pruned := (strippedPadSlots masks vc.relations).length
  if pruned = 0 then some (vc, 0)
  else
    (stripRelationDecls masks vc.relations).map fun relations =>
      ({ vc with
        vars := vc.vars.filter fun var => !isStrippedPad masks vc.relations var.1
        relations
        rules := vc.rules.map (stripRuleRelationApps masks) }, pruned)

/-! ### Recognised pads -/

theorem stripPrefix_eq_some {p s t : List Char} :
    ConstProp.stripPrefix p s = some t ↔ s = p ++ t := by
  unfold ConstProp.stripPrefix
  split
  · rename_i h
    obtain ⟨u, rfl⟩ := List.isPrefixOf_iff_prefix.1 h
    rw [List.drop_left, Option.some.injEq, List.append_right_inj]
  · rename_i h
    refine iff_of_false (Option.some_ne_none t).symm ?_
    rintro rfl
    exact h (List.isPrefixOf_iff_prefix.2 (List.prefix_append p t))

/-- The names that are recognised as the pad of a column. -/
theorem isGeneratedPadName_iff {name relName : String} {idx : ℕ} :
    isGeneratedPadName name relName idx = true ↔ ∃ rest,
      name.toList = "__pad_".toList ++ (relName.toList ++ '_' :: rest) ∧
        isSlotSuffix idx rest = true := by
  simp only [isGeneratedPadName, Option.any_eq_true, Option.bind_eq_some_iff,
    stripPrefix_eq_some]
  constructor
  · rintro ⟨rest, ⟨t, ⟨u, hname, rfl⟩, rfl⟩, hslot⟩
    exact ⟨rest, hname, hslot⟩
  · rintro ⟨rest, hname, hslot⟩
    exact ⟨rest, ⟨_, ⟨_, hname, rfl⟩, rfl⟩, hslot⟩

/-- The number ends where an underscore begins a tag. -/
theorem isSlotSuffix_append (idx : ℕ) (w rest : List Char) :
    isSlotSuffix idx (w ++ '_' :: rest) = isSlotSuffix idx w := by
  have hdigits : (w ++ '_' :: rest).takeWhile Char.isDigit = w.takeWhile Char.isDigit := by
    induction w with
    | nil => rfl
    | cons c w ih => simp only [List.cons_append, List.takeWhile_cons, ih]
  have hlen : (w.takeWhile Char.isDigit).length ≤ w.length :=
    (List.takeWhile_prefix _).length_le
  simp only [isSlotSuffix, hdigits, List.drop_append_of_le_length hlen]
  cases w.drop (w.takeWhile Char.isDigit).length <;> simp

theorem isSlotSuffix_toDigits {idx idx' : ℕ} (hidx : idx < 2 ^ 64) :
    isSlotSuffix idx' (Nat.toDigits 10 idx) = true ↔ idx' = idx := by
  have hall : ∀ c ∈ Nat.toDigits 10 idx, c.isDigit = true := fun c hc =>
    Nat.isDigit_of_mem_toDigits (by decide) (by decide) hc
  have htake : (Nat.toDigits 10 idx).takeWhile Char.isDigit = Nat.toDigits 10 idx :=
    List.takeWhile_eq_self_iff.2 hall
  have hne : Nat.toDigits 10 idx ≠ [] := Nat.toDigits_ne_nil
  have hplus : ConstProp.stripPrefix ['+'] (Nat.toDigits 10 idx) = none := by
    refine Option.eq_none_iff_forall_ne_some.2 fun t ht => ?_
    have hmem : '+' ∈ Nat.toDigits 10 idx := by
      rw [stripPrefix_eq_some.1 ht]
      exact List.mem_append_left _ (List.mem_singleton_self _)
    exact absurd (hall _ hmem) (by decide)
  have hval : (Nat.toDigits 10 idx).foldl (fun n c => 10 * n + (c.toNat - '0'.toNat)) 0 = idx := by
    rw [← Nat.ofDigitChars_eq_foldl, Nat.ofDigitChars_toDigits] <;> decide
  have hparse : ConstProp.parseUsize (Nat.toDigits 10 idx) = some idx := by
    have hdigits : (Nat.toDigits 10 idx).all Char.isDigit = true := List.all_eq_true.2 hall
    simp only [ConstProp.parseUsize, hplus, Option.getD_none, hval, hdigits,
      List.isEmpty_eq_false_iff.2 hne, if_pos hidx]
    rfl
  have hempty : (Nat.toDigits 10 idx).isEmpty = false := List.isEmpty_eq_false_iff.2 hne
  simp only [isSlotSuffix, htake, hparse, hempty, List.drop_length, List.isEmpty_nil,
    Bool.true_or, Bool.and_true, Bool.not_false, Bool.true_and]
  rw [beq_iff_eq, Option.some.injEq, eq_comm]

/-- **Pads of one relation, recognised for another**: a pad is recognised for its own column, and
for the columns whose pads begin the name of its relation. -/
theorem isGeneratedPadName_padName {relName relName' : String} {idx idx' : ℕ}
    (hidx : idx < 2 ^ 64) :
    isGeneratedPadName (padName relName idx) relName' idx' = true ↔
      relName' = relName ∧ idx' = idx ∨
        isGeneratedPadName ("__pad_" ++ relName) relName' idx' = true := by
  have hname : (padName relName idx).toList =
      "__pad_".toList ++ (relName.toList ++ '_' :: Nat.toDigits 10 idx) := by
    have hnum : (toString idx).toList = Nat.toDigits 10 idx := Nat.toList_repr
    simp only [padName, String.toList_append, hnum, List.append_assoc]
    rfl
  rw [isGeneratedPadName_iff, isGeneratedPadName_iff, hname, String.toList_append]
  simp only [List.append_right_inj]
  constructor
  · rintro ⟨rest, heq, hslot⟩
    rcases List.append_eq_append_iff.1 heq with ⟨a, ha, hrest⟩ | ⟨a, ha, hrest⟩
    · cases a with
      | nil =>
        obtain rfl : Nat.toDigits 10 idx = rest := (List.cons.inj hrest).2
        rw [List.append_nil] at ha
        exact .inl ⟨String.toList_inj.1 ha, (isSlotSuffix_toDigits hidx).1 hslot⟩
      | cons c a =>
        -- the underscore that follows the longer name would be a digit
        exfalso
        have hdigits : Nat.toDigits 10 idx = a ++ '_' :: rest := (List.cons.inj hrest).2
        refine Words.not_infix_toDigits ⟨'_', List.mem_singleton_self _, by decide⟩
          ⟨a, rest, ?_⟩ (n := idx)
        rw [hdigits, List.append_assoc]
        rfl
    · cases a with
      | nil =>
        obtain rfl : rest = Nat.toDigits 10 idx := (List.cons.inj hrest).2
        rw [List.append_nil] at ha
        exact .inl ⟨(String.toList_inj.1 ha).symm, (isSlotSuffix_toDigits hidx).1 hslot⟩
      | cons c a =>
        rw [List.cons_append] at hrest
        obtain ⟨rfl, hrest'⟩ := List.cons.inj hrest
        rw [hrest', isSlotSuffix_append] at hslot
        exact .inr ⟨a, ha, hslot⟩
  · rintro (⟨rfl, rfl⟩ | ⟨rest, heq, hslot⟩)
    · exact ⟨_, rfl, (isSlotSuffix_toDigits hidx).2 rfl⟩
    · refine ⟨rest ++ '_' :: Nat.toDigits 10 idx, ?_, (isSlotSuffix_append _ _ _).trans hslot⟩
      rw [heq, List.append_assoc, List.cons_append]

/-! ### Terms without the columns -/

section Terms

variable {masks : String → Option (List Bool)}

@[simp]
theorem stripExprList_eq (es : List Expr) : stripExprList masks es = es.map (stripExpr masks) := by
  induction es with
  | nil => rw [stripExprList, List.map_nil]
  | cons e es ih => rw [stripExprList, ih, List.map_cons]

/-- The columns of the masks are dropped. -/
theorem stripExpr_eq (e : Expr) : stripExpr masks e = (maskColumns masks).stripTerm e := by
  induction e with
  | var n s => rw [stripExpr, Columns.stripTerm_var]
  | app op args ih =>
    by_cases hop : ∃ name s, op = .funcApp name s
    · obtain ⟨name, s, rfl⟩ := hop
      rw [stripExpr, stripExprList_eq, Columns.stripTerm_funcApp, List.map_congr_left ih]
    · have hne : ∀ name s, op ≠ .funcApp name s := fun name s h => hop ⟨name, s, h⟩
      rw [stripExpr.eq_def, Columns.stripTerm_app hne, ← List.map_congr_left ih, ← stripExprList_eq]
      dsimp only
      split
      · exact absurd rfl (hne _ _)
      · rfl
  | quant q vs b ih => rw [stripExpr, ih, Columns.stripTerm_quant]

/-- Dropping columns inside a term keeps its sort. -/
theorem sort_stripExpr (e : Expr) : (stripExpr masks e).sort = e.sort := by
  rw [stripExpr_eq, Columns.sort_stripTerm]

/-- The applications inside the term are those before, without the columns. -/
theorem mem_funcApps_stripExpr {e : Expr} {app : String × List Expr}
    (h : app ∈ funcApps (stripExpr masks e)) :
    ∃ args, (app.1, args) ∈ funcApps e ∧
      app.2.map Expr.sort = (maskColumns masks).strip app.1 (args.map Expr.sort) := by
  rw [stripExpr_eq] at h
  obtain ⟨args, hargs, happ⟩ := Columns.mem_funcApps_stripTerm h
  refine ⟨args, hargs, ?_⟩
  rw [happ, Columns.map_strip, List.map_map]
  exact congrArg _ (List.map_congr_left fun a _ => Columns.sort_stripTerm a)

/-- No variable is new. -/
theorem freeOccs_stripExpr_subset (e : Expr) : (stripExpr masks e).freeOccs ⊆ e.freeOccs := by
  rw [stripExpr_eq]
  exact Columns.freeOccs_stripTerm_subset e

/-- A term that applies no relation with dropped columns stays as it is. -/
theorem stripExpr_eq_self {e : Expr} (h : ∀ app ∈ funcApps e, masks app.1 = none) :
    stripExpr masks e = e := by
  rw [stripExpr_eq]
  refine Columns.stripTerm_eq_self fun app happ => Columns.strip_of_none ?_
  rw [maskColumns, h app happ]

end Terms

end DeadArrayArgs

end TrustMc
