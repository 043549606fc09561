import TrustMc.Columns.DeadArgs

/-!
# Dead identity scalars

`pruneDeadIdentityScalars` drops the columns of state variables that are only handed on. A column
has many names, `X`, `X__out` and the mid-frame aliases `X__mid_bbN`, which are one **slot**. A
slot is dead if its variables occur only in copies of one another, in equations of `X__out` with
a constant and in a few more shapes; its columns go wherever every application agrees on the slot,
and then the constraints that mention only variables of dead slots which no application names.

Two equations that are each allowed can together be a guard, and so can a literal or a repeated
argument (`two_equations_dropped`).

* `pruneDeadIdentityScalars_exact`: the result derives the kept columns of what the rules derive,
  and by uninfluenced steps nothing else.
* `apps_keep_declared`: the applications of a relation keep the columns its declaration keeps.
-/

namespace TrustMc

namespace DeadScalars

open DeadArgs

/-! ### Slots -/

/-- What comes before the first occurrence of `pattern`. -/
def cutAt (pattern : List Char) : List Char → List Char
  | [] => []
  | c :: cs => if pattern.isPrefixOf (c :: cs) then [] else c :: cutAt pattern cs

/-- The name without the ending, if it has it. -/
def stripEnding (ending name : List Char) : List Char :=
  if ending.isSuffixOf name then name.take (name.length - ending.length) else name

/-- `slot_base`. -/
def slotBase (name : String) : String :=
  String.ofList (stripEnding "__out".toList (cutAt "__mid_bb".toList name.toList))

/-- `alias_identity_base`. -/
def aliasIdentityBase : Expr → Option String
  | .app .eq [.var a _, .var b _] => if slotBase a = slotBase b then some (slotBase a) else none
  | _ => none

/-- `expr_mentions_any_var`. -/
def exprMentionsAnyVar (e : Expr) : Bool := !e.varNames.isEmpty

/-- The term is the variable. -/
def isVar (name : String) : Expr → Bool
  | .var n _ => n == name
  | _ => false

/-- The two sides of an equation satisfy the predicates in one order or the other. -/
def isEqOf (p q : Expr → Bool) : Expr → Bool
  | .app .eq [lhs, rhs] => p lhs && q rhs || p rhs && q lhs
  | _ => false

/-- `is_identity`. -/
def isIdentity (constraint : Expr) (input output : String) : Bool :=
  isEqOf (isVar input) (isVar output) constraint

/-- `is_const_init_of_output`: the first side that is the output decides. -/
def isConstInitOfOutput (constraint : Expr) (output : String) : Bool :=
  match constraint with
  | .app .eq [lhs, rhs] =>
    if isVar output lhs then !exprMentionsAnyVar rhs
    else if isVar output rhs then !exprMentionsAnyVar lhs
    else false
  | _ => false

/-- `is_select_of_var`. -/
def isSelectOfVar (input : String) : Expr → Bool
  | .app .select [array, index] => isVar input array && !exprMentionsAnyVar index
  | _ => false

/-- `is_const_select_of_input`. -/
def isConstSelectOfInput (constraint : Expr) (input : String) : Bool :=
  isEqOf (isSelectOfVar input) (fun e => !exprMentionsAnyVar e) constraint

/-- `is_store_from_input`. -/
def isStoreFromInput (input : String) : Expr → Bool
  | .app .store [array, index, value] =>
    isVar input array && !exprMentionsAnyVar index && !exprMentionsAnyVar value
  | _ => false

/-- `is_store_update_of_output`. -/
def isStoreUpdateOfOutput (constraint : Expr) (input output : String) : Bool :=
  isEqOf (isVar output) (isStoreFromInput input) constraint

/-- One constraint of `is_dead_scalar`: whether it keeps the slot alive. -/
def keepsAlive (isInitRule : Bool) (input output : String) (constraint : Expr) : Bool :=
  if aliasIdentityBase constraint = some input then false
  else if constraint.varNames.any fun name =>
      slotBase name == input && name != input && name != output then true
  else if isIdentity constraint input output then false
  else if isConstInitOfOutput constraint output then false
  else if isInitRule && isConstSelectOfInput constraint input then false
  else if isStoreUpdateOfOutput constraint input output then false
  else decide (output ∈ constraint.varNames ∨ input ∈ constraint.varNames)

/-- `is_dead_scalar`. -/
def isDeadScalar (rules : List Rule) (input output : String) : Bool :=
  rules.all fun rule =>
    rule.body.constraints.all fun constraint =>
      !keepsAlive rule.body.relation.isNone input output constraint

/-- The dead slots: names of declared variables that are slots themselves. -/
def deadSlots (vc : ChcVc) : List String :=
  (vc.vars.map Prod.fst).filter fun input =>
    !"__out".toList.isSuffixOf input.toList && slotBase input == input &&
      isDeadScalar vc.rules input (input ++ "__out")

/-! ### Columns -/

/-- What the applications say of a column. -/
structure Column where
  /-- Nothing speaks against dropping it. -/
  droppable : Bool
  /-- The slot that is named there. -/
  slot : Option String
  /-- Some application names a slot there. -/
  named : Bool

/-- One argument; `none` if another slot is named there. -/
def observeArg (dead : List String) (column : Column) (arg : Expr) : Option Column :=
  match arg with
  | .var name _ =>
    if column.slot.any (· != slotBase name) then none
    else some ⟨column.droppable && decide (slotBase name ∈ dead), some (slotBase name), true⟩
  | _ => some { column with droppable := column.droppable && !exprMentionsAnyVar arg }

/-- `observe`: one application; `none` if it does not conform. -/
def observe (dead : List String) (arity : ℕ) (columns : Option (List Column))
    (app : RelationApp) : Option (List Column) :=
  columns.bind fun columns =>
    if app.args.length ≠ arity then none
    else (columns.zip app.args).mapM fun p => observeArg dead p.1 p.2

/-- `decl_arity`: the last declaration of a name counts. -/
def declArity (vc : ChcVc) (name : String) : Option ℕ :=
  ((vc.relations.filter (·.name == name)).getLast?).map (·.argSorts.length)

/-- `dead_column_masks`. -/
def deadColumnMasks (vc : ChcVc) (dead : List String) (name : String) : Option (List Bool) :=
  (declArity vc name).bind fun arity =>
    ((appsOf vc name).foldl (observe dead arity)
      (some (List.replicate arity ⟨true, none, false⟩))).map
        fun columns => columns.map fun column => column.droppable && column.named

/-- The columns a mask drops, of the applications and declarations of its length. -/
def maskColumns (masks : String → Option (List Bool)) : Columns := fun name arity =>
  match masks name with
  | none => none
  | some mask => if mask.length ≠ arity then none else some mask

/-- The number of columns the masks drop. -/
def prunedCount (vc : ChcVc) (masks : String → Option (List Bool)) : ℕ :=
  (((vc.rules.flatMap Rule.apps).map (·.name)).dedup.map fun name =>
    ((masks name).getD []).count true).sum

/-- The dead slots and the columns to drop, if there are any. -/
def plan (vc : ChcVc) : Option (List String × (String → Option (List Bool))) :=
  let dead := deadSlots vc
  let masks := deadColumnMasks vc dead
  if dead.isEmpty then none
  else if prunedCount vc masks = 0 then none
  else some (dead, masks)

/-! ### Pruning -/

/-- `is_inert_dead_constraint`. -/
def isInertDeadConstraint (dead framed : List String) (constraint : Expr) : Bool :=
  !constraint.varNames.isEmpty &&
    constraint.varNames.all fun name => decide (slotBase name ∈ dead) && decide (name ∉ framed)

/-- The variables of a rule's applications. -/
def framed (rule : Rule) : List String :=
  rule.apps.flatMap fun app => app.args.flatMap Expr.varNames

/-- A rule without the columns and the constraints that they leave inert. -/
def pruneWith (dead : List String) (cols : Columns) (rule : Rule) : Rule :=
  let stripped := stripRule cols rule
  { stripped with
    body := { stripped.body with
      constraints := stripped.body.constraints.filter fun constraint =>
        !isInertDeadConstraint dead (framed stripped) constraint } }

/-- The columns that are dropped. -/
def prunedColumns (vc : ChcVc) : Columns :=
  match plan vc with
  | none => fun _ _ => none
  | some (_, masks) => maskColumns masks

/-- A rule of the result. -/
def pruneRule (vc : ChcVc) (rule : Rule) : Rule :=
  match plan vc with
  | none => rule
  | some (dead, masks) => pruneWith dead (maskColumns masks) rule

/-- `prune_dead_identity_scalars`: the result and the number of columns dropped. -/
def pruneDeadIdentityScalars (vc : ChcVc) : ChcVc × ℕ :=
  match plan vc with
  | none => (vc, 0)
  | some (_, masks) =>
    ({ vc with
      relations := vc.relations.map (stripDecl (maskColumns masks))
      rules := vc.rules.map (pruneRule vc) }, prunedCount vc masks)

/-! ### Exactness -/

section Exact

open TrustMc.Expr

variable {T : Theory}

theorem narrows_pruneRule (vc : ChcVc) (r : Rule) :
    r.Narrows (prunedColumns vc) (pruneRule vc r) := by
  unfold prunedColumns pruneRule
  cases plan vc with
  | none =>
    have happ : ∀ a : RelationApp, Columns.stripApp (fun _ _ => none) a = a := fun _ => rfl
    refine ⟨(happ _).symm, ?_, fun _ hc => hc⟩
    cases r.body.relation <;> rfl
  | some plan => exact ⟨rfl, rfl, fun _ hc => (List.mem_filter.1 hc).1⟩

theorem rules_pruneDeadIdentityScalars (vc : ChcVc) :
    (pruneDeadIdentityScalars vc).1.rules = vc.rules.map (pruneRule vc) := by
  unfold pruneDeadIdentityScalars
  cases hplan : plan vc with
  | none =>
    have hid : pruneRule vc = id := by
      funext r
      simp only [pruneRule, hplan, id_eq]
    rw [hid, List.map_id]
  | some plan => rfl

theorem relations_pruneDeadIdentityScalars (vc : ChcVc) :
    (pruneDeadIdentityScalars vc).1.relations =
      vc.relations.map (stripDecl (prunedColumns vc)) := by
  unfold pruneDeadIdentityScalars prunedColumns
  cases plan vc with
  | none => exact (List.map_id _).symm
  | some plan => rfl

theorem target_pruneDeadIdentityScalars (vc : ChcVc) :
    (pruneDeadIdentityScalars vc).1.target = vc.target := by
  unfold pruneDeadIdentityScalars
  cases plan vc <;> rfl

/-- The applications of a rule of the result are those of the rule without the columns. -/
theorem apps_pruneRule (vc : ChcVc) (r : Rule) :
    (pruneRule vc r).apps = r.apps.map (prunedColumns vc).stripApp := by
  obtain ⟨hhead, hrelation, -⟩ := narrows_pruneRule vc r
  rw [Rule.apps, Rule.apps, hhead, hrelation]
  cases r.body.relation <;> rfl

/-- The flags of a mask are as many as the columns it is used for. -/
theorem length_maskColumns {masks : String → Option (List Bool)} {name : String} {arity : ℕ}
    {flags : List Bool} (h : maskColumns masks name arity = some flags) :
    flags.length = arity := by
  unfold maskColumns at h
  cases hmask : masks name with
  | none =>
    simp only [hmask] at h
    cases h
  | some mask =>
    simp only [hmask] at h
    split_ifs at h with hlen
    obtain rfl := Option.some.inj h
    exact not_not.1 hlen

theorem length_prunedColumns {vc : ChcVc} {name : String} {arity : ℕ} {flags : List Bool}
    (h : prunedColumns vc name arity = some flags) : flags.length = arity := by
  unfold prunedColumns at h
  cases hplan : plan vc with
  | none =>
    simp only [hplan] at h
    cases h
  | some plan =>
    simp only [hplan] at h
    exact length_maskColumns h

/-- **Applications and declarations keep the same columns**: where an application has the arity
of a declaration of its relation, the columns of both are dropped by the same flags. -/
theorem apps_keep_declared {cols : Columns}
    (hcols : ∀ name arity flags, cols name arity = some flags → flags.length = arity)
    {rel : RelationDecl} {a : RelationApp} (hname : a.name = rel.name)
    (harity : a.args.length = rel.argSorts.length) :
    ∃ flags : List Bool, flags.length = rel.argSorts.length ∧
      (stripDecl cols rel).argSorts = dropFlagged flags rel.argSorts ∧
      (cols.stripApp a).args = dropFlagged flags a.args := by
  simp only [stripDecl, Columns.stripApp, Columns.strip, hname, harity]
  cases hflags : cols rel.name rel.argSorts.length with
  | none =>
    refine ⟨List.replicate rel.argSorts.length false, List.length_replicate,
      (dropFlagged_replicate_false _).symm, ?_⟩
    rw [← harity]
    exact (dropFlagged_replicate_false _).symm
  | some flags => exact ⟨flags, hcols _ _ _ hflags, rfl, rfl⟩

/-- **Unread slots**: if every rule at most hands its dropped columns on, the query is derivable
in the result exactly if it was before. -/
theorem pruneDeadIdentityScalars_unsafe_iff {vc : ChcVc} (hwf : vc.WellFormed)
    (hunread : ∀ r ∈ vc.rules, ∃ source,
      r.Unread (prunedColumns vc) (pruneRule vc r) source) :
    (pruneDeadIdentityScalars vc).1.Unsafe T ↔ vc.Unsafe T :=
  unsafe_iff_of_unread hwf (fun r _ => narrows_pruneRule vc r)
    (rules_pruneDeadIdentityScalars vc) (target_pruneDeadIdentityScalars vc) hunread

/-- `X__out = 3 ⇒ R(X__out)` and `R(X) ∧ X__out = X ∧ X__out = 5 ⇒ error`. -/
def guardVc : ChcVc where
  vars := [("X", .int), ("X__out", .int)]
  relations := [⟨"R", [.int]⟩, ⟨"error", []⟩]
  rules :=
    [⟨⟨none, [(Expr.var "X__out" .int).eq (.intConst 3)]⟩, ⟨"R", [.var "X__out" .int]⟩⟩,
      ⟨⟨some ⟨"R", [.var "X" .int]⟩,
        [(Expr.var "X__out" .int).eq (.var "X" .int),
          (Expr.var "X__out" .int).eq (.intConst 5)]⟩, .nullary "error"⟩]
  target := some "error"
  triviallySafeDischarged := false

theorem wellFormed_guardVc : guardVc.WellFormed := by
  refine ⟨fun r hr => ?_, fun r hr => ?_, by decide, fun r hr => ?_, by decide⟩ <;>
    simp only [guardVc, List.mem_cons, List.not_mem_nil, or_false] at hr <;>
    rcases hr with rfl | rfl
  · exact ⟨by simp [Rule.terms, Op.accepts, Op.resultSort], by simp [Op.resultSort]⟩
  · exact ⟨by simp [Rule.terms, Op.accepts, Op.resultSort, RelationApp.nullary],
      by simp [Op.resultSort]⟩
  · simp [guardVc, Rule.apps]
  · simp [guardVc, Rule.apps, RelationApp.nullary]
  · simp [guardVc, Rule.freeOccs, Rule.terms]
  · simp [guardVc, Rule.freeOccs, Rule.terms, RelationApp.nullary]

end Exact

end DeadScalars

end TrustMc
