import TrustMc.ConstProp.Alignment
import TrustMc.Columns.DeadScalars

/-!
# Pruning dead scalars

After scalarization `pruneDeadScalars` drops the columns of scalars that every constraint at most
copies between names of one slot, by the masks of `DeadScalars.deadColumnMasks`, and the copies
of which no name is left in an application. Equations that define a variable which occurs
nowhere else are dropped before and after.

Applications and declarations lose the same columns (`aligned_pruneDeadScalars`).
-/

namespace TrustMc

namespace Scalarize

open DeadArgs DeadScalars

/-! ### Single-use variables -/

/-- `is_dead_single_use_local_assignment`. -/
def isDeadSingleUseLocalAssignment (constraints : List Expr) (protectedVars : List String)
    (constraint : Expr) : Bool :=
  match constraint with
  | .app .eq [.var name _, value] =>
    decide (name ∉ protectedVars) &&
      (constraints.flatMap Expr.varNames).count name == 1 && decide (name ∉ value.varNames)
  | _ => false

/-- One round of `prune_dead_single_use_local_assignments`. -/
def singleUseRound (protectedVars : List String) (constraints : List Expr) : List Expr :=
  constraints.filter (!isDeadSingleUseLocalAssignment constraints protectedVars ·)

/-- `prune_dead_single_use_local_assignments` on one rule. -/
def pruneSingleUses (rule : Rule) : Rule :=
  { rule with
    body := { rule.body with
      constraints := Budget.untilStable (singleUseRound (framed rule))
        rule.body.constraints.length rule.body.constraints } }

/-- `prune_dead_single_use_local_assignments`. -/
def pruneDeadSingleUseLocalAssignments (vc : ChcVc) : ChcVc :=
  { vc with rules := vc.rules.map pruneSingleUses }

/-- The rounds reach a fixed point. -/
theorem singleUseRound_stable (protectedVars : List String) (constraints : List Expr) :
    singleUseRound protectedVars (Budget.untilStable (singleUseRound protectedVars)
        constraints.length constraints) =
      Budget.untilStable (singleUseRound protectedVars) constraints.length constraints := by
  refine Budget.untilStable_stable (P := fun _ => True) (fun _ _ => trivial) List.length
    (fun cs _ hne => ?_) trivial le_rfl
  refine (List.length_filter_le _ _).lt_of_ne fun hlen => hne ?_
  exact List.filter_eq_self.2 (List.length_filter_eq_length_iff.1 hlen)

/-! ### Dead slots -/

/-- The slots of declared scalars that occur in copies only. -/
def deadLaneSlots (vc : ChcVc) : List String :=
  ((vc.vars.filter (!·.2.isArray)).map fun v => slotBase v.1).filter fun base =>
    !(vc.rules.any fun rule => rule.body.constraints.any fun constraint =>
      (aliasIdentityBase constraint).isNone &&
        constraint.varNames.any fun name => slotBase name == base)

/-- `is_inert_dead_frame_copy`. -/
def isInertDeadFrameCopy (dead stillFramed : List String) (constraint : Expr) : Bool :=
  (aliasIdentityBase constraint).any fun base =>
    decide (base ∈ dead) && constraint.varNames.all fun name => decide (name ∉ stillFramed)

/-- A rule without the columns and the copies that they leave inert. -/
def pruneLanes (dead : List String) (cols : Columns) (rule : Rule) : Rule :=
  let stripped := stripRule cols rule
  { stripped with
    body := { stripped.body with
      constraints := stripped.body.constraints.filter
        (!isInertDeadFrameCopy dead (framed stripped) ·) } }

/-- There are columns of dead slots. -/
def dropsColumns (vc : ChcVc) : Bool :=
  !(deadLaneSlots vc).isEmpty && prunedCount vc (deadColumnMasks vc (deadLaneSlots vc)) != 0

/-- The columns of dead slots are dropped, if there are any. -/
def pruneDeadSlots (vc : ChcVc) : ChcVc :=
  let dead := deadLaneSlots vc
  let masks := deadColumnMasks vc dead
  if !dropsColumns vc then vc
  else
    { vc with
      rules := vc.rules.map (pruneLanes dead (maskColumns masks))
      relations := vc.relations.map (stripDecl (maskColumns masks)) }

/-- `prune_dead_scalars`. -/
def pruneDeadScalars (vc : ChcVc) : ChcVc :=
  pruneDeadSingleUseLocalAssignments (pruneDeadSlots (pruneDeadSingleUseLocalAssignments vc))

/-! ### Alignment -/

theorem conforms_stripApp {cols : Columns} {relations : List RelationDecl} {app : RelationApp}
    (h : Conforms relations app) :
    Conforms (relations.map (stripDecl cols)) (cols.stripApp app) := by
  obtain ⟨⟨d, hd, hname⟩, hsorts⟩ := h
  refine ⟨⟨stripDecl cols d, List.mem_map_of_mem hd, hname⟩, List.forall_mem_map.2 ?_⟩
  intro d hd hname
  rw [Columns.stripApp, Columns.map_strip, hsorts d hd hname, stripDecl]
  exact congrArg (fun name => cols.strip name d.argSorts) (Eq.symm hname)

theorem apps_pruneLanes (dead : List String) (cols : Columns) (rule : Rule) :
    (pruneLanes dead cols rule).apps = rule.apps.map cols.stripApp := by
  rw [Rule.apps, Rule.apps, pruneLanes, stripRule]
  cases rule.body.relation <;> rfl

/-- **Dropping dead columns keeps applications and declarations aligned.** -/
theorem aligned_pruneDeadSlots {vc : ChcVc} (h : vc.Aligned) : (pruneDeadSlots vc).Aligned := by
  unfold pruneDeadSlots
  dsimp only
  split_ifs
  · exact h
  · refine List.forall_mem_map.2 fun rule hrule => ?_
    rw [apps_pruneLanes]
    exact List.forall_mem_map.2 fun app happ => conforms_stripApp (h rule hrule app happ)

theorem aligned_pruneDeadSingleUseLocalAssignments_iff {vc : ChcVc} :
    (pruneDeadSingleUseLocalAssignments vc).Aligned ↔ vc.Aligned :=
  List.forall_mem_map

/-- **Pruning keeps applications and declarations aligned.** -/
theorem aligned_pruneDeadScalars {vc : ChcVc} (h : vc.Aligned) :
    (pruneDeadScalars vc).Aligned := by
  rw [pruneDeadScalars, aligned_pruneDeadSingleUseLocalAssignments_iff]
  exact aligned_pruneDeadSlots (aligned_pruneDeadSingleUseLocalAssignments_iff.2 h)

/-- Pruning that drops no column does not align anything either. -/
theorem aligned_pruneDeadScalars_iff {vc : ChcVc}
    (h : dropsColumns (pruneDeadSingleUseLocalAssignments vc) = false) :
    (pruneDeadScalars vc).Aligned ↔ vc.Aligned := by
  rw [pruneDeadScalars, aligned_pruneDeadSingleUseLocalAssignments_iff, pruneDeadSlots, h]
  exact aligned_pruneDeadSingleUseLocalAssignments_iff

end Scalarize

end TrustMc
