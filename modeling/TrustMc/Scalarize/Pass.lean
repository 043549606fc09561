import TrustMc.Scalarize.Chains
import TrustMc.Scalarize.ConstFoldApply
import TrustMc.Scalarize.MidAliases
import TrustMc.Scalarize.PruneScalars
import TrustMc.Scalarize.Rewrite

/-!
# Array scalarization

`scalarizeVc` collapses the aliases of intermediate frames, resolves reads of store chains,
folds read-only arrays, replaces the other arrays that are used at constant indices only by
their lanes, carries lanes that a rule reads through its relation, and prunes dead scalars.
-/

namespace TrustMc

namespace Scalarize

/-- The condition without aliases and with the reads of store chains resolved. -/
def simplifiedVc (vc : ChcVc) : ChcVc := simplifyStoreSelectChainsInVc (collapseMidAliases vc)

/-- What the search for arrays starts from: read-only arrays are folded. -/
def preparedVc (vc : ChcVc) : ChcVc :=
  applyConstFolding (simplifiedVc vc) (identifyConstFoldableArrays (simplifiedVc vc))

/-- The arrays to scalarize with the staged rules, if there are any. -/
def lanePlan (vc : ChcVc) : Option (List ScalarInfo × List Rule × RewriteContext) :=
  selectArrays vc (vc.vars.length + 1) []

/-- The condition with the arrays replaced by their lanes. -/
def scalarizeArrays (vc : ChcVc) : ChcVc :=
  match lanePlan vc with
  | none => vc
  | some (infos, staged, ctx) => commitRewrite vc infos staged ctx

/-- `scalarize_vc`. -/
def scalarizeVc (vc : ChcVc) : ChcVc :=
  pruneDeadScalars (carryRhsScalarizedLanes (scalarizeArrays (preparedVc vc)))

/-- More attempts find the same arrays. -/
theorem lanePlan_eq {vc : ChcVc} {n : ℕ} (h : vc.vars.length < n) :
    selectArrays vc n [] = lanePlan vc := by
  have hle : (inputVars vc []).length ≤ vc.vars.length := List.length_filter_le _ _
  exact selectArrays_of_length_lt (hle.trans_lt h) (hle.trans_lt (Nat.lt_succ_self _))

end Scalarize

end TrustMc
