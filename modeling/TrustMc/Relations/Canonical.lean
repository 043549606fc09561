import TrustMc.Columns.DeadScalars
import TrustMc.Relations.Arity
import TrustMc.Slots.Anchors

/-!
# Canonical order of the arguments of a relation application

`canonicalizeBlockRelationApps` reads off the applications that have the declared sorts which
variable belongs in which column of a relation, and rewrites the others: an argument whose name
belongs in a column is put there, every other argument goes to the first free column of its
sort, and the columns without an argument get a pad.

The two steps of `realign` are those of `Slots.place`.
-/

namespace TrustMc

namespace Relations

open Slots

/-- `canonical_slot_name`: no slot for a pad, else the name without its decorations. -/
def canonicalSlotName (name : String) : Option String :=
  if "__pad_".toList.isPrefixOf name.toList then none else some (DeadScalars.slotBase name)

/-- `CanonSlot`. -/
inductive CanonSlot
  | named (base : String)
  | const
  | pad
  deriving DecidableEq

/-! ### The layout of a relation -/

/-- What the applications show at one position. -/
structure SlotSeen where
  /-- The first name. -/
  agreed : Option String
  /-- Another name was seen. -/
  conflict : Bool
  /-- A term that is no variable was seen. -/
  sawConst : Bool
  /-- A pad was seen. -/
  sawPad : Bool

/-- One argument at the position. -/
def SlotSeen.observe (seen : SlotSeen) : Expr → SlotSeen
  | .var name _ =>
    match canonicalSlotName name with
    | some base =>
      match seen.agreed with
      | some existing => if existing ≠ base then { seen with conflict := true } else seen
      | none => { seen with agreed := some base }
    | none => { seen with sawPad := true }
  | _ => { seen with sawConst := true }

/-- `app_conforms`. -/
def appConforms (relations : List RelationDecl) (app : RelationApp) : Bool :=
  (relSorts relations app.name).any (argSortsMatchDecl app.args)

/-- `observe`. -/
def observeApp (relations : List RelationDecl) (acc : String → Option (List SlotSeen))
    (app : RelationApp) : String → Option (List SlotSeen) :=
  if !appConforms relations app then acc
  else
    let entry := (acc app.name).getD (app.args.map fun _ => ⟨none, false, false, false⟩)
    Function.update acc app.name (some (List.zipWith SlotSeen.observe entry app.args))

/-- The name that a position is claimed by. -/
def SlotSeen.claim (seen : SlotSeen) : Option String := if seen.conflict then none else seen.agreed

/-- The names that two positions claim. -/
def conflicted (positions : List SlotSeen) : List String :=
  let claims := positions.filterMap SlotSeen.claim
  claims.filter fun b => decide (1 < claims.count b)

/-- The slot of one position. -/
def slotOf (conflicted : List String) (seen : SlotSeen) : CanonSlot :=
  match seen.agreed with
  | some b =>
    if !seen.conflict && !conflicted.contains b then .named b
    else if seen.sawConst then .const else if seen.sawPad then .pad else .const
  | none => if seen.sawConst then .const else if seen.sawPad then .pad else .const

/-- The applications that a rule shows, head first. -/
def ruleRelationApps (rule : Rule) : List RelationApp := rule.head :: rule.body.relation.toList

/-- `canon`: the layouts. -/
def canon (vc : ChcVc) (name : String) : Option (List CanonSlot) :=
  ((vc.rules.flatMap ruleRelationApps).foldl (observeApp vc.relations) (fun _ => none) name).map
    fun positions => positions.map (slotOf (conflicted positions))

/-! ### One application -/

/-- The name of the slot that an argument belongs to. -/
def baseName : Expr → Option String
  | .var name _ => canonicalSlotName name
  | _ => none

/-- A pad of the arity repair. -/
def isPadArg : Expr → Bool
  | .var name _ => (canonicalSlotName name).isNone
  | _ => false

/-- `name_to_pos`: a later position of a name replaces an earlier one. -/
def nameToPos (layout : List CanonSlot) (base : String) : Option ℕ :=
  (layout.zipIdx.reverse.find? fun p => p.1 == .named base).map Prod.snd

/-- The position at which an argument is anchored. -/
def anchorPos (layout : List CanonSlot) (arg : Expr) : Option ℕ :=
  (baseName arg).bind (nameToPos layout)

section Realign

variable (showSort : SmtSort → String)

/-- The name of a pad, with the tag of its sort. -/
def cpadName (relName : String) (idx : ℕ) (sort : SmtSort) : String :=
  "__cpad_" ++ relName ++ "_" ++ toString idx ++ "_" ++ padSortTag showSort sort

/-- `realign`: pads are dropped, anchored arguments put at their positions and the others in the
first free ones of their sorts. -/
def realign (relName : String) (args : List Expr) (layout : List CanonSlot)
    (decl : List SmtSort) : Option (List Expr) :=
  (place (fun (a : Expr) s => a.sort = s) (anchorPos layout) decl
    (args.filter (!isPadArg ·))).map fun out =>
      (out.zip decl).mapIdx fun k (o, s) => o.getD (.var (cpadName showSort relName k s) s)

/-- `fix`. -/
def canonApp (vc : ChcVc) (app : RelationApp) : RelationApp × Bool :=
  match relSorts vc.relations app.name with
  | none => (app, false)
  | some decl =>
    if appConforms vc.relations app then (app, false)
    else
      match canon vc app.name with
      | none => (app, false)
      | some layout =>
        if layout.length ≠ decl.length then (app, false)
        else
          match realign showSort app.name app.args layout decl with
          | none => (app, false)
          | some args => (⟨app.name, args⟩, true)

/-- `canonicalize_block_relation_apps`. -/
def canonicalizeBlockRelationApps (vc : ChcVc) : ChcVc :=
  let fixed := vc.rules.map fun rule =>
    let (head, padded) := canonApp showSort vc rule.head
    match rule.body.relation with
    | none => ((⟨⟨none, rule.body.constraints⟩, head⟩ : Rule), padded)
    | some app =>
      let (app, padded') := canonApp showSort vc app
      (⟨⟨some app, rule.body.constraints⟩, head⟩, padded || padded')
  let vc' := { vc with rules := fixed.map Prod.fst }
  if fixed.any Prod.snd then declareUsed (·.startsWith "__cpad_") vc' else vc'

end Realign

end Relations

end TrustMc
