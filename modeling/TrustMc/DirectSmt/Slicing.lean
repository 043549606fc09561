import TrustMc.DirectSmt.Crate
import TrustMc.LoopUnroll.Cfg

/-!
# Relevance slicing

The model of `relevance_slicing.rs`: candidate subsets of the conjuncts of a body, as lists of
their indices. The components of the graph of shared variable names come first, and the cones
of influence of the most specific conjuncts of the largest component second; the smallest
candidates are probed first.

Any subset of the conjuncts may be probed, so nothing depends on which ones these are; they are
proper subsets (`isCandidate_of_mem_relevanceSlices`).
-/

namespace TrustMc.DirectSmt

open Native LoopUnroll

/-- `MIN_CONJUNCTS`. -/
def minConjuncts : ℕ := 8

/-- `MAX_SLICES`. -/
def maxSlices : ℕ := 64

/-- `TIER2_MIN_COMPONENT`. -/
def tier2MinComponent : ℕ := 12

/-- `TIER2_MAX_SEEDS`. -/
def tier2MaxSeeds : ℕ := 16

/-- `TIER2_MAX_DEPTH`. -/
def tier2MaxDepth : ℕ := 2

/-- `flat_conjuncts`. -/
def flatConjuncts (crate : ExprCrate) (constraints : List ChcExpr) : List ChcExpr :=
  constraints.flatMap crate.conjuncts

/-- `conjunct_var_sets`: the names of each conjunct's variables, in order. -/
def conjunctVarSets (crate : ExprCrate) (conjuncts : List ChcExpr) : List (List String) :=
  conjuncts.map fun conjunct =>
    ((crate.vars conjunct).map ChcVar.name).dedup.insertionSort (· ≤ ·)

/-- `push_candidate`: a proper nonempty subset is a candidate. -/
def pushCandidate (candidates : List (List ℕ)) (slice : List ℕ) (total : ℕ) : List (List ℕ) :=
  let slice := sortDedup slice
  if slice.isEmpty ∨ total ≤ slice.length then candidates else candidates ++ [slice]

/-! ### Components -/

/-- The root of an index, with the path halved on the way; a path holds each index once. -/
def findRoot : ℕ → (ℕ → ℕ) → ℕ → (ℕ → ℕ) × ℕ
  | 0, parent, x => (parent, x)
  | fuel + 1, parent, x =>
    if parent x = x then (parent, x)
    else
      let parent := Function.update parent x (parent (parent x))
      findRoot fuel parent (parent x)

/-- One variable of a conjunct: the conjunct is joined with the first one that has it. -/
def joinOwner (n index : ℕ) (st : (ℕ → ℕ) × List (String × ℕ)) (name : String) :
    (ℕ → ℕ) × List (String × ℕ) :=
  match st.2.lookup name with
  | some other =>
    let (parent, a) := findRoot n st.1 index
    let (parent, b) := findRoot n parent other
    (if a ≠ b then Function.update parent a b else parent, st.2)
  | none => (st.1, (name, index) :: st.2)

/-- One index is put into the group of its root. -/
def pushGroup (n : ℕ) (st : (ℕ → ℕ) × List (ℕ × List ℕ)) (index : ℕ) :
    (ℕ → ℕ) × List (ℕ × List ℕ) :=
  let (parent, root) := findRoot n st.1 index
  if st.2.any (·.1 == root) then
    (parent, st.2.map fun group => if group.1 = root then (root, group.2 ++ [index]) else group)
  else (parent, st.2 ++ [(root, [index])])

/-- `connected_components`. -/
def connectedComponents (varSets : List (List String)) : List (List ℕ) :=
  let n := varSets.length
  let (parent, _) := varSets.zipIdx.foldl
    (fun st (vars, index) => vars.foldl (joinOwner n index) st) (id, [])
  ((List.range n).foldl (pushGroup n) (parent, [])).2.map Prod.snd

/-! ### Cones -/

/-- `grow_cone`. -/
def growCone (cone component : List ℕ) (varSets : List (List String)) : List ℕ :=
  let frontier := cone.flatMap fun index => varSets.getD index []
  cone ++ component.filter fun index =>
    !cone.contains index && (varSets.getD index []).any (frontier.contains ·)

/-- The cones of one seed. -/
def pushCones (largest : List ℕ) (varSets : List (List String)) (total : ℕ) :
    ℕ → List ℕ → List (List ℕ) → List (List ℕ)
  | 0, _, candidates => candidates
  | depth + 1, cone, candidates =>
    let grown := growCone cone largest varSets
    if grown.length = cone.length then candidates
    else
      let candidates := pushCandidate candidates grown total
      if grown.length = largest.length then candidates
      else pushCones largest varSets total depth grown candidates

/-- The last of the longest components. -/
def largestComponent : List (List ℕ) → Option (List ℕ)
  | [] => none
  | component :: components =>
    some (components.foldl (fun best c => if best.length ≤ c.length then c else best) component)

/-- The order of the candidates: by length, then by content. -/
def candidateLe (a b : List ℕ) : Prop := a.length < b.length ∨ a.length = b.length ∧ a ≤ b

instance : DecidableRel candidateLe := fun _ _ => inferInstanceAs (Decidable (_ ∨ _))

/-- The order of the seeds: by the number of their variables, then by index. -/
def seedLe (varSets : List (List String)) (i j : ℕ) : Prop :=
  (varSets.getD i []).length < (varSets.getD j []).length ∨
    (varSets.getD i []).length = (varSets.getD j []).length ∧ i ≤ j

instance (varSets : List (List String)) : DecidableRel (seedLe varSets) :=
  fun _ _ => inferInstanceAs (Decidable (_ ∨ _))

/-- `Vec::dedup` on candidates. -/
def dedupSlices : List (List ℕ) → List (List ℕ)
  | [] => []
  | [a] => [a]
  | a :: b :: l => if a = b then dedupSlices (b :: l) else a :: dedupSlices (b :: l)

/-- `relevance_slices`. -/
def relevanceSlices (crate : ExprCrate) (conjuncts : List ChcExpr) : List (List ℕ) :=
  let total := conjuncts.length
  if total < minConjuncts then []
  else
    let varSets := conjunctVarSets crate conjuncts
    let components := connectedComponents varSets
    let candidates := components.foldl (fun cs component => pushCandidate cs component total) []
    let candidates :=
      match largestComponent components with
      | some largest =>
        if tier2MinComponent ≤ largest.length then
          ((largest.insertionSort (seedLe varSets)).take tier2MaxSeeds).foldl
            (fun cs seed => pushCones largest varSets total tier2MaxDepth [seed] cs) candidates
        else candidates
      | none => candidates
    (dedupSlices (candidates.insertionSort candidateLe)).take maxSlices

/-! ### Candidates are subsets -/

/-- What holds of a candidate. -/
structure IsCandidate (total : ℕ) (slice : List ℕ) : Prop where
  ne_nil : slice ≠ []
  length_lt : slice.length < total
  lt_of_mem : ∀ i ∈ slice, i < total
  increasing : slice.Pairwise (· < ·)

theorem isCandidate_pushCandidate {candidates : List (List ℕ)} {slice : List ℕ} {total : ℕ}
    (hcs : ∀ s ∈ candidates, IsCandidate total s) (hslice : ∀ i ∈ slice, i < total) :
    ∀ s ∈ pushCandidate candidates slice total, IsCandidate total s := by
  rw [pushCandidate]
  split_ifs with h
  · exact hcs
  · intro s hs
    rcases List.mem_append.1 hs with hs | hs
    · exact hcs s hs
    · obtain rfl := List.mem_singleton.1 hs
      rw [not_or, Nat.not_le, List.isEmpty_iff] at h
      exact ⟨h.1, h.2, fun i hi => hslice i (mem_sortDedup.1 hi), pairwise_lt_sortDedup slice⟩

/-- The components hold indices of conjuncts. -/
theorem lt_of_mem_components {varSets : List (List String)} {component : List ℕ}
    (h : component ∈ connectedComponents varSets) : ∀ i ∈ component, i < varSets.length := by
  have hgroups := fun parent => List.foldlRecOn
    (motive := fun st => ∀ g ∈ st.2, ∀ i ∈ g.2, i < varSets.length)
    (List.range varSets.length) (pushGroup varSets.length) (b := (parent, [])) (by simp)
    fun st hst index hindex g hg => by
      have hindex := List.mem_range.1 hindex
      simp only [pushGroup] at hg
      split_ifs at hg
      · obtain ⟨g', hg', rfl⟩ := List.mem_map.1 hg
        split_ifs
        · intro i hi
          rcases List.mem_append.1 hi with hi | hi
          · exact hst g' hg' i hi
          · exact (List.mem_singleton.1 hi) ▸ hindex
        · exact hst g' hg'
      · rcases List.mem_append.1 hg with hg | hg
        · exact hst g hg
        · obtain rfl := List.mem_singleton.1 hg
          simpa using hindex
  obtain ⟨g, hg, rfl⟩ := List.mem_map.1 h
  exact hgroups _ g hg

theorem isCandidate_pushCones {largest : List ℕ} {varSets : List (List String)} {total depth : ℕ}
    (hlargest : ∀ i ∈ largest, i < total) {cone : List ℕ} (hcone : ∀ i ∈ cone, i < total)
    {candidates : List (List ℕ)} (hcs : ∀ s ∈ candidates, IsCandidate total s) :
    ∀ s ∈ pushCones largest varSets total depth cone candidates, IsCandidate total s := by
  induction depth generalizing cone candidates with
  | zero => exact hcs
  | succ depth ih =>
    have hgrown : ∀ i ∈ growCone cone largest varSets, i < total := fun i hi => by
      rcases List.mem_append.1 hi with hi | hi
      · exact hcone i hi
      · exact hlargest i (List.mem_filter.1 hi).1
    have hpush := isCandidate_pushCandidate hcs hgrown
    simp only [pushCones]
    split_ifs
    · exact hcs
    · exact hpush
    · exact ih hgrown hpush

theorem mem_of_mem_dedupSlices {s : List ℕ} {l : List (List ℕ)} (h : s ∈ dedupSlices l) :
    s ∈ l := by
  induction l using dedupSlices.induct with
  | case1 => exact h
  | case2 a => exact h
  | case3 a l ih =>
    rw [dedupSlices, if_pos rfl] at h
    exact List.mem_cons_of_mem _ (ih h)
  | case4 a b l hne ih =>
    rw [dedupSlices, if_neg hne] at h
    rcases List.mem_cons.1 h with rfl | h
    · exact List.mem_cons_self
    · exact List.mem_cons_of_mem _ (ih h)

theorem mem_of_largestComponent {components : List (List ℕ)} {largest : List ℕ}
    (h : largestComponent components = some largest) : largest ∈ components := by
  cases components with
  | nil => cases h
  | cons component components =>
    obtain rfl := Option.some.inj h
    have hfold : ∀ (l : List (List ℕ)) (best : List ℕ),
        l.foldl (fun best c => if best.length ≤ c.length then c else best) best ∈ best :: l := by
      intro l
      induction l with
      | nil => simp
      | cons c l ih =>
        intro best
        rw [List.foldl_cons]
        split_ifs
        · exact List.mem_cons_of_mem _ (ih c)
        · rcases List.mem_cons.1 (ih best) with h | h
          · rw [h]
            exact List.mem_cons_self
          · exact List.mem_cons_of_mem _ (List.mem_cons_of_mem _ h)
    exact hfold components component

theorem isCandidate_of_mem_relevanceSlices {crate : ExprCrate} {conjuncts : List ChcExpr}
    {slice : List ℕ} (h : slice ∈ relevanceSlices crate conjuncts) :
    IsCandidate conjuncts.length slice := by
  simp only [relevanceSlices] at h
  split_ifs at h with hmin
  · exact absurd h List.not_mem_nil
  · have hlen : (conjunctVarSets crate conjuncts).length = conjuncts.length := by
      simp [conjunctVarSets]
    have hcomponent : ∀ component ∈ connectedComponents (conjunctVarSets crate conjuncts),
        ∀ i ∈ component, i < conjuncts.length := fun component hc i hi =>
      hlen ▸ lt_of_mem_components hc i hi
    have hfirst := List.foldlRecOn
      (motive := fun cs => ∀ s ∈ cs, IsCandidate conjuncts.length s)
      (connectedComponents (conjunctVarSets crate conjuncts))
      (fun cs component => pushCandidate cs component conjuncts.length) (b := []) (by simp)
      fun cs hcs component hc => isCandidate_pushCandidate hcs (hcomponent component hc)
    have hmem := (List.mem_insertionSort _).1 (mem_of_mem_dedupSlices (List.mem_of_mem_take h))
    split at hmem
    · rename_i largest hlargest
      have hlt := hcomponent largest (mem_of_largestComponent hlargest)
      split_ifs at hmem
      · refine List.foldlRecOn (motive := fun cs => ∀ s ∈ cs, IsCandidate conjuncts.length s)
          _ _ hfirst (fun cs hcs seed hseed => ?_) slice hmem
        have hseed := (List.mem_insertionSort _).1 (List.mem_of_mem_take hseed)
        exact isCandidate_pushCones hlt (by simpa using hlt seed hseed) hcs
      · exact hfirst slice hmem
    · exact hfirst slice hmem

/-! ### The order of the candidates -/

theorem candidateLe_trans {a b c : List ℕ} (hab : candidateLe a b) (hbc : candidateLe b c) :
    candidateLe a c := by
  rcases hab with hab | ⟨hab, hle⟩
  · rcases hbc with hbc | ⟨hbc, -⟩
    · exact .inl (hab.trans hbc)
    · exact .inl (hbc ▸ hab)
  · rcases hbc with hbc | ⟨hbc, hle'⟩
    · exact .inl (hab ▸ hbc)
    · exact .inr ⟨hab.trans hbc, hle.trans hle'⟩

theorem candidateLe_antisymm {a b : List ℕ} (hab : candidateLe a b) (hba : candidateLe b a) :
    a = b := by
  rcases hab with hab | ⟨hab, hle⟩
  · rcases hba with hba | ⟨hba, -⟩ <;> omega
  · rcases hba with hba | ⟨-, hle'⟩
    · omega
    · exact le_antisymm hle hle'

theorem length_le_of_candidateLe {a b : List ℕ} (h : candidateLe a b) : a.length ≤ b.length := by
  rcases h with h | ⟨h, -⟩
  · exact h.le
  · exact h.le

instance : IsTrans (List ℕ) candidateLe := ⟨fun _ _ _ => candidateLe_trans⟩

instance : Std.Total candidateLe where
  total a b := by
    rcases lt_trichotomy a.length b.length with h | h | h
    · exact .inl (.inl h)
    · rcases le_total a b with hle | hle
      · exact .inl (.inr ⟨h, hle⟩)
      · exact .inr (.inr ⟨h.symm, hle⟩)
    · exact .inr (.inl h)

/-- Equal slices in order stand next to each other, so none is left twice. -/
theorem pairwise_dedupSlices {l : List (List ℕ)} (h : l.Pairwise candidateLe) :
    (dedupSlices l).Pairwise fun a b => candidateLe a b ∧ a ≠ b := by
  induction l using dedupSlices.induct with
  | case1 => exact .nil
  | case2 a => exact List.pairwise_singleton _ a
  | case3 a l ih =>
    rw [dedupSlices, if_pos rfl]
    exact ih h.of_cons
  | case4 a b l hne ih =>
    rw [dedupSlices, if_neg hne]
    obtain ⟨ha, hl⟩ := List.pairwise_cons.1 h
    have hab : candidateLe a b := ha b List.mem_cons_self
    refine List.pairwise_cons.2 ⟨fun x hx => ?_, ih hl⟩
    rcases List.mem_cons.1 (mem_of_mem_dedupSlices hx) with rfl | hx
    · exact ⟨hab, hne⟩
    · have hbx := (List.pairwise_cons.1 hl).1 x hx
      refine ⟨candidateLe_trans hab hbx, ?_⟩
      rintro rfl
      exact hne (candidateLe_antisymm hab hbx)

/-- The slices are in order, each of them once. -/
theorem pairwise_relevanceSlices (crate : ExprCrate) (conjuncts : List ChcExpr) :
    (relevanceSlices crate conjuncts).Pairwise fun a b => candidateLe a b ∧ a ≠ b := by
  rw [relevanceSlices]
  split_ifs
  · exact .nil
  · exact (pairwise_dedupSlices (List.pairwise_insertionSort _ _)).sublist (List.take_sublist _ _)

end TrustMc.DirectSmt
