import TrustMc.DirectSmt.Slicing
import TrustMc.Flow.UnionFind

/-!
# The components of a conjunct list

`connected_components` partitions the conjuncts into the classes of those that are linked by a
chain of shared variables (`connectedComponents_eq`). The variables are worked off one by one; what
has been worked off is linked exactly where the roots agree (`JoinInv`).
-/

namespace TrustMc.DirectSmt

open Native Relation
open Flow (Forest linkRoots)

theorem findRoot_eq (fuel : ℕ) (parent : ℕ → ℕ) (x : ℕ) :
    findRoot fuel parent x = Flow.findRoot fuel parent x := by
  induction fuel generalizing parent x with
  | zero => rfl
  | succ fuel ih =>
    rw [findRoot, Flow.findRoot]
    split_ifs
    · rfl
    · exact ih _ _

/-- Two conjuncts have a variable in common. -/
def Shares (varSets : List (List String)) (i j : ℕ) : Prop :=
  ∃ name, name ∈ varSets.getD i [] ∧ name ∈ varSets.getD j []

/-- A chain of shared variables links the conjuncts. -/
def Linked (varSets : List (List String)) : ℕ → ℕ → Prop := ReflTransGen (Shares varSets)

/-! ### Joining -/

/-- Two conjuncts have a variable in common that has been worked off. -/
def SharesDone (done : List (ℕ × String)) (i j : ℕ) : Prop :=
  ∃ name, (i, name) ∈ done ∧ (j, name) ∈ done

/-- The roots agree where the variables that have been worked off link conjuncts, and the owner of
such a variable is one of the conjuncts that have it. -/
structure JoinInv (n : ℕ) (done : List (ℕ × String)) (st : (ℕ → ℕ) × List (String × ℕ))
    (root : ℕ → ℕ) : Prop where
  forest : Forest n st.1 root
  classes : ∀ x y, root x = root y ↔ EqvGen (SharesDone done) x y
  done_lt : ∀ p ∈ done, p.1 < n
  owner_mem : ∀ name o, st.2.lookup name = some o → (o, name) ∈ done
  owner_none : ∀ name, st.2.lookup name = none → ∀ i, (i, name) ∉ done

section Join

variable {n index : ℕ} {name : String} {done : List (ℕ × String)}

/-- A variable that has an owner links the conjunct with the owner. -/
theorem eqvGen_sharesDone_append {other : ℕ} (hother : (other, name) ∈ done) (x y : ℕ) :
    EqvGen (SharesDone (done ++ [(index, name)])) x y ↔
      EqvGen (fun x y => SharesDone done x y ∨ x = index ∧ y = other) x y := by
  have hold : ∀ {p : ℕ × String}, p ∈ done → p ∈ done ++ [(index, name)] :=
    fun h => List.mem_append_left _ h
  have hnew : EqvGen (fun x y => SharesDone done x y ∨ x = index ∧ y = other) index other :=
    .rel _ _ (.inr ⟨rfl, rfl⟩)
  constructor
  · intro h
    refine (EqvGen.is_equivalence _).eqvGen_iff.1 (h.mono fun a b => ?_)
    rintro ⟨v, ha, hb⟩
    -- what is new is linked with the owner
    have hlink : ∀ c, (c, v) ∈ done ++ [(index, name)] →
        (c, v) ∈ done ∨ c = index ∧ v = name := fun c hc => by
      rcases List.mem_append.1 hc with hc | hc
      · exact .inl hc
      · exact .inr (Prod.mk.inj (List.mem_singleton.1 hc))
    rcases hlink a ha with ha' | ⟨rfl, rfl⟩
    · rcases hlink b hb with hb' | ⟨rfl, rfl⟩
      · exact .rel _ _ (.inl ⟨v, ha', hb'⟩)
      · exact .trans _ _ _ (.rel _ _ (.inl ⟨v, ha', hother⟩)) hnew.symm
    · rcases hlink b hb with hb' | ⟨rfl, -⟩
      · exact .trans _ _ _ hnew (.rel _ _ (.inl ⟨v, hother, hb'⟩))
      · exact .refl _
  · refine fun h => h.mono fun a b hab => ?_
    rcases hab with ⟨v, ha, hb⟩ | ⟨rfl, rfl⟩
    · exact ⟨v, hold ha, hold hb⟩
    · exact ⟨name, List.mem_append_right _ List.mem_cons_self, hold hother⟩

/-- A new variable links nothing. -/
theorem eqvGen_sharesDone_append_new (hnew : ∀ i, (i, name) ∉ done) (x y : ℕ) :
    EqvGen (SharesDone (done ++ [(index, name)])) x y ↔ EqvGen (SharesDone done) x y := by
  constructor
  · intro h
    refine (EqvGen.is_equivalence _).eqvGen_iff.1 (h.mono fun a b => ?_)
    rintro ⟨v, ha, hb⟩
    rcases List.mem_append.1 ha with ha' | ha'
    · rcases List.mem_append.1 hb with hb' | hb'
      · exact .rel _ _ ⟨v, ha', hb'⟩
      · obtain ⟨-, rfl⟩ := Prod.mk.inj (List.mem_singleton.1 hb')
        exact absurd ha' (hnew a)
    · obtain ⟨rfl, rfl⟩ := Prod.mk.inj (List.mem_singleton.1 ha')
      rcases List.mem_append.1 hb with hb' | hb'
      · exact absurd hb' (hnew b)
      · obtain ⟨rfl, -⟩ := Prod.mk.inj (List.mem_singleton.1 hb')
        exact .refl _
  · exact fun h => h.mono fun a b hab => by
      obtain ⟨v, ha, hb⟩ := hab
      exact ⟨v, List.mem_append_left _ ha, List.mem_append_left _ hb⟩

/-- One variable of one conjunct is worked off. -/
theorem joinInv_joinOwner {st : (ℕ → ℕ) × List (String × ℕ)} {root : ℕ → ℕ}
    (h : JoinInv n done st root) (hindex : index < n) :
    ∃ root', JoinInv n (done ++ [(index, name)]) (joinOwner n index st name) root' := by
  have hlt : ∀ p ∈ done ++ [(index, name)], p.1 < n := fun p hp => by
    rcases List.mem_append.1 hp with hp | hp
    · exact h.done_lt p hp
    · rw [List.mem_singleton.1 hp]
      exact hindex
  cases howner : st.2.lookup name with
  | some other =>
    -- the two roots are linked, unless they are one
    have hother := h.owner_mem name other howner
    have hotherLt := h.done_lt _ hother
    obtain ⟨hforest₁, hroot₁⟩ := Flow.findRoot_spec h.forest hindex
    obtain ⟨hforest₂, hroot₂⟩ := Flow.findRoot_spec hforest₁ hotherLt
    have hstep : joinOwner n index st name =
        (if root index ≠ root other then
          Function.update (Flow.findRoot n (Flow.findRoot n st.1 index).1 other).1
            (root index) (root other)
        else (Flow.findRoot n (Flow.findRoot n st.1 index).1 other).1, st.2) := by
      rw [← hroot₁, ← hroot₂, joinOwner, howner]
      simp only [findRoot_eq]
    have hforest : Forest n (joinOwner n index st name).1
        (linkRoots root (root index) (root other)) := by
      rw [hstep]
      split_ifs with hne
      · exact hforest₂.link (hforest₂.parent_root _) (hforest₂.parent_root _) hne
          (hforest₂.root_lt _ hotherLt)
      · rw [not_not.1 hne, Flow.linkRoots_self]
        exact hforest₂
    refine ⟨_, hforest, fun x y => ?_, hlt, fun v o ho => ?_, fun v hv i hi => ?_⟩
    · rw [eqvGen_sharesDone_append hother]
      exact Flow.linkRoots_eq_iff h.classes index other x y
    · rw [hstep] at ho
      exact List.mem_append_left _ (h.owner_mem v o ho)
    · rw [hstep] at hv
      rcases List.mem_append.1 hi with hi | hi
      · exact h.owner_none v hv i hi
      · obtain ⟨-, rfl⟩ := Prod.mk.inj (List.mem_singleton.1 hi)
        rw [howner] at hv
        cases hv
  | none =>
    -- nothing done so far shares the name, so no class changes
    have hstep : joinOwner n index st name = (st.1, (name, index) :: st.2) := by
      rw [joinOwner, howner]
    have hnew := h.owner_none name howner
    rw [hstep]
    refine ⟨root, h.forest, fun x y => ?_, hlt, fun v o ho => ?_, fun v hv i hi => ?_⟩
    · rw [eqvGen_sharesDone_append_new hnew]
      exact h.classes x y
    · by_cases hv : v = name
      · subst hv
        rw [List.lookup_cons_self] at ho
        obtain rfl := Option.some.inj ho
        exact List.mem_append_right _ List.mem_cons_self
      · rw [List.lookup_cons, beq_eq_false_iff_ne.2 hv] at ho
        exact List.mem_append_left _ (h.owner_mem v o ho)
    · by_cases hvn : v = name
      · subst hvn
        rw [List.lookup_cons_self] at hv
        cases hv
      · rw [List.lookup_cons, beq_eq_false_iff_ne.2 hvn] at hv
        rcases List.mem_append.1 hi with hi | hi
        · exact h.owner_none v hv i hi
        · obtain ⟨-, rfl⟩ := Prod.mk.inj (List.mem_singleton.1 hi)
          exact hvn rfl

/-- The variables of one conjunct are worked off. -/
theorem joinInv_foldl_joinOwner {names : List String} {st : (ℕ → ℕ) × List (String × ℕ)}
    {root : ℕ → ℕ} (h : JoinInv n done st root) (hindex : index < n) :
    ∃ root', JoinInv n (done ++ names.map (index, ·)) (names.foldl (joinOwner n index) st)
      root' := by
  induction names generalizing done st root with
  | nil =>
    rw [List.map_nil, List.append_nil]
    exact ⟨root, h⟩
  | cons name names ih =>
    obtain ⟨root₁, h₁⟩ :
        ∃ root', JoinInv n (done ++ [(index, name)]) (joinOwner n index st name) root' :=
      joinInv_joinOwner h hindex
    rw [List.map_cons, List.foldl_cons, List.append_cons]
    exact ih h₁

/-- The variables of several conjuncts are worked off. -/
theorem joinInv_foldl {sets : List (List String × ℕ)} {st : (ℕ → ℕ) × List (String × ℕ)}
    {root : ℕ → ℕ} (h : JoinInv n done st root) (hsets : ∀ p ∈ sets, p.2 < n) :
    ∃ root', JoinInv n (done ++ sets.flatMap fun p => p.1.map (p.2, ·))
      (sets.foldl (fun st (vars, index) => vars.foldl (joinOwner n index) st) st) root' := by
  induction sets generalizing done st root with
  | nil =>
    rw [List.flatMap_nil, List.append_nil]
    exact ⟨root, h⟩
  | cons p sets ih =>
    obtain ⟨root₁, h₁⟩ := @joinInv_foldl_joinOwner _ _ _ p.1 _ _ h (hsets p List.mem_cons_self)
    rw [List.flatMap_cons, List.foldl_cons, ← List.append_assoc]
    exact ih h₁ fun q hq => hsets q (List.mem_cons_of_mem p hq)

end Join

/-! ### Links -/

variable {varSets : List (List String)}

instance : Std.Symm (Shares varSets) where
  symm := by
    rintro i j ⟨name, hi, hj⟩
    exact ⟨name, hj, hi⟩

theorem Linked.symm {i j : ℕ} (h : Linked varSets i j) : Linked varSets j i :=
  ReflTransGen.stdSymm.symm i j h

theorem linked_iff_eqvGen {i j : ℕ} : Linked varSets i j ↔ EqvGen (Shares varSets) i j := by
  constructor
  · intro h
    induction h with
    | refl => exact .refl i
    | tail _ hstep ih => exact .trans _ _ _ ih (.rel _ _ hstep)
  · intro h
    induction h with
    | rel _ _ h => exact .single h
    | refl _ => exact .refl
    | symm _ _ _ ih => exact Linked.symm ih
    | trans _ _ _ _ _ ih ih' => exact ih.trans ih'

/-- The table of parents after all variables. -/
def joinedParents (varSets : List (List String)) : ℕ → ℕ :=
  (varSets.zipIdx.foldl
    (fun st (vars, index) => vars.foldl (joinOwner varSets.length index) st) (id, [])).1

/-- Its roots agree where conjuncts are linked. -/
theorem exists_forest (varSets : List (List String)) :
    ∃ root, Forest varSets.length (joinedParents varSets) root ∧
      ∀ i j, root i = root j ↔ Linked varSets i j := by
  have hinit : JoinInv varSets.length [] (id, []) id := by
    refine ⟨Flow.forest_id _, fun x y => ?_, by simp, by simp, by simp⟩
    constructor
    · rintro rfl
      exact .refl _
    · intro h
      induction h with
      | rel _ _ h =>
        obtain ⟨_, h, -⟩ := h
        cases h
      | refl _ => rfl
      | symm _ _ _ ih => exact ih.symm
      | trans _ _ _ _ _ ih ih' => exact ih.trans ih'
  have hlt : ∀ p ∈ varSets.zipIdx, p.2 < varSets.length := fun p hp => by
    have := List.snd_lt_of_mem_zipIdx hp
    omega
  obtain ⟨root, h⟩ := joinInv_foldl hinit hlt
  have hdone : ∀ i name, (i, name) ∈ varSets.zipIdx.flatMap (fun p => p.1.map (p.2, ·)) ↔
      name ∈ varSets.getD i [] := by
    intro i name
    rw [List.mem_flatMap, List.getD_eq_getElem?_getD]
    constructor
    · rintro ⟨⟨names, j⟩, hmem, hname⟩
      obtain ⟨v, hv, heq⟩ := List.mem_map.1 hname
      obtain ⟨rfl, rfl⟩ := Prod.mk.inj heq
      rw [List.mem_zipIdx_iff_getElem?.1 hmem]
      exact hv
    · intro hname
      cases hget : varSets[i]? with
      | none =>
        rw [hget] at hname
        cases hname
      | some names =>
        rw [hget] at hname
        exact ⟨(names, i), List.mem_zipIdx_iff_getElem?.2 hget, List.mem_map_of_mem hname⟩
  refine ⟨root, h.forest, fun i j => ?_⟩
  rw [h.classes, linked_iff_eqvGen]
  have hshares : SharesDone ([] ++ varSets.zipIdx.flatMap fun p => p.1.map (p.2, ·)) =
      Shares varSets := by
    funext x y
    refine propext (exists_congr fun name => ?_)
    rw [List.nil_append, hdone, hdone]
  rw [hshares]

/-! ### Groups -/

/-- The indices below `k` with a root that no smaller index has. -/
def firsts (root : ℕ → ℕ) (k : ℕ) : List ℕ :=
  (List.range k).filter fun i => decide (∀ j < i, root j ≠ root i)

/-- The groups of the indices below `k`, in the order of their first members. -/
def groupsOf (root : ℕ → ℕ) (k : ℕ) : List (ℕ × List ℕ) :=
  (firsts root k).map fun f => (root f, (List.range k).filter fun i => decide (root i = root f))

theorem mem_firsts {root : ℕ → ℕ} {k i : ℕ} :
    i ∈ firsts root k ↔ i < k ∧ ∀ j < i, root j ≠ root i := by
  rw [firsts, List.mem_filter, List.mem_range, decide_eq_true_eq]

/-- Every class has a first member. -/
theorem exists_first (root : ℕ → ℕ) {j k : ℕ} (hj : j < k) :
    ∃ f ∈ firsts root k, root f = root j := by
  classical
  have hex : ∃ i, root i = root j := ⟨j, rfl⟩
  refine ⟨Nat.find hex, mem_firsts.2 ⟨?_, fun i hi heq => ?_⟩, Nat.find_spec hex⟩
  · exact (Nat.find_min' hex rfl).trans_lt hj
  · exact Nat.find_min hex hi (heq.trans (Nat.find_spec hex))

/-- The next index joins the group of its root, or begins one. -/
theorem pushGroup_groupsOf {n k : ℕ} {parent root : ℕ → ℕ} (h : Forest n parent root)
    (hk : k < n) :
    Forest n (pushGroup n (parent, groupsOf root k) k).1 root ∧
      (pushGroup n (parent, groupsOf root k) k).2 = groupsOf root (k + 1) := by
  obtain ⟨hforest, hroot⟩ := Flow.findRoot_spec h hk
  have hany : (groupsOf root k).any (·.1 == root k) = true ↔ ∃ j < k, root j = root k := by
    rw [List.any_eq_true]
    constructor
    · rintro ⟨group, hmem, heq⟩
      obtain ⟨f, hf, rfl⟩ := List.mem_map.1 hmem
      exact ⟨f, (mem_firsts.1 hf).1, eq_of_beq heq⟩
    · rintro ⟨j, hj, heq⟩
      obtain ⟨f, hf, hfj⟩ := exists_first root hj
      exact ⟨_, List.mem_map_of_mem hf, beq_iff_eq.2 (hfj.trans heq)⟩
  have hrange : ∀ f, (List.range (k + 1)).filter (fun i => decide (root i = root f)) =
      (List.range k).filter (fun i => decide (root i = root f)) ++
        if root k = root f then [k] else [] := fun f => by
    rw [List.range_succ, List.filter_append]
    by_cases hkf : root k = root f
    · simp [hkf]
    · simp [hkf]
  rw [pushGroup]
  simp only [findRoot_eq, hroot]
  split_ifs with hold
  · refine ⟨hforest, ?_⟩
    obtain ⟨j, hj, hjk⟩ := hany.1 hold
    have hfirsts : firsts root (k + 1) = firsts root k := by
      rw [firsts, List.range_succ, List.filter_append, ← firsts,
        List.filter_eq_nil_iff.2 (by simpa using ⟨j, hj, hjk⟩), List.append_nil]
    rw [groupsOf, groupsOf, hfirsts, List.map_map]
    refine List.map_congr_left fun f _ => ?_
    rw [hrange f]
    by_cases hkf : root k = root f
    · simp [hkf]
    · simp [hkf, Ne.symm hkf]
  · refine ⟨hforest, ?_⟩
    have hnew : ∀ j < k, root j ≠ root k := fun j hj heq => hold (hany.2 ⟨j, hj, heq⟩)
    have hfirsts : firsts root (k + 1) = firsts root k ++ [k] := by
      rw [firsts, List.range_succ, List.filter_append, ← firsts]
      simpa using hnew
    rw [groupsOf, groupsOf, hfirsts, List.map_append]
    refine congrArg₂ (· ++ ·) ?_ ?_
    · refine List.map_congr_left fun f hf => ?_
      rw [hrange f, if_neg (hnew f (mem_firsts.1 hf).1).symm, List.append_nil]
    · rw [List.map_singleton, hrange k, if_pos rfl, List.filter_eq_nil_iff.2 (by simpa using hnew)]
      rfl

open Classical in
/-- **The components** are the classes of the linked conjuncts, each in order, and in the order of
their first members. -/
theorem connectedComponents_eq (varSets : List (List String)) :
    connectedComponents varSets =
      ((List.range varSets.length).filter fun i => decide (∀ j < i, ¬ Linked varSets j i)).map
        fun i => (List.range varSets.length).filter fun j => decide (Linked varSets j i) := by
  obtain ⟨root, hforest, hroot⟩ := exists_forest varSets
  have hgroups : ∀ k ≤ varSets.length,
      Forest varSets.length ((List.range k).foldl (pushGroup varSets.length)
        (joinedParents varSets, [])).1 root ∧
      ((List.range k).foldl (pushGroup varSets.length) (joinedParents varSets, [])).2 =
        groupsOf root k := by
    intro k
    induction k with
    | zero => exact fun _ => ⟨hforest, rfl⟩
    | succ k ih =>
      intro hk
      obtain ⟨hf, hg⟩ := ih (by omega)
      have hstep := pushGroup_groupsOf hf hk
      rw [← hg] at hstep
      rw [List.range_succ, List.foldl_append]
      exact hstep
  have hresult : connectedComponents varSets = (groupsOf root varSets.length).map Prod.snd := by
    rw [← (hgroups _ le_rfl).2]
    rfl
  rw [hresult, groupsOf, List.map_map, firsts]
  simp only [hroot, ne_eq, Function.comp_def]

/-- Each index is in exactly one component. -/
theorem connectedComponents_perm (varSets : List (List String)) :
    (connectedComponents varSets).flatten.Perm (List.range varSets.length) := by
  classical
  rw [connectedComponents_eq]
  set firstOnes := (List.range varSets.length).filter fun i => decide (∀ j < i, ¬ Linked varSets j i)
    with hfirstOnes
  have hmem : ∀ {i}, i ∈ firstOnes ↔ i < varSets.length ∧ ∀ j < i, ¬ Linked varSets j i := by
    intro i
    rw [hfirstOnes, List.mem_filter, List.mem_range, decide_eq_true_eq]
  refine (List.perm_ext_iff_of_nodup (List.nodup_flatten.2 ⟨?_, ?_⟩) List.nodup_range).2 ?_
  · intro l hl
    obtain ⟨i, -, rfl⟩ := List.mem_map.1 hl
    exact List.nodup_range.filter _
  · -- two first members are not linked
    refine List.pairwise_map.2 (List.Pairwise.imp_of_mem ?_
      (List.pairwise_lt_range.sublist List.filter_sublist))
    intro i i' hi hi' hlt j hj hj'
    rw [List.mem_filter, decide_eq_true_eq] at hj hj'
    exact (hmem.1 hi').2 i hlt (hj.2.symm.trans hj'.2)
  · intro j
    rw [List.mem_range, List.mem_flatten]
    constructor
    · rintro ⟨l, hl, hj⟩
      obtain ⟨i, -, rfl⟩ := List.mem_map.1 hl
      exact List.mem_range.1 (List.mem_filter.1 hj).1
    · intro hj
      have hex : ∃ i, Linked varSets i j := ⟨j, .refl⟩
      refine ⟨_, List.mem_map_of_mem (hmem.2 ⟨?_, fun i hi hlink => ?_⟩), List.mem_filter.2
        ⟨List.mem_range.2 hj, decide_eq_true (Nat.find_spec hex).symm⟩⟩
      · exact (Nat.find_min' hex .refl).trans_lt hj
      · exact Nat.find_min hex hi (hlink.trans (Nat.find_spec hex))

open Classical in
/-- **Slicing is exact**: the components are the classes of the linked conjuncts, each index once
and in order, and the slices are distinct proper subsets, the smaller ones first. -/
theorem slicing_exact :
    (∀ varSets : List (List String),
      connectedComponents varSets =
        ((List.range varSets.length).filter fun i => decide (∀ j < i, ¬ Linked varSets j i)).map
          (fun i => (List.range varSets.length).filter fun j => decide (Linked varSets j i)) ∧
      (connectedComponents varSets).flatten.Perm (List.range varSets.length)) ∧
    ∀ (crate : ExprCrate) (conjuncts : List ChcExpr),
      (∀ slice ∈ relevanceSlices crate conjuncts, slice ≠ [] ∧ slice.Pairwise (· < ·) ∧
        (∀ i ∈ slice, i < conjuncts.length) ∧ slice.length < conjuncts.length) ∧
      (relevanceSlices crate conjuncts).Pairwise fun a b => a.length ≤ b.length ∧ a ≠ b := by
  refine ⟨fun varSets => ⟨connectedComponents_eq varSets, connectedComponents_perm varSets⟩,
    fun crate conjuncts => ⟨fun slice hslice => ?_, ?_⟩⟩
  · have h := isCandidate_of_mem_relevanceSlices hslice
    exact ⟨h.ne_nil, h.increasing, h.lt_of_mem, h.length_lt⟩
  · exact (pairwise_relevanceSlices crate conjuncts).imp fun h =>
      ⟨length_le_of_candidateLe h.1, h.2⟩

end TrustMc.DirectSmt
