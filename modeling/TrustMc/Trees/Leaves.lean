import Mathlib.Data.List.Basic
import Mathlib.Algebra.BigOperators.Group.List.Basic
import Mathlib.Algebra.Order.BigOperators.Group.List
import Mathlib.Algebra.Order.Ring.Nat

/-!
# Leaves of trees cut at a depth

A tree is given by the lists of children of its nodes. Cut at depth `n`, its leaves from left to
right are its childless nodes and its nodes at depth `n`. Numbering the leaves by walking down a
path and counting the leaves to the left counts **from every level anew**, and so sees trees cut
deeper than the whole is.

* `leaves_split`: the leaves below a node, or the one leaf above it, are a segment.
* `Thin`: below depth `n` every node has one child at most.
* `occupies_iff_of_thin`, `thin_of_occupies_iff`: the count from every level finds the
  segment of every node exactly when the tree is thin below the cut.
-/

namespace Trees

variable {S : Type*} (children : S → Option (List S))

/-- The leaves of a tree cut at a depth, each with the path to it. -/
def leaves : ℕ → S → List (List ℕ × S)
  | 0, s => [([], s)]
  | n + 1, s =>
    match children s with
    | none => [([], s)]
    | some cs => cs.zipIdx.flatMap fun (c, j) => (leaves n c).map fun l => (j :: l.1, l.2)

/-- The node at the end of a path. -/
def nodeAt : S → List ℕ → Option S
  | s, [] => some s
  | s, j :: p => do
    let cs ← children s
    let c ← cs[j]?
    nodeAt c p

/-- The number of leaves. -/
def leafCount (n : ℕ) (s : S) : ℕ := (leaves children n s).length

/-- The number of leaves left of a path, every tree beside it cut at depth `m` by itself. -/
def startAt (m : ℕ) : S → List ℕ → ℕ
  | _, [] => 0
  | s, j :: p =>
    match children s with
    | none => 0
    | some cs =>
      ((cs.take j).map (leafCount children m)).sum +
        match cs[j]? with
        | none => 0
        | some c => startAt m c p

/-- One path extends the other. -/
def Comparable (p q : List ℕ) : Prop := p <+: q ∨ q <+: p

/-- The leaf number `i` of a tree cut at a depth is above or below the path. -/
def Occupies (n : ℕ) (s : S) (p : List ℕ) (i : ℕ) : Prop :=
  ∃ l, (leaves children n s)[i]? = some l ∧ Comparable l.1 p

/-- From depth `n` on, no node has more or fewer children than one. -/
def Thin (n : ℕ) (s : S) : Prop :=
  ∀ p t cs, n ≤ p.length → nodeAt children s p = some t → children t = some cs → cs.length = 1

variable {children} {n m : ℕ} {s t : S} {p q : List ℕ}

@[simp] theorem nodeAt_nil : nodeAt children s [] = some s := rfl

theorem nodeAt_cons {j : ℕ} :
    nodeAt children s (j :: p) = some t ↔
      ∃ cs c, children s = some cs ∧ cs[j]? = some c ∧ nodeAt children c p = some t := by
  simp [nodeAt, Option.bind_eq_some_iff]

theorem nodeAt_append {u : S} (h : nodeAt children s p = some u) :
    nodeAt children s (p ++ q) = nodeAt children u q := by
  induction p generalizing s with
  | nil => rw [nodeAt_nil, Option.some.injEq] at h; rw [h, List.nil_append]
  | cons j p ih =>
    obtain ⟨cs, c, hcs, hc, h⟩ := nodeAt_cons.1 h
    rw [List.cons_append, nodeAt, hcs, Option.bind_eq_bind, Option.bind_some, hc,
      Option.bind_eq_bind, Option.bind_some, ih h]

/-! ### Counting -/

@[simp] theorem leafCount_zero : leafCount children 0 s = 1 := rfl

theorem leafCount_childless (h : children s = none) : leafCount children n s = 1 := by
  cases n with
  | zero => rfl
  | succ n => simp [leafCount, leaves, h]

/-- The leaves below the children of a node, numbered from `k` on. -/
private def childLeaves (children : S → Option (List S)) (n : ℕ) (cs : List S) (k : ℕ) :
    List (List ℕ × S) :=
  (cs.zipIdx k).flatMap fun (c, j) => (leaves children n c).map fun l => (j :: l.1, l.2)

private theorem leaves_succ {cs : List S} (h : children s = some cs) :
    leaves children (n + 1) s = childLeaves children n cs 0 := by
  rw [leaves, h]
  rfl

private theorem length_childLeaves {cs : List S} {k : ℕ} :
    (childLeaves children n cs k).length = (cs.map (leafCount children n)).sum := by
  induction cs generalizing k with
  | nil => rfl
  | cons c cs ih =>
    have h := ih (k := k + 1)
    rw [childLeaves] at h ⊢
    simp [List.zipIdx_cons, h, leafCount]

private theorem childLeaves_append {cs ds : List S} {k : ℕ} :
    childLeaves children n (cs ++ ds) k =
      childLeaves children n cs k ++ childLeaves children n ds (k + cs.length) := by
  simp [childLeaves, List.zipIdx_append]

private theorem of_mem_childLeaves {cs : List S} {k : ℕ} {l : List ℕ × S}
    (h : l ∈ childLeaves children n cs k) :
    ∃ j q, l.1 = j :: q ∧ k ≤ j ∧ j < k + cs.length := by
  simp only [childLeaves, List.mem_flatMap, List.mem_map, Prod.exists] at h
  obtain ⟨c, j, hj, q, t, -, rfl⟩ := h
  obtain ⟨hk, hlt, -⟩ := List.mem_zipIdx hj
  exact ⟨j, q, rfl, hk, hlt⟩

theorem leafCount_succ {cs : List S} (h : children s = some cs) :
    leafCount children (n + 1) s = (cs.map (leafCount children n)).sum := by
  rw [leafCount, leaves_succ h, length_childLeaves]

/-- A tree without leaves keeps being without, cut deeper. -/
theorem leafCount_eq_zero_mono (h : leafCount children n s = 0) :
    leafCount children (n + 1) s = 0 := by
  induction n generalizing s with
  | zero => simp at h
  | succ n ih =>
    cases hs : children s with
    | none => simp [leafCount_childless hs] at h
    | some cs =>
      rw [leafCount_succ hs] at h ⊢
      rw [List.sum_eq_zero_iff_forall_eq_nat] at h ⊢
      simp only [List.mem_map, forall_exists_index, and_imp, forall_apply_eq_imp_iff₂] at h ⊢
      exact fun c hc => ih (h c hc)

/-! ### Thin trees -/

theorem Thin.mono (h : Thin children n s) (hn : n ≤ m) : Thin children m s :=
  fun p t cs hp => h p t cs (hn.trans hp)

theorem Thin.child {cs : List S} (h : Thin children n s) (hs : children s = some cs) {c : S}
    (hc : c ∈ cs) : Thin children (n - 1) c := by
  obtain ⟨j, hj⟩ := List.mem_iff_getElem?.1 hc
  intro p t ds hp ht
  exact h (j :: p) t ds (by simp; omega) (nodeAt_cons.2 ⟨cs, c, hs, hj, ht⟩)

theorem Thin.descend (h : Thin children n s) (ht : nodeAt children s p = some t) :
    Thin children (n - p.length) t := by
  intro q u cs hq hu
  refine h (p ++ q) u cs (by simp; omega) ?_
  rw [nodeAt_append ht, hu]

theorem Thin.exists_child {cs : List S} (h : Thin children 0 s) (hs : children s = some cs) :
    ∃ c, cs = [c] ∧ Thin children 0 c := by
  obtain ⟨c, rfl⟩ := List.length_eq_one_iff.1 (h [] s cs (Nat.zero_le _) rfl hs)
  exact ⟨c, rfl, h.child hs (by simp)⟩

theorem Thin.leafCount_eq_one (h : Thin children 0 s) : leafCount children m s = 1 := by
  induction m generalizing s with
  | zero => rfl
  | succ m ih =>
    cases hs : children s with
    | none => exact leafCount_childless hs
    | some cs =>
      obtain ⟨c, rfl, hc⟩ := h.exists_child hs
      simp [leafCount_succ hs, ih hc]

/-- Cutting a thin tree deeper does not change the number of its leaves. -/
theorem Thin.leafCount_eq (h : Thin children n s) (hn : n ≤ m) :
    leafCount children m s = leafCount children n s := by
  induction n generalizing m s with
  | zero => rw [h.leafCount_eq_one, leafCount_zero]
  | succ n ih =>
    obtain ⟨m, rfl⟩ := Nat.exists_eq_add_of_le' (show 1 ≤ m by omega)
    cases hs : children s with
    | none => rw [leafCount_childless hs, leafCount_childless hs]
    | some cs =>
      rw [leafCount_succ hs, leafCount_succ hs]
      congr 1
      exact List.map_congr_left fun c hc => ih (h.child hs hc) (by omega)

/-! ### Segments -/

theorem comparable_cons {j k : ℕ} :
    Comparable (j :: p) (k :: q) ↔ j = k ∧ Comparable p q := by
  simp only [Comparable, List.cons_prefix_cons]
  constructor
  · rintro (⟨rfl, h⟩ | ⟨rfl, h⟩)
    · exact ⟨rfl, .inl h⟩
    · exact ⟨rfl, .inr h⟩
  · rintro ⟨rfl, h | h⟩
    · exact .inl ⟨rfl, h⟩
    · exact .inr ⟨rfl, h⟩

/-- The leaves above or below the node `t` at the path `p`, among the leaves of a tree cut at
depth `n`; `before` is the number of the leaves left of them. -/
structure Segment (children : S → Option (List S)) (n : ℕ) (s : S) (p : List ℕ) (t : S)
    (before : ℕ) (mid : List (List ℕ × S)) : Prop where
  split : ∃ left right, leaves children n s = left ++ mid ++ right ∧ left.length = before ∧
    ∀ l, l ∈ left ∨ l ∈ right → ¬ Comparable l.1 p
  comparable : ∀ l ∈ mid, Comparable l.1 p
  length : mid.length = leafCount children (n - p.length) t
  /-- Every leaf leads on to a childless node, and is no other node above the cut. -/
  leads : children t = none → ∀ l ∈ mid, (l.2 = t ∨ n ≤ l.1.length) ∧
    ∃ r, nodeAt children s l.1 = some l.2 ∧ nodeAt children l.2 r = some t

theorem exists_segment (n : ℕ) (h : nodeAt children s p = some t) :
    ∃ mid before, Segment children n s p t before mid ∧
      (Thin children n s → ∀ m, n ≤ m → before = startAt children m s p) := by
  induction p generalizing n s with
  | nil =>
    -- every leaf is below the root
    rw [nodeAt_nil, Option.some.injEq] at h
    subst h
    refine ⟨leaves children n s, 0, ⟨⟨[], [], by simp, rfl, by simp⟩, fun l _ => .inr ?_, rfl,
      fun hs l hl => ?_⟩, fun _ m _ => rfl⟩
    · exact List.nil_prefix
    · have hleaf : leaves children n s = [([], s)] := by cases n <;> simp [leaves, hs]
      rw [hleaf, List.mem_singleton] at hl
      subst hl
      exact ⟨.inl rfl, [], rfl, rfl⟩
  | cons j p ih =>
    obtain ⟨cs, c, hcs, hc, h⟩ := nodeAt_cons.1 h
    cases n with
    | zero =>
      -- the whole tree is one leaf
      refine ⟨[([], s)], 0, ⟨⟨[], [], by simp [leaves], rfl, by simp⟩, ?_, by simp, ?_⟩, ?_⟩
      · simp [Comparable]
      · simp only [List.mem_singleton, forall_eq, nodeAt_nil, true_and]
        exact fun _ => ⟨.inr (Nat.zero_le _), j :: p, nodeAt_cons.2 ⟨cs, c, hcs, hc, h⟩⟩
      · intro hthin m _
        obtain ⟨c', rfl, hthin'⟩ := hthin.exists_child hcs
        obtain ⟨rfl, rfl⟩ : j = 0 ∧ c' = c := by
          rw [List.getElem?_singleton] at hc
          split_ifs at hc with hj
          exact ⟨hj, by simpa using hc⟩
        obtain ⟨_, before, hseg, hstart⟩ := ih 0 h
        obtain ⟨left, right, hsplit, hlen, -⟩ := hseg.split
        have hmid := hseg.length
        have hone := congrArg List.length hsplit
        simp only [leaves, List.length_append, List.length_singleton, Nat.zero_sub,
          leafCount_zero] at hone hmid
        simp only [startAt, hcs, List.take_zero, List.map_nil, List.sum_nil,
          List.getElem?_cons_zero, ← hstart hthin' m (Nat.zero_le _)]
        omega
    | succ n =>
      obtain ⟨hj, rfl⟩ := List.getElem?_eq_some_iff.1 hc
      have hcs' : cs = cs.take j ++ cs[j] :: cs.drop (j + 1) := by simp
      have hlen : (cs.take j).length = j := by simp; omega
      have hsplit : leaves children (n + 1) s = childLeaves children n (cs.take j) 0 ++
          (leaves children n cs[j]).map (fun l => (j :: l.1, l.2)) ++
          childLeaves children n (cs.drop (j + 1)) (j + 1) := by
        rw [leaves_succ hcs]
        conv_lhs => rw [hcs']
        rw [childLeaves_append, hlen, Nat.zero_add, List.append_assoc]
        rfl
      obtain ⟨mid, before, hseg, hstart⟩ := ih n h
      obtain ⟨left, right, hsplit', hbefore, hout⟩ := hseg.split
      refine ⟨mid.map fun l => (j :: l.1, l.2),
        ((cs.take j).map (leafCount children n)).sum + before, ⟨?_, ?_, ?_, ?_⟩, ?_⟩
      · refine ⟨childLeaves children n (cs.take j) 0 ++ left.map fun l => (j :: l.1, l.2),
          (right.map fun l => (j :: l.1, l.2)) ++ childLeaves children n (cs.drop (j + 1)) (j + 1),
          ?_, ?_, ?_⟩
        · rw [hsplit, hsplit']
          simp
        · rw [List.length_append, length_childLeaves, List.length_map, hbefore]
        · -- the leaves beside the child differ from the path in the first step
          have hbeside : ∀ l, l ∈ childLeaves children n (cs.take j) 0 ∨
              l ∈ childLeaves children n (cs.drop (j + 1)) (j + 1) → ¬ Comparable l.1 (j :: p) := by
            rintro l (hl | hl) <;> obtain ⟨k, q, hk, hlo, hhi⟩ := of_mem_childLeaves hl <;>
              rw [hk, comparable_cons] <;> rintro ⟨rfl, -⟩ <;> omega
          simp only [List.mem_append, List.mem_map]
          rintro l ((hl | ⟨l, hl, rfl⟩) | ⟨l, hl, rfl⟩ | hl)
          · exact hbeside l (.inl hl)
          · exact fun hcomp => hout l (.inl hl) (comparable_cons.1 hcomp).2
          · exact fun hcomp => hout l (.inr hl) (comparable_cons.1 hcomp).2
          · exact hbeside l (.inr hl)
      · simp only [List.mem_map, forall_exists_index, and_imp, forall_apply_eq_imp_iff₂]
        exact fun l hl => comparable_cons.2 ⟨rfl, hseg.comparable l hl⟩
      · rw [List.length_map, hseg.length]
        simp
      · simp only [List.mem_map, forall_exists_index, and_imp, forall_apply_eq_imp_iff₂]
        intro ht l hl
        obtain ⟨hor, r, hr, hr'⟩ := hseg.leads ht l hl
        exact ⟨hor.imp_right (by simp), r, nodeAt_cons.2 ⟨cs, _, hcs, hc, hr⟩, hr'⟩
      · intro hthin m hm
        have hcount : (cs.take j).map (leafCount children m) =
            (cs.take j).map (leafCount children n) :=
          List.map_congr_left fun c hc' =>
            (hthin.child hcs (List.mem_of_mem_take hc')).leafCount_eq (by omega)
        have hchild := hthin.child hcs (List.getElem_mem hj)
        simp only [startAt, hcs, hc, hcount, hstart hchild m (by omega)]

theorem Segment.add_le {before : ℕ} {mid : List (List ℕ × S)}
    (h : Segment children n s p t before mid) :
    before + leafCount children (n - p.length) t ≤ leafCount children n s := by
  obtain ⟨left, right, hsplit, rfl, -⟩ := h.split
  rw [← h.length, leafCount, hsplit]
  simp

theorem Segment.occupies_iff {before : ℕ} {mid : List (List ℕ × S)}
    (h : Segment children n s p t before mid) {i : ℕ} :
    Occupies children n s p i ↔
      before ≤ i ∧ i < before + leafCount children (n - p.length) t := by
  obtain ⟨left, right, hsplit, rfl, hout⟩ := h.split
  rw [← h.length, Occupies, hsplit, List.append_assoc]
  constructor
  · rintro ⟨l, hl, hcomp⟩
    by_contra hi
    refine hout l ?_ hcomp
    rcases Nat.lt_or_ge i left.length with hlt | hge
    · rw [List.getElem?_append_left hlt] at hl
      exact .inl (List.mem_of_getElem? hl)
    · rw [List.getElem?_append_right hge, List.getElem?_append_right (by omega)] at hl
      exact .inr (List.mem_of_getElem? hl)
  · rintro ⟨hge, hlt⟩
    have hi : i - left.length < mid.length := by omega
    refine ⟨mid[i - left.length], ?_, h.comparable _ (List.getElem_mem hi)⟩
    rw [List.getElem?_append_right hge, List.getElem?_append_left hi, List.getElem?_eq_getElem hi]

/-! ### Counting from every level -/

section Thin

variable (hthin : Thin children n s) (hnm : n ≤ m)

include hthin hnm

/-- In a thin tree, counting from every level finds the segment of every node. -/
theorem occupies_iff_of_thin (ht : nodeAt children s p = some t) {i : ℕ} :
    Occupies children n s p i ↔
      startAt children m s p ≤ i ∧ i < startAt children m s p + leafCount children m t := by
  obtain ⟨mid, before, hseg, hstart⟩ := exists_segment n ht
  rw [hseg.occupies_iff, hstart hthin m hnm,
    (hthin.descend ht).leafCount_eq (show n - p.length ≤ m by omega)]

/-- The segment of a node lies in the tree. -/
theorem startAt_add_le (ht : nodeAt children s p = some t) :
    startAt children m s p + leafCount children m t ≤ leafCount children m s := by
  obtain ⟨mid, before, hseg, hstart⟩ := exists_segment n ht
  rw [← hstart hthin m hnm, (hthin.descend ht).leafCount_eq (show n - p.length ≤ m by omega),
    hthin.leafCount_eq hnm]
  exact hseg.add_le

/-- The leaf of a childless node: the node, or the top of a chain that ends in it. -/
theorem exists_leaf_of_thin (ht : nodeAt children s p = some t) (hnone : children t = none) :
    ∃ l, (leaves children n s)[startAt children m s p]? = some l ∧
      (l.2 = t ∨ Thin children 0 l.2) ∧ ∃ r, nodeAt children l.2 r = some t := by
  obtain ⟨mid, before, hseg, hstart⟩ := exists_segment n ht
  have hone : mid.length = 1 := by rw [hseg.length, leafCount_childless hnone]
  obtain ⟨l, rfl⟩ := List.length_eq_one_iff.1 hone
  obtain ⟨left, right, hsplit, hlen, -⟩ := hseg.split
  obtain ⟨hor, r, hl, hr⟩ := hseg.leads hnone l (by simp)
  refine ⟨l, ?_, hor.imp_right fun hn => ?_, r, hr⟩
  · rw [← hstart hthin m hnm, hsplit, ← hlen]
    simp
  · exact (hthin.descend hl).mono (by omega)

end Thin

/-- The segments of nodes neither of which is below the other are disjoint. -/
theorem startAt_disjoint {u : S} (hthin : Thin children m s)
    (ht : nodeAt children s p = some t) (hu : nodeAt children s q = some u)
    (hpq : ¬ Comparable p q) :
    startAt children m s p + leafCount children m t ≤ startAt children m s q ∨
      startAt children m s q + leafCount children m u ≤ startAt children m s p := by
  induction p generalizing s q with
  | nil => exact absurd (.inl List.nil_prefix) hpq
  | cons j p ih =>
    cases q with
    | nil => exact absurd (.inr List.nil_prefix) hpq
    | cons k q =>
      obtain ⟨cs, c, hcs, hc, ht⟩ := nodeAt_cons.1 ht
      obtain ⟨cs', d, hcs', hd, hu⟩ := nodeAt_cons.1 hu
      obtain rfl : cs = cs' := by rw [hcs] at hcs'; exact Option.some.inj hcs'
      have hchild : ∀ {e}, e ∈ cs → Thin children m e := fun he =>
        (hthin.child hcs he).mono (by omega)
      -- everything below a child is left of the children after it
      have hbefore : ∀ {a b : ℕ} {e : S}, cs[a]? = some e → a < b →
          ((cs.take a).map (leafCount children m)).sum + leafCount children m e ≤
            ((cs.take b).map (leafCount children m)).sum := by
        intro a b e he hab
        have htake : cs.take (a + 1) = cs.take a ++ [e] := by
          rw [List.take_add_one, he, Option.toList_some]
        have hsub := ((List.take_prefix_take_left (l := cs) (show a + 1 ≤ b by omega)).sublist.map
          (leafCount children m)).sum_le_sum (by simp)
        rw [htake] at hsub
        simpa using hsub
      have hp := startAt_add_le (hchild (List.mem_of_getElem? hc)) le_rfl ht
      have hq := startAt_add_le (hchild (List.mem_of_getElem? hd)) le_rfl hu
      simp only [startAt, hcs, hc, hd]
      rcases Nat.lt_trichotomy j k with hjk | rfl | hjk
      · have := hbefore hc hjk
        omega
      · obtain rfl : c = d := by rw [hc] at hd; exact Option.some.inj hd
        have := ih (hchild (List.mem_of_getElem? hc)) ht hu fun h =>
          hpq (comparable_cons.2 ⟨rfl, h⟩)
        omega
      · have := hbefore hd hjk
        omega

/-- A tree in which counting from every level finds the segments is thin below the cut. -/
theorem thin_of_occupies_iff (hm : 1 ≤ m)
    (h : ∀ p t, n ≤ p.length → nodeAt children s p = some t → ∀ i, Occupies children n s p i ↔
      startAt children m s p ≤ i ∧ i < startAt children m s p + leafCount children m t) :
    Thin children n s := by
  -- below the cut there is one leaf for every node
  have hone : ∀ p t, n ≤ p.length → nodeAt children s p = some t → leafCount children m t = 1 := by
    intro p t hp ht
    obtain ⟨mid, before, hseg, -⟩ := exists_segment n ht
    have hiff : ∀ i, (before ≤ i ∧ i < before + 1) ↔
        startAt children m s p ≤ i ∧ i < startAt children m s p + leafCount children m t := by
      intro i
      rw [← h p t hp ht i, hseg.occupies_iff, Nat.sub_eq_zero_of_le hp, leafCount_zero]
    have hfirst := hiff before
    have hnext := hiff (before + 1)
    have hstart := hiff (startAt children m s p)
    omega
  intro p t cs hp ht hcs
  obtain ⟨m, rfl⟩ := Nat.exists_eq_add_of_le' hm
  have hsum := hone p t hp ht
  rw [leafCount_succ hcs] at hsum
  have hpos : ∀ c ∈ cs, 1 ≤ leafCount children m c := by
    intro c hc
    obtain ⟨j, hj⟩ := List.mem_iff_getElem?.1 hc
    have hchild := hone (p ++ [j]) c (by simp; omega)
      (by rw [nodeAt_append ht]; exact nodeAt_cons.2 ⟨cs, c, hcs, hj, rfl⟩)
    by_contra hlt
    have := @leafCount_eq_zero_mono _ children m c (by omega)
    omega
  have hle := List.length_le_sum_of_one_le (cs.map (leafCount children m)) (by simpa using hpos)
  have hne : cs ≠ [] := by
    rintro rfl
    simp at hsum
  have := List.length_pos_iff.2 hne
  rw [List.length_map] at hle
  omega

end Trees
