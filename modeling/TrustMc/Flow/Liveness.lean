import Mathlib.Algebra.BigOperators.Group.Finset.Basic
import Mathlib.Algebra.Order.BigOperators.Group.Finset
import Mathlib.Logic.Function.Basic
import Mathlib.Logic.Relation

/-!
# Backward propagation with a worklist

Every vertex of a graph on `0, …, n - 1` has a list of values. A round takes a vertex from the
front of a queue and gives it the values of its successors; for every value that is new there, all
its predecessors are queued. The rounds are counted, and there is no result if a bound is passed.

* `exists_propagate`: with one round for every queued vertex, and for every value that a vertex can
  still get as many as it can have predecessors, the queue is emptied.
* `mem_propagate_iff`: what a vertex has at the end are the values of the vertices that a path
  from it leads to.
* `solves_propagate`, `Solves.propagate_subset`: this is the least solution of the flow equations.
-/

namespace Flow

open Relation

section Rounds

variable {α : Type} [DecidableEq α] (succs preds : ℕ → List ℕ)

/-- One value of a successor. -/
def carry (v : ℕ) (st : (ℕ → List α) × List ℕ) (a : α) : (ℕ → List α) × List ℕ :=
  if a ∈ st.1 v then st else (Function.update st.1 v (st.1 v ++ [a]), st.2 ++ preds v)

/-- The values that one successor has when its turn comes. -/
def carryFrom (v : ℕ) (st : (ℕ → List α) × List ℕ) (succ : ℕ) : (ℕ → List α) × List ℕ :=
  (st.1 succ).foldl (carry preds v) st

/-- One round, for the vertex that was taken from the queue. -/
def liveRound (v : ℕ) (st : (ℕ → List α) × List ℕ) : (ℕ → List α) × List ℕ :=
  (succs v).foldl (carryFrom preds v) st

/-- The rounds until the queue is empty; `none` if one more is due than the bound allows. -/
def propagate : ℕ → (ℕ → List α) → List ℕ → Option (ℕ → List α)
  | _, live, [] => some live
  | 0, _, _ :: _ => none
  | bound + 1, live, v :: work =>
    let (live, work) := liveRound succs preds v (live, work)
    propagate bound live work

end Rounds

/-! ### What a round does -/

section Gains

variable {α : Type} {preds : ℕ → List ℕ}

/-- The vertex has got new values, and its predecessors are queued once for each of them. -/
def Gains (preds : ℕ → List ℕ) (v : ℕ) (st st' : (ℕ → List α) × List ℕ) (new : List α) : Prop :=
  st'.1 = Function.update st.1 v (st.1 v ++ new) ∧
    st'.2 = st.2 ++ (List.replicate new.length (preds v)).flatten ∧
    new.Nodup ∧ ∀ a ∈ new, a ∉ st.1 v

theorem Gains.refl (v : ℕ) (st : (ℕ → List α) × List ℕ) : Gains preds v st st [] := by
  refine ⟨?_, ?_, List.nodup_nil, fun a ha => absurd ha List.not_mem_nil⟩
  · rw [List.append_nil, Function.update_eq_self]
  · rw [List.length_nil, List.replicate_zero, List.flatten_nil, List.append_nil]

theorem Gains.trans {v : ℕ} {st st' st'' : (ℕ → List α) × List ℕ} {new new' : List α}
    (h : Gains preds v st st' new) (h' : Gains preds v st' st'' new') :
    Gains preds v st st'' (new ++ new') := by
  obtain ⟨hlive, hwork, hnodup, hfresh⟩ := h
  obtain ⟨hlive', hwork', hnodup', hfresh'⟩ := h'
  have hat : st'.1 v = st.1 v ++ new := by rw [hlive, Function.update_self]
  have hsplit : ∀ a ∈ new', a ∉ st.1 v ∧ a ∉ new := fun a ha => by
    simpa [hat] using hfresh' a ha
  refine ⟨?_, ?_, List.nodup_append.2 ⟨hnodup, hnodup', ?_⟩, fun a ha => ?_⟩
  · rw [hlive', hat, hlive, Function.update_idem, List.append_assoc]
  · rw [hwork', hwork, List.length_append, List.replicate_add, List.flatten_append,
      List.append_assoc]
  · rintro a ha b hb rfl
    exact (hsplit a hb).2 ha
  · rcases List.mem_append.1 ha with ha | ha
    · exact hfresh a ha
    · exact (hsplit a ha).1

theorem Gains.live_of_ne {v u : ℕ} {st st' : (ℕ → List α) × List ℕ} {new : List α}
    (h : Gains preds v st st' new) (hu : u ≠ v) : st'.1 u = st.1 u := by
  rw [h.1, Function.update_of_ne hu]

theorem Gains.live_self {v : ℕ} {st st' : (ℕ → List α) × List ℕ} {new : List α}
    (h : Gains preds v st st' new) : st'.1 v = st.1 v ++ new := by
  rw [h.1, Function.update_self]

theorem Gains.subset {v u : ℕ} {st st' : (ℕ → List α) × List ℕ} {new : List α}
    (h : Gains preds v st st' new) : st.1 u ⊆ st'.1 u := by
  by_cases hu : u = v
  · subst hu
    rw [h.live_self]
    exact List.subset_append_left _ _
  · rw [h.live_of_ne hu]
    exact List.Subset.refl _

theorem Gains.mem_work {v w : ℕ} {st st' : (ℕ → List α) × List ℕ} {new : List α}
    (h : Gains preds v st st' new) : w ∈ st'.2 ↔ w ∈ st.2 ∨ (new ≠ [] ∧ w ∈ preds v) := by
  rw [h.2.1, List.mem_append, List.mem_flatten]
  refine or_congr_right ⟨?_, ?_⟩
  · rintro ⟨l, hl, hw⟩
    obtain ⟨hne, rfl⟩ := List.mem_replicate.1 hl
    exact ⟨fun hnil => hne (by rw [hnil, List.length_nil]), hw⟩
  · rintro ⟨hne, hw⟩
    exact ⟨preds v, List.mem_replicate.2 ⟨mt List.length_eq_zero_iff.1 hne, rfl⟩, hw⟩

end Gains

variable {α : Type} [DecidableEq α] {succs preds : ℕ → List ℕ} {n : ℕ}

theorem propagate_cons (bound : ℕ) (live : ℕ → List α) (v : ℕ) (work : List ℕ) :
    propagate succs preds (bound + 1) live (v :: work) =
      propagate succs preds bound (liveRound succs preds v (live, work)).1
        (liveRound succs preds v (live, work)).2 := rfl

theorem exists_gains_carry (v : ℕ) (st : (ℕ → List α) × List ℕ) (a : α) :
    ∃ new, Gains preds v st (carry preds v st a) new ∧ a ∈ (carry preds v st a).1 v ∧
      ∀ b ∈ new, b = a := by
  by_cases ha : a ∈ st.1 v
  · rw [carry, if_pos ha]
    exact ⟨[], .refl v st, ha, fun b hb => absurd hb List.not_mem_nil⟩
  · rw [carry, if_neg ha]
    refine ⟨[a], ⟨rfl, ?_, List.nodup_singleton a, ?_⟩, ?_, fun b hb => List.mem_singleton.1 hb⟩
    · simp
    · simpa using ha
    · simp

/-- The values of one list are all there in the end, and only they are new. -/
theorem exists_gains_foldl_carry (v : ℕ) (as : List α) (st : (ℕ → List α) × List ℕ) :
    ∃ new, Gains preds v st (as.foldl (carry preds v) st) new ∧
      as ⊆ (as.foldl (carry preds v) st).1 v ∧ new ⊆ as := by
  induction as generalizing st with
  | nil => exact ⟨[], .refl v st, List.nil_subset _, List.nil_subset _⟩
  | cons a as ih =>
    obtain ⟨new, hgain, hmem, hnew⟩ := @exists_gains_carry α _ preds v st a
    obtain ⟨new', hgain', hsub, hnew'⟩ := ih (carry preds v st a)
    refine ⟨new ++ new', hgain.trans hgain', ?_, ?_⟩
    · exact List.cons_subset.2 ⟨hgain'.subset hmem, hsub⟩
    · refine List.append_subset.2 ⟨fun b hb => ?_, fun b hb => List.mem_cons_of_mem a (hnew' hb)⟩
      rw [hnew b hb]
      exact List.mem_cons_self

/-- A list of successors. -/
theorem exists_gains_foldl_carryFrom (v : ℕ) (ss : List ℕ) (st : (ℕ → List α) × List ℕ) :
    ∃ new, Gains preds v st (ss.foldl (carryFrom preds v) st) new ∧
      (∀ s ∈ ss, (ss.foldl (carryFrom preds v) st).1 s ⊆
        (ss.foldl (carryFrom preds v) st).1 v) ∧ ∀ a ∈ new, ∃ s ∈ ss, a ∈ st.1 s := by
  induction ss generalizing st with
  | nil => exact ⟨[], .refl v st, by simp, by simp⟩
  | cons s ss ih =>
    obtain ⟨new, hgain, hsub, hnew⟩ :=
      @exists_gains_foldl_carry α _ preds v (st.1 s) st
    obtain ⟨new', hgain', hsub', hnew'⟩ := ih (carryFrom preds v st s)
    have hstep : ∀ u a, a ∈ (carryFrom preds v st s).1 u → a ∈ st.1 u ∨ u = v ∧ a ∈ st.1 s := by
      intro u a ha
      by_cases hu : u = v
      · subst hu
        rw [show (carryFrom preds u st s).1 u = _ from hgain.live_self] at ha
        exact (List.mem_append.1 ha).imp id fun ha => ⟨rfl, hnew ha⟩
      · rw [show (carryFrom preds v st s).1 u = _ from hgain.live_of_ne hu] at ha
        exact .inl ha
    refine ⟨new ++ new', hgain.trans hgain', ?_, ?_⟩
    · intro t ht
      rcases List.mem_cons.1 ht with rfl | ht
      · -- the values that the first successor had are kept while the others follow
        by_cases htv : t = v
        · subst htv
          exact List.Subset.refl _
        · have hsame := (hgain.trans hgain').live_of_ne htv
          rw [List.foldl_cons, hsame]
          exact fun a ha => hgain'.subset (hsub ha)
      · exact hsub' t ht
    · intro a ha
      rcases List.mem_append.1 ha with ha | ha
      · exact ⟨s, List.mem_cons_self, hnew ha⟩
      · obtain ⟨t, ht, hat⟩ := hnew' a ha
        rcases hstep t a hat with hat | ⟨-, hat⟩
        · exact ⟨t, List.mem_cons_of_mem s ht, hat⟩
        · exact ⟨s, List.mem_cons_self, hat⟩

/-- **A round**: the vertex gains values of its successors, and then has all of them. -/
theorem exists_gains_liveRound (succs preds : ℕ → List ℕ) (v : ℕ) (st : (ℕ → List α) × List ℕ) :
    ∃ new, Gains preds v st (liveRound succs preds v st) new ∧
      (∀ s ∈ succs v, (liveRound succs preds v st).1 s ⊆ (liveRound succs preds v st).1 v) ∧
      ∀ a ∈ new, ∃ s ∈ succs v, a ∈ st.1 s :=
  exists_gains_foldl_carryFrom v (succs v) st

/-! ### The result -/

/-- Values are only taken over from vertices further on. -/
theorem exists_of_mem_propagate {bound : ℕ} {live live' : ℕ → List α} {work : List ℕ}
    (h : propagate succs preds bound live work = some live') {v : ℕ} {a : α} (ha : a ∈ live' v) :
    ∃ u, ReflTransGen (fun x y => y ∈ succs x) v u ∧ a ∈ live u := by
  induction bound generalizing live work with
  | zero =>
    cases work with
    | nil =>
      obtain rfl := Option.some.inj h
      exact ⟨v, .refl, ha⟩
    | cons w work => cases h
  | succ bound ih =>
    cases work with
    | nil =>
      obtain rfl := Option.some.inj h
      exact ⟨v, .refl, ha⟩
    | cons w work =>
      obtain ⟨new, hgain, -, hnew⟩ := exists_gains_liveRound succs preds w (live, work)
      rw [propagate_cons] at h
      obtain ⟨u, hpath, hu⟩ := ih h
      by_cases huw : u = w
      · subst huw
        rw [hgain.live_self] at hu
        rcases List.mem_append.1 hu with hu | hu
        · exact ⟨u, hpath, hu⟩
        · obtain ⟨s, hs, has⟩ := hnew a hu
          exact ⟨s, hpath.tail hs, has⟩
      · rw [hgain.live_of_ne huw] at hu
        exact ⟨u, hpath, hu⟩

theorem subset_propagate {bound : ℕ} {live live' : ℕ → List α} {work : List ℕ}
    (h : propagate succs preds bound live work = some live') (v : ℕ) : live v ⊆ live' v := by
  induction bound generalizing live work with
  | zero =>
    cases work with
    | nil => exact Option.some.inj h ▸ List.Subset.refl _
    | cons w work => cases h
  | succ bound ih =>
    cases work with
    | nil => exact Option.some.inj h ▸ List.Subset.refl _
    | cons w work =>
      obtain ⟨new, hgain, -⟩ := exists_gains_liveRound succs preds w (live, work)
      exact fun a ha => ih h (hgain.subset ha)

/-- A vertex that lacks a value of a successor is queued. -/
def Pending (succs : ℕ → List ℕ) (n : ℕ) (live : ℕ → List α) (work : List ℕ) : Prop :=
  ∀ v < n, ∀ s ∈ succs v, live s ⊆ live v ∨ v ∈ work

theorem Pending.liveRound (hpreds : ∀ v < n, ∀ s ∈ succs v, v ∈ preds s) {v : ℕ}
    {live : ℕ → List α} {work : List ℕ} (h : Pending succs n live (v :: work)) :
    Pending succs n (liveRound succs preds v (live, work)).1
      (liveRound succs preds v (live, work)).2 := by
  obtain ⟨new, hgain, hclosed, -⟩ := exists_gains_liveRound succs preds v (live, work)
  intro u hu s hs
  by_cases huv : u = v
  · subst huv
    exact .inl (hclosed s hs)
  · rw [hgain.live_of_ne huv]
    rcases h u hu s hs with hsub | hmem
    · by_cases hsv : s = v
      · subst hsv
        by_cases hnil : new = []
        · rw [hgain.live_self, hnil, List.append_nil]
          exact .inl hsub
        · exact .inr (hgain.mem_work.2 (.inr ⟨hnil, hpreds u hu s hs⟩))
      · rw [hgain.live_of_ne hsv]
        exact .inl hsub
    · exact .inr (hgain.mem_work.2 (.inl ((List.mem_cons.1 hmem).resolve_left huv)))

theorem closed_propagate (hpreds : ∀ v < n, ∀ s ∈ succs v, v ∈ preds s) {bound : ℕ}
    {live live' : ℕ → List α} {work : List ℕ} (hpending : Pending succs n live work)
    (h : propagate succs preds bound live work = some live') {v s : ℕ} (hv : v < n)
    (hs : s ∈ succs v) : live' s ⊆ live' v := by
  induction bound generalizing live work with
  | zero =>
    cases work with
    | nil => exact Option.some.inj h ▸ (hpending v hv s hs).resolve_right List.not_mem_nil
    | cons w work => cases h
  | succ bound ih =>
    cases work with
    | nil => exact Option.some.inj h ▸ (hpending v hv s hs).resolve_right List.not_mem_nil
    | cons w work => exact ih (hpending.liveRound hpreds) h

/-- **The least solution**: a vertex ends with the values of the vertices it leads to. -/
theorem mem_propagate_iff (hsuccs : ∀ v, ∀ s ∈ succs v, s < n)
    (hpreds : ∀ v < n, ∀ s ∈ succs v, v ∈ preds s) {bound : ℕ} {live live' : ℕ → List α}
    {work : List ℕ} (hpending : Pending succs n live work)
    (h : propagate succs preds bound live work = some live') {v : ℕ} (hv : v < n) {a : α} :
    a ∈ live' v ↔ ∃ u, ReflTransGen (fun x y => y ∈ succs x) v u ∧ a ∈ live u := by
  refine ⟨exists_of_mem_propagate h, ?_⟩
  rintro ⟨u, hpath, ha⟩
  induction hpath using ReflTransGen.head_induction_on with
  | refl => exact subset_propagate h _ ha
  | head hstep _ ih => exact closed_propagate hpreds hpending h hv hstep (ih (hsuccs _ _ hstep))

/-- The values are closed against the edges, and hold those that there are at the start. -/
def Solves (succs : ℕ → List ℕ) (n : ℕ) (live sol : ℕ → List α) : Prop :=
  ∀ v < n, live v ⊆ sol v ∧ ∀ s ∈ succs v, sol s ⊆ sol v

theorem solves_propagate (hpreds : ∀ v < n, ∀ s ∈ succs v, v ∈ preds s) {bound : ℕ}
    {live live' : ℕ → List α} {work : List ℕ} (hpending : Pending succs n live work)
    (h : propagate succs preds bound live work = some live') : Solves succs n live live' :=
  fun v hv => ⟨subset_propagate h v, fun _ hs => closed_propagate hpreds hpending h hv hs⟩

/-- Every solution has the values that are found. -/
theorem Solves.propagate_subset {live sol live' : ℕ → List α} (hsol : Solves succs n live sol)
    (hsuccs : ∀ v, ∀ s ∈ succs v, s < n) {bound : ℕ} {work : List ℕ}
    (h : propagate succs preds bound live work = some live') {v : ℕ} (hv : v < n) :
    live' v ⊆ sol v := by
  intro a ha
  obtain ⟨u, hpath, hu⟩ := exists_of_mem_propagate h ha
  clear ha
  induction hpath using ReflTransGen.head_induction_on with
  | refl => exact (hsol u hv).1 hu
  | head hstep _ ih => exact (hsol _ hv).2 _ hstep (ih (hsuccs _ _ hstep))

/-! ### The bound -/

/-- How many of the values a vertex does not have. -/
def missing (values : List α) (has : List α) : ℕ := (values.filter (· ∉ has)).length

theorem missing_le (values has : List α) : missing values has ≤ values.length :=
  List.length_filter_le _ _

theorem missing_append {values has new : List α} (hvalues : values.Nodup) (hnew : new.Nodup)
    (hsub : new ⊆ values) (hfresh : ∀ a ∈ new, a ∉ has) :
    missing values (has ++ new) + new.length = missing values has := by
  have hperm : ((values.filter (· ∉ has ++ new)) ++ new).Perm (values.filter (· ∉ has)) := by
    refine (List.perm_ext_iff_of_nodup ?_ (hvalues.filter _)).2 fun a => ?_
    · refine List.nodup_append.2 ⟨hvalues.filter _, hnew, ?_⟩
      rintro a ha b hb rfl
      simp [hb] at ha
    · by_cases ha : a ∈ new
      · simp [ha, hsub ha, hfresh a ha]
      · simp [ha]
  rw [missing, missing, ← List.length_append]
  exact hperm.length_eq

/-- What vertices may still gain, among the values that not all of them have. -/
def Confined (n : ℕ) (values : List α) (live : ℕ → List α) : Prop :=
  ∀ v < n, ∀ a ∈ live v, a ∈ values ∨ ∀ u < n, a ∈ live u

/-- The rounds that are left at most. -/
def roundsLeft (n degree : ℕ) (values : List α) (live : ℕ → List α) (work : List ℕ) : ℕ :=
  work.length + degree * ∑ v ∈ Finset.range n, missing values (live v)

/-- **A round uses up a round**: the vertices it queues are paid for by the values it adds. -/
theorem roundsLeft_liveRound {degree : ℕ} {values : List α} (hvalues : values.Nodup)
    (hdegree : ∀ v < n, (preds v).length ≤ degree) (hsuccs : ∀ v, ∀ s ∈ succs v, s < n)
    {live : ℕ → List α} (hconfined : Confined n values live) {v : ℕ} (hv : v < n)
    {work : List ℕ} :
    Confined n values (liveRound succs preds v (live, work)).1 ∧
      roundsLeft n degree values (liveRound succs preds v (live, work)).1
        (liveRound succs preds v (live, work)).2 + 1 ≤
          roundsLeft n degree values live (v :: work) := by
  obtain ⟨new, hgain, -, hnew⟩ := exists_gains_liveRound succs preds v (live, work)
  have hsub : new ⊆ values := fun a ha => by
    obtain ⟨s, hs, has⟩ := hnew a ha
    exact (hconfined s (hsuccs v s hs) a has).resolve_right fun hall => hgain.2.2.2 a ha (hall v hv)
  constructor
  · intro u hu a ha
    have hold : a ∈ live u ∨ a ∈ new := by
      by_cases huv : u = v
      · subst huv
        rw [hgain.live_self] at ha
        exact List.mem_append.1 ha
      · rw [hgain.live_of_ne huv] at ha
        exact .inl ha
    rcases hold with hold | hold
    · exact (hconfined u hu a hold).imp_right fun hall w hw => hgain.subset (hall w hw)
    · exact .inl (hsub hold)
  · have hmissing := missing_append hvalues hgain.2.2.1 hsub hgain.2.2.2
    have hsum : ∑ u ∈ Finset.range n, missing values ((liveRound succs preds v (live, work)).1 u) +
        new.length = ∑ u ∈ Finset.range n, missing values (live u) := by
      have hmem := Finset.mem_range.2 hv
      have hothers : ∑ u ∈ (Finset.range n).erase v,
          missing values ((liveRound succs preds v (live, work)).1 u) =
            ∑ u ∈ (Finset.range n).erase v, missing values (live u) :=
        Finset.sum_congr rfl fun u hu => by rw [hgain.live_of_ne (Finset.ne_of_mem_erase hu)]
      rw [← Finset.add_sum_erase _ _ hmem, hothers, hgain.live_self, Nat.add_right_comm, hmissing,
        Finset.add_sum_erase _ (fun u => missing values (live u)) hmem]
    have hlen : (liveRound succs preds v (live, work)).2.length =
        work.length + new.length * (preds v).length := by
      rw [hgain.2.1, List.length_append, List.length_flatten, List.map_replicate,
        List.sum_replicate, Nat.nsmul_eq_mul]
    have hpaid : new.length * (preds v).length ≤ degree * new.length := by
      rw [Nat.mul_comm]
      exact Nat.mul_le_mul_right _ (hdegree v hv)
    rw [roundsLeft, roundsLeft, ← hsum, Nat.mul_add, hlen, List.length_cons]
    omega

/-- **The queue is emptied** within the rounds that are left. -/
theorem exists_propagate {degree : ℕ} {values : List α} (hvalues : values.Nodup)
    (hdegree : ∀ v < n, (preds v).length ≤ degree) (hsuccs : ∀ v, ∀ s ∈ succs v, s < n)
    (hpreds : ∀ v < n, ∀ u ∈ preds v, u < n) {bound : ℕ} {live : ℕ → List α} {work : List ℕ}
    (hconfined : Confined n values live) (hwork : ∀ v ∈ work, v < n)
    (hbound : roundsLeft n degree values live work ≤ bound) :
    ∃ live', propagate succs preds bound live work = some live' := by
  induction bound generalizing live work with
  | zero =>
    cases work with
    | nil => exact ⟨live, rfl⟩
    | cons v work =>
      rw [roundsLeft, List.length_cons] at hbound
      omega
  | succ bound ih =>
    cases work with
    | nil => exact ⟨live, rfl⟩
    | cons v work =>
      have hv := hwork v List.mem_cons_self
      obtain ⟨hconfined', hless⟩ := roundsLeft_liveRound hvalues hdegree hsuccs hconfined hv
      rw [propagate_cons]
      refine ih hconfined' (fun w hw => ?_) (Nat.le_of_succ_le_succ (hless.trans hbound))
      obtain ⟨new, hgain, -⟩ := exists_gains_liveRound succs preds v (live, work)
      rcases hgain.mem_work.1 hw with hw | ⟨-, hw⟩
      · exact hwork w (List.mem_cons_of_mem v hw)
      · exact hpreds v hv w hw

end Flow
