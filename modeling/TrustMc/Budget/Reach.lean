import TrustMc.Budget.Fixpoint

/-!
# Reachability along undirected edges

`reachable edges seed` spreads from `seed` along `edges`, in both directions, until nothing is
added (`spread_reachable`); it is what a breadth-first search from the seed visits.
-/

namespace Budget

variable {α : Type}

/-- The ends of the edges. -/
def ends (edges : List (α × α)) : List α := edges.flatMap fun e => [e.1, e.2]

theorem length_ends (edges : List (α × α)) : (ends edges).length = 2 * edges.length := by
  induction edges with
  | nil => rfl
  | cons e edges ih =>
    rw [ends, List.flatMap_cons, List.length_append, ← ends, ih, List.length_cons]
    simp only [List.length_cons, List.length_nil]
    omega

variable [DecidableEq α]

/-- Spreads along one edge. -/
def spreadEdge (reached : List α) (e : α × α) : List α :=
  if e.1 ∈ reached ∧ e.2 ∉ reached then reached ++ [e.2]
  else if e.2 ∈ reached ∧ e.1 ∉ reached then reached ++ [e.1]
  else reached

/-- Spreads along every edge once. -/
def spread (edges : List (α × α)) (reached : List α) : List α := edges.foldl spreadEdge reached

/-- Spreads along the edges until nothing is added. -/
def reachable (edges : List (α × α)) (seed : List α) : List α :=
  untilStable (spread edges) (2 * edges.length) seed

variable {edges : List (α × α)}

theorem grows_spreadEdge {e : α × α} (he : e ∈ edges) (reached : List α) :
    Grows (ends edges) reached (spreadEdge reached e) := by
  unfold spreadEdge
  split_ifs with h h'
  · exact .insert (List.mem_flatMap.2 ⟨e, he, by simp⟩) h.2
  · exact .insert (List.mem_flatMap.2 ⟨e, he, by simp⟩) h'.2
  · exact .refl _ _

theorem grows_spread (edges : List (α × α)) (reached : List α) :
    Grows (ends edges) reached (spread edges reached) :=
  .foldl (fun _ he => grows_spreadEdge he) reached

/-- Spreading from what is reached adds nothing. -/
theorem spread_reachable (edges : List (α × α)) (seed : List α) :
    spread edges (reachable edges seed) = reachable edges seed :=
  untilStable_stable_of_grows (grows_spread edges) (Nat.le_of_eq (length_ends edges)) seed

end Budget
