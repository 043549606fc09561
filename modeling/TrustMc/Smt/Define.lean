import TrustMc.Smt.Eval

/-!
# Definitions

A definition `x = rhs` is met by setting `x` to the value of `rhs`. A list of definitions is
met by doing so one after the other (`solve`), provided that no definition reads or sets again
what an earlier one or itself has set (`Sequential`).
-/

namespace TrustMc

open Carriers Carriers.Val TrustMc.Expr

variable {T : Theory}

/-- The assignment with the value of one name replaced. -/
noncomputable def Theory.Env.set (ρ : T.Env) (n : String) (v : T.Val) : T.Env :=
  Function.update ρ n fun s => v.as s

theorem Theory.Env.set_of_ne {ρ : T.Env} {n m : String} {v : T.Val} (h : m ≠ n) :
    ρ.set n v m = ρ m :=
  Function.update_of_ne h _ _

namespace Expr

/-- A term that does not read the name keeps its value. -/
theorem eval_set {e : Expr} {ρ : T.Env} {n : String} {v : T.Val} (h : n ∉ e.freeVars) :
    e.eval (ρ.set n v) = e.eval ρ :=
  eval_congr fun _ hm => Theory.Env.set_of_ne fun heq => h (heq ▸ hm)

theorem eval_var_set {ρ : T.Env} {n : String} {s : SmtSort} {v : T.Val} (h : v.1 = s) :
    (var n s).eval (ρ.set n v) = v := by
  rw [eval_var, Theory.Env.set, Function.update_self, mk_as h]

end Expr

/-- A definition of a variable. -/
structure Definition where
  /-- The defined name. -/
  name : String
  /-- The sort of the variable. -/
  sort : SmtSort
  /-- The defining term. -/
  rhs : Expr

namespace Definition

/-- The definition as an equation. -/
def toExpr (d : Definition) : Expr := (Expr.var d.name d.sort).eq d.rhs

theorem toExpr_inj {d d' : Definition} : d.toExpr = d'.toExpr ↔ d = d' := by
  cases d
  cases d'
  simp [toExpr, and_assoc]

/-- The definition is of one sort and does not read what it defines. -/
structure Proper (d : Definition) : Prop where
  /-- Both sides have the variable's sort. -/
  sort : d.rhs.sort = d.sort
  /-- The variable is not read. -/
  fresh : d.name ∉ d.rhs.freeVars

/-- Proper definitions none of which sets what an earlier one reads or sets. -/
structure Sequential (ds : List Definition) : Prop where
  /-- Each definition is proper. -/
  proper : ∀ d ∈ ds, d.Proper
  /-- Later definitions leave earlier ones alone. -/
  pairwise : ds.Pairwise fun d d' => d'.name ≠ d.name ∧ d'.name ∉ d.rhs.freeVars

/-- Meets the definitions one after the other. -/
noncomputable def solve (ρ : T.Env) (ds : List Definition) : T.Env :=
  ds.foldl (fun ρ d => ρ.set d.name (d.rhs.eval ρ)) ρ

theorem solve_of_notMem {ρ : T.Env} {ds : List Definition} {n : String}
    (h : ∀ d ∈ ds, d.name ≠ n) : solve ρ ds n = ρ n := by
  induction ds generalizing ρ with
  | nil => rfl
  | cons d ds ih =>
    refine (ih (fun d' hd' => h d' (List.mem_cons_of_mem _ hd'))).trans ?_
    exact Theory.Env.set_of_ne (h d List.mem_cons_self).symm

/-- A term that reads no defined name keeps its value. -/
theorem eval_solve {ρ : T.Env} {ds : List Definition} {e : Expr}
    (h : ∀ d ∈ ds, d.name ∉ e.freeVars) : e.eval (solve ρ ds) = e.eval ρ :=
  eval_congr fun n hn => solve_of_notMem fun d hd heq => h d hd (by rwa [heq])

/-- **Sequential definitions are met.** -/
theorem holds_solve {ρ : T.Env} {ds : List Definition} (h : Sequential ds) :
    ∀ d ∈ ds, Holds (solve ρ ds) d.toExpr := by
  obtain ⟨hproper, hpairwise⟩ := h
  induction ds generalizing ρ with
  | nil => simp
  | cons d ds ih =>
    obtain ⟨hd, hds⟩ := List.pairwise_cons.1 hpairwise
    have hp := hproper d List.mem_cons_self
    intro d' hd'
    rcases List.mem_cons.1 hd' with heq | hd'
    · -- what `d` equates is not touched again
      subst heq
      have hkeep : ∀ d ∈ ds, d.name ∉ d'.toExpr.freeVars := by
        intro d hmem
        simpa [toExpr] using hd d hmem
      have hset : Holds (ρ.set d'.name (d'.rhs.eval ρ)) d'.toExpr := by
        rw [toExpr, holds_eq, eval_set hp.fresh]
        exact eval_var_set ((eval_sort _ _).trans hp.sort)
      rw [Holds, solve, List.foldl_cons]
      exact (congrArg Val.toBool (eval_solve hkeep)).trans hset
    · exact ih (fun d hd => hproper d (List.mem_cons_of_mem _ hd)) hds d' hd'

end Definition

end TrustMc
