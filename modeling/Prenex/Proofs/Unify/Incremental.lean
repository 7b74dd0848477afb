import Prenex.Proofs.Substitution
import Prenex.Proofs.Unify.MostGeneral

/-!
# Solving one equation at a time

A run on the first equations of a queue is also a run on the whole queue. The equations behind them
go along: each binding is put to work in them when it is made, and at the end that adds up to the
solution of the first ones. So a queue may be solved from the front, with the solution so far
applied to the equation that comes next.
-/

namespace Prenex

def Equation.apply (s : Substitution) (e : Equation) : Equation := ⟨s.apply e.left, s.apply e.right⟩

theorem Equation.apply_bind {s : Substitution} {x : Index} (hx : s.lookup x = none) (t : Ty)
    (e : Equation) :
    e.apply (s.bind x t) = (e.apply s).substitute x t := by
  simp only [apply, substitute, Substitution.apply_bind hx]

theorem Equation.apply_compose (u s : Substitution) (e : Equation) :
    e.apply (u.compose s) = (e.apply s).apply u := by
  simp only [apply, Substitution.apply_compose]

namespace Problem

/-! ## The front of a queue -/

/-- A larger problem with `p` in front: `s` was found before it, and `rest` waits behind it. -/
def within (p : Problem) (s : Substitution) (rest : List Equation) : Problem :=
  ⟨p.solved.compose s, p.pending ++ rest.map (Equation.apply p.solved)⟩

theorem within_start (s : Substitution) (front rest : List Equation) :
    within ⟨.empty, front⟩ s rest = ⟨s, front ++ rest⟩ := by
  have hrest : rest.map (Equation.apply .empty) = rest := List.map_id rest
  rw [within, Substitution.empty_compose, hrest]

variable {p q : Problem} {s : Substitution} {rest : List Equation}

theorem next_within (hnext : Next p q) (h : (p.within s rest).Resolved) :
    Next (p.within s rest) (q.within s rest) := by
  rcases hnext with hmove | @⟨u, x, t, front, hmove⟩ | hmove
  · exact .drop hmove
  · -- The variable is bound neither in `u` nor in `s`, so the binding passes the composition.
    have hx : (u.compose s).lookup x = none := by
      apply lookup_eq_none_of_front h
      simp [Equation.occurrences]
    rw [Substitution.lookup_compose, Option.or_eq_none_iff, Option.map_eq_none_iff] at hx
    obtain ⟨hs, hu⟩ := hx
    have hafter : within ⟨u.bind x t, front.map (·.substitute x t)⟩ s rest =
        ⟨(u.compose s).bind x t,
          (front ++ rest.map (Equation.apply u)).map (·.substitute x t)⟩ := by
      simp only [within, Substitution.bind_compose hu hs, List.map_append, List.map_map]
      congr 2
      exact List.map_congr_left fun e _ => Equation.apply_bind hu t e
    rw [hafter]
    exact .bind hmove
  · simp only [within, List.append_assoc]
    exact .replace hmove

theorem Reaches.within (hreach : p.Reaches q) (h : (p.within s rest).Resolved) :
    (p.within s rest).Reaches (q.within s rest) := by
  induction hreach with
  | refl => exact .refl
  | tail _ hnext ih => exact ih.tail (next_within hnext (ih.resolved h))

/-- The larger problem is solved by solving its front, and then the rest with what that gave. -/
theorem solve_within (h : (p.within s rest).Resolved) :
    (p.within s rest).solve = p.solve.bind fun u => solve (within ⟨u, []⟩ s rest) := by
  rcases hsolve : p.solve with err | u
  · obtain ⟨u, e, front, hreach, hmove⟩ := reaches_of_solve_error hsolve
    rw [solve_eq_of_reaches (hreach.within h)]
    apply solve_of_failed
    simp [Problem.within, step, hmove]
  · rw [solve_eq_of_reaches ((reaches_of_solve_ok hsolve).within h)]
    rfl

/-! ## One equation at a time -/

/-- Solves the equations in turn, each under the solution of those before it. Ends at the first
error. -/
def solveInTurn (s : Substitution) : List Equation → Except TypeError Substitution
  | [] => .ok s
  | e :: es => do
    let u ← (s.apply e.left).unify (s.apply e.right)
    solveInTurn (u.compose s) es

theorem solve_eq_solveInTurn {es : List Equation} (h : Resolved ⟨s, es.map (Equation.apply s)⟩) :
    solve ⟨s, es.map (Equation.apply s)⟩ = solveInTurn s es := by
  induction es generalizing s with
  | nil => exact solve_of_done rfl
  | cons e es ih =>
    have hstart : Problem.mk s ((e :: es).map (Equation.apply s)) =
        within ⟨.empty, [e.apply s]⟩ s (es.map (Equation.apply s)) := by
      rw [within_start]
      rfl
    have hend : ∀ u, within ⟨u, []⟩ s (es.map (Equation.apply s)) =
        ⟨u.compose s, es.map (Equation.apply (u.compose s))⟩ := by
      intro u
      simp only [within, List.nil_append, List.map_map]
      congr 1
      exact List.map_congr_left fun e _ => (Equation.apply_compose u s e).symm
    have hunify : (s.apply e.left).unify (s.apply e.right) = solve ⟨.empty, [e.apply s]⟩ := rfl
    rw [hstart] at h
    rw [hstart, solve_within h, solveInTurn, hunify]
    rcases hsolve : solve ⟨.empty, [e.apply s]⟩ with err | u
    · rfl
    · -- The run goes through the problem that the rest starts from, so no bound variable is in it.
      have hresolved := ((reaches_of_solve_ok hsolve).within h).resolved h
      rw [hend] at hresolved
      show solve (within ⟨u, []⟩ s (es.map (Equation.apply s))) = solveInTurn (u.compose s) es
      rw [hend, ih hresolved]

/-- A queue has the same outcome if its equations are solved in turn, down to the names in it. -/
theorem solve_pushAll_eq_solveInTurn (es : List Equation) :
    (Problem.empty.pushAll es).solve = solveInTurn .empty es := by
  have hes : es.map (Equation.apply .empty) = es := List.map_id es
  have hstart : Problem.empty.pushAll es = ⟨.empty, es.map (Equation.apply .empty)⟩ := by
    rw [pushAll_eq, hes]
    rfl
  rw [hstart]
  exact solve_eq_solveInTurn (resolved_empty _)

end Problem

end Prenex
