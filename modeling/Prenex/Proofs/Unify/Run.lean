import Mathlib.Logic.Relation
import Prenex.Unify.Problem

/-!
# Runs of the unifier

The problems that a run goes through, and how it ends. What every step keeps holds at the end of the
run too.
-/

namespace Prenex.Problem

/-- Queues equations in order. -/
def pushAll (p : Problem) (es : List Equation) : Problem :=
  es.foldl (fun p e => p.push e.left e.right) p

theorem pushAll_eq (p : Problem) (es : List Equation) :
    p.pushAll es = ⟨p.solved, p.pending ++ es⟩ := by
  induction es generalizing p with
  | nil => simp [pushAll]
  | cons e es ih =>
    have htail := ih (p.push e.left e.right)
    unfold pushAll at htail ⊢
    rw [List.foldl_cons, htail]
    simp [push]

/-! ## One step -/

/-- The steps after which there is more to do. -/
inductive Next : Problem → Problem → Prop
  | drop {s : Substitution} {e : Equation} {rest : List Equation} : e.move = .drop →
      Next ⟨s, e :: rest⟩ ⟨s, rest⟩
  | bind {s : Substitution} {x : Index} {t : Ty} {rest : List Equation} :
      (Equation.mk (.var x) t).move = .bind x t →
      Next ⟨s, ⟨.var x, t⟩ :: rest⟩ ⟨s.bind x t, rest.map (·.substitute x t)⟩
  | replace {s : Substitution} {e : Equation} {es rest : List Equation} : e.move = .replace es →
      Next ⟨s, e :: rest⟩ ⟨s, es ++ rest⟩

theorem next_iff_step (p q : Problem) : Next p q ↔ ∃ made, p.step = .next made q := by
  constructor
  · intro h
    rcases h with hmove | hmove | hmove
    all_goals simp [step, hmove]
  · rintro ⟨made, h⟩
    obtain ⟨s, pending⟩ := p
    rcases pending with _ | ⟨e, rest⟩
    · cases h
    · simp only [step] at h
      split at h
      · rename_i hmove
        cases h
        exact .drop hmove
      · rename_i x t hmove
        cases h
        obtain ⟨rfl, -⟩ := Equation.move_eq_bind hmove
        exact .bind hmove
      · rename_i es hmove
        cases h
        exact .replace hmove
      · cases h

theorem eq_of_step_done {p : Problem} {s : Substitution} (h : p.step = .done s) : p = ⟨s, []⟩ := by
  obtain ⟨s', pending⟩ := p
  rcases pending with _ | ⟨e, rest⟩
  · cases h
    rfl
  · simp only [step] at h
    split at h <;> cases h

theorem exists_of_step_failed {p : Problem} {err : TypeError} (h : p.step = .failed err) :
    ∃ s e rest, p = ⟨s, e :: rest⟩ ∧ e.move = .fail err := by
  obtain ⟨s, pending⟩ := p
  rcases pending with _ | ⟨e, rest⟩
  · cases h
  · simp only [step] at h
    split at h
    · cases h
    · cases h
    · cases h
    · rename_i hmove
      cases h
      exact ⟨s, e, rest, rfl, hmove⟩

/-! ## Whole runs -/

abbrev Reaches : Problem → Problem → Prop := Relation.ReflTransGen Next

theorem Reaches.keeps {I : Problem → Prop} (hstep : ∀ p q, Next p q → I p → I q) {p q : Problem}
    (h : p.Reaches q) (hp : I p) : I q := by
  induction h with
  | refl => exact hp
  | tail _ hnext ih => exact hstep _ _ hnext ih

theorem solve_eq_of_reaches {p q : Problem} (h : p.Reaches q) : p.solve = q.solve := by
  induction h with
  | refl => rfl
  | tail _ hnext ih =>
    obtain ⟨made, hstep⟩ := (next_iff_step _ _).mp hnext
    rw [ih, solve_of_next hstep]

theorem reaches_of_solve_ok {p : Problem} {s : Substitution} (h : p.solve = .ok s) :
    p.Reaches ⟨s, []⟩ := by
  fun_induction solve p with
  | case1 p s' hstep =>
    cases h
    rw [eq_of_step_done hstep]
  | case2 => cases h
  | case3 p made q hstep ih => exact .head ((next_iff_step p q).mpr ⟨made, hstep⟩) (ih h)

theorem reaches_of_solve_error {p : Problem} {err : TypeError} (h : p.solve = .error err) :
    ∃ s e rest, p.Reaches ⟨s, e :: rest⟩ ∧ e.move = .fail err := by
  fun_induction solve p with
  | case1 => cases h
  | case2 p err' hstep =>
    cases h
    obtain ⟨s, e, rest, rfl, hmove⟩ := exists_of_step_failed hstep
    exact ⟨s, e, rest, .refl, hmove⟩
  | case3 p made q hstep ih =>
    obtain ⟨s, e, rest, hreach, hmove⟩ := ih h
    exact ⟨s, e, rest, .head ((next_iff_step p q).mpr ⟨made, hstep⟩) hreach, hmove⟩

end Prenex.Problem
