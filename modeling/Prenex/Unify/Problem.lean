import Prenex.Unify.Equation
import Prenex.Substitution
/-!
# Unification

A problem is a queue of equations with the substitution found so far. Equations are taken from the
front. A binding is put to work at once, in the substitution and in all equations that wait, so a
bound variable never comes up again.
-/

namespace Prenex

structure Problem where
  solved : Substitution
  pending : List Equation

inductive Step where
  | done (s : Substitution)
  | failed (e : TypeError)
  /-- The problem that is left, and the binding if one was made. -/
  | next (made : Option Binding) (p : Problem)

namespace Problem

def empty : Problem := ⟨.empty, []⟩

def push (p : Problem) (l r : Ty) : Problem := { p with pending := p.pending ++ [⟨l, r⟩] }

def step (p : Problem) : Step :=
  match p.pending with
  | [] => .done p.solved
  | e :: rest =>
    match e.move with
    | .drop => .next none ⟨p.solved, rest⟩
    | .bind x t => .next (some (x, t)) ⟨p.solved.bind x t, rest.map (·.substitute x t)⟩
    | .replace es => .next none ⟨p.solved, es ++ rest⟩
    | .fail err => .failed err

/-! ## Steps come to an end -/

/-- How many variables still wait. A binding lowers it. -/
def variableCount (p : Problem) : Nat := distinctCount (p.pending.flatMap Equation.occurrences)

def weight (p : Problem) : Nat := Equation.totalWeight p.pending

/-- By the number of variables first, then by weight. -/
def Lighter (q p : Problem) : Prop :=
  Prod.Lex (· < ·) (· < ·) (q.variableCount, q.weight) (p.variableCount, p.weight)

theorem lighter_of_le_of_lt {p q : Problem} (hv : q.variableCount ≤ p.variableCount)
    (hw : q.weight < p.weight) : q.Lighter p := by
  rcases Nat.lt_or_eq_of_le hv with hv | hv
  · exact .left _ _ hv
  · unfold Lighter
    rw [hv]
    exact .right _ hw

theorem lighter_of_step {p q : Problem} {made : Option Binding} (h : p.step = .next made q) :
    q.Lighter p := by
  obtain ⟨s, pending⟩ := p
  cases pending with
  | nil => cases h
  | cons e rest =>
    simp only [step] at h
    split at h
    · cases h
      apply lighter_of_le_of_lt
      · apply distinctCount_le_of_subset
        simp
      · have := e.weight_pos
        simp only [weight, Equation.totalWeight]
        omega
    · rename_i x t hmove
      cases h
      obtain ⟨rfl, hx⟩ := Equation.move_eq_bind hmove
      left
      apply distinctCount_lt_of_subset (a := x)
      · intro i hi
        obtain ⟨_, hmem, hi⟩ := List.mem_flatMap.mp hi
        obtain ⟨e, he, rfl⟩ := List.mem_map.mp hmem
        apply List.mem_flatMap.mpr
        rcases Equation.occurrences_substitute_subset e x t i hi with hi | ⟨hi, -⟩
        · exact ⟨_, List.mem_cons_self, by simp [Equation.occurrences, hi]⟩
        · exact ⟨e, List.mem_cons_of_mem _ he, hi⟩
      · simp [Equation.occurrences, Ty.var, Head.var?]
      · intro hi
        obtain ⟨_, hmem, hi⟩ := List.mem_flatMap.mp hi
        obtain ⟨e, he, rfl⟩ := List.mem_map.mp hmem
        rcases Equation.occurrences_substitute_subset e x t x hi with hi | ⟨-, hi⟩
        · exact hx hi
        · exact hi rfl
    · rename_i es hmove
      cases h
      apply lighter_of_le_of_lt
      · apply distinctCount_le_of_subset
        have := Equation.occurrences_subset_of_move hmove
        rw [List.flatMap_append, List.flatMap_cons]
        exact List.append_subset.mpr
          ⟨List.subset_append_of_subset_left _ this, List.subset_append_right _ _⟩
      · have := Equation.totalWeight_lt_of_move hmove
        simp only [weight, Equation.totalWeight_append, Equation.totalWeight]
        omega
    · cases h

/-! ## Running to the end -/

def solve (p : Problem) : Except TypeError Substitution :=
  match _h : p.step with
  | .done s => .ok s
  | .failed e => .error e
  | .next _ q => q.solve
termination_by (p.variableCount, p.weight)
decreasing_by exact lighter_of_step _h

theorem solve_of_done {p : Problem} {s : Substitution} (h : p.step = .done s) :
    p.solve = .ok s := by
  rw [solve]
  split <;> simp_all

theorem solve_of_failed {p : Problem} {e : TypeError} (h : p.step = .failed e) :
    p.solve = .error e := by
  rw [solve]
  split <;> simp_all

theorem solve_of_next {p q : Problem} {made : Option Binding} (h : p.step = .next made q) :
    p.solve = q.solve := by
  rw [solve]
  split <;> simp_all

/-- Solves, and notes the bindings that are made on the way. They come before those in `made`, the
last one first. -/
def runFrom (made : List Binding) (p : Problem) : List Binding × Except TypeError Substitution :=
  match _h : p.step with
  | .done s => (made, .ok s)
  | .failed e => (made, .error e)
  | .next b q => q.runFrom (b.toList ++ made)
termination_by (p.variableCount, p.weight)
decreasing_by exact lighter_of_step _h

/-- The bindings that are made on the way, in order, and the solution. -/
def run (p : Problem) : List Binding × Except TypeError Substitution :=
  let (made, result) := p.runFrom []
  (made.reverse, result)

theorem runFrom_snd (made : List Binding) (p : Problem) : (p.runFrom made).2 = p.solve := by
  fun_induction runFrom made p with
  | case1 _ p s h => rw [solve_of_done h]
  | case2 _ p e h => rw [solve_of_failed h]
  | case3 _ p b q h ih => rw [ih, solve_of_next h]

@[simp] theorem run_snd (p : Problem) : p.run.2 = p.solve := runFrom_snd [] p

end Problem

def Ty.unify (l r : Ty) : Except TypeError Substitution := (Problem.empty.push l r).solve

end Prenex
