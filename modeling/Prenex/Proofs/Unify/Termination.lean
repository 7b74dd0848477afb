import Mathlib.Data.List.Chain
import Prenex.Proofs.Ty.Instantiate
import Prenex.Proofs.Unify.Run

/-!
# Every run ends

A step that binds nothing makes the queue lighter. A step that binds may make it heavier, as each
place of the variable becomes a whole type, but type and places stood in the same queue, so the
weight is at most squared. And a variable is gone for good. So there is a bound on the number of
steps, and it can be read off the queue.
-/

namespace Prenex

/-! ## How much a binding adds -/

namespace Ty

theorem size_instantiate_le {f : Index → Ty} {n : Nat} (hn : 0 < n) (hf : ∀ i, (f i).size ≤ n)
    (t : Ty) :
    (t.instantiate f).size ≤ t.size * n := by
  induction t with
  | app h ts ih =>
    have hhead : ((Ty.app h []).instantiate f).size ≤ n := by
      rcases hh : h.var? with _ | i
      · rw [instantiate_of_var?_eq_none hh]
        simp only [List.map_nil, size_app, totalSize]
        omega
      · obtain rfl := Head.var?_eq_some_iff.mp hh
        simpa using hf i
    have hargs : totalSize (ts.map (instantiate f)) ≤ totalSize ts * n := by
      induction ts with
      | nil => simp [totalSize]
      | cons t ts ihs =>
        have ht := ih t (by simp)
        have hts := ihs fun u hu => ih u (by simp [hu])
        rw [List.map_cons, totalSize, totalSize, Nat.add_mul]
        omega
    rw [instantiate_app, size_applyTo, size_app, Nat.add_mul, Nat.one_mul]
    omega

theorem size_substitute_le (t : Ty) (x : Index) (u : Ty) :
    (t.substitute x u).size ≤ t.size * u.size := by
  rw [substitute_eq_instantiate]
  apply size_instantiate_le u.size_pos
  intro y
  split
  · exact Nat.le_refl _
  · exact u.size_pos

end Ty

namespace Equation

theorem weight_substitute_le (e : Equation) (x : Index) (t : Ty) :
    (e.substitute x t).weight ≤ 2 * t.size * e.weight := by
  have hl := e.left.size_substitute_le x t
  have hr := e.right.size_substitute_le x t
  have hbackwards := Bool.toNat_le (e.substitute x t).backwards
  have hsides : e.left.size + e.right.size ≤ e.weight := by
    have := e.left.size_pos
    have := e.right.size_pos
    unfold weight
    omega
  have hpos := (e.substitute x t).left.size_pos
  calc (e.substitute x t).weight
      ≤ 2 * ((e.substitute x t).left.size + (e.substitute x t).right.size) := by
        unfold weight
        omega
    _ ≤ 2 * ((e.left.size + e.right.size) * t.size) := by
        rw [Nat.add_mul]
        exact Nat.mul_le_mul_left 2 (Nat.add_le_add hl hr)
    _ ≤ 2 * (e.weight * t.size) := Nat.mul_le_mul_left 2 (Nat.mul_le_mul_right _ hsides)
    _ = 2 * t.size * e.weight := by rw [Nat.mul_comm e.weight, Nat.mul_assoc]

theorem totalWeight_substitute_le (es : List Equation) (x : Index) (t : Ty) :
    totalWeight (es.map (·.substitute x t)) ≤ 2 * t.size * totalWeight es := by
  induction es with
  | nil => simp [totalWeight]
  | cons e es ih =>
    have := e.weight_substitute_le x t
    rw [List.map_cons, totalWeight, totalWeight, Nat.mul_add]
    omega

end Equation

namespace Problem

/-! ## A bound that every step lowers -/

variable {p q : Problem}

theorem weight_le_of_next (h : Next p q) : q.weight ≤ p.weight * p.weight := by
  rcases h with @⟨s, e, rest, hmove⟩ | @⟨s, x, t, rest, hmove⟩ | @⟨s, e, es, rest, hmove⟩
  · refine Nat.le_trans ?_ (Nat.le_mul_self _)
    simp only [weight, Equation.totalWeight]
    omega
  · -- The type is half of the equation in front, and the places are in the others.
    have hfront : 2 * t.size ≤ weight ⟨s, ⟨.var x, t⟩ :: rest⟩ := by
      simp only [weight, Equation.totalWeight, Equation.weight, Ty.var, Ty.size_app, Ty.totalSize]
      omega
    have hrest : Equation.totalWeight rest ≤ weight ⟨s, ⟨.var x, t⟩ :: rest⟩ := by
      simp only [weight, Equation.totalWeight]
      omega
    exact Nat.le_trans (Equation.totalWeight_substitute_le rest x t) (Nat.mul_le_mul hfront hrest)
  · have := Equation.totalWeight_lt_of_move hmove
    refine Nat.le_trans ?_ (Nat.le_mul_self _)
    simp only [weight, Equation.totalWeight, Equation.totalWeight_append]
    omega

/-- Enough steps for `v` variables and weight `w`: those up to the next binding, the binding, and
those for one variable less and the square of the weight. -/
def enoughSteps : (v w : Nat) → Nat
  | 0, w => w
  | v + 1, w => w + 1 + enoughSteps v (w * w)

theorem enoughSteps_mono_weight {v w w' : Nat} (h : w ≤ w') :
    enoughSteps v w ≤ enoughSteps v w' := by
  induction v generalizing w w' with
  | zero => exact h
  | succ v ih =>
    have := ih (Nat.mul_le_mul h h)
    unfold enoughSteps
    omega

theorem enoughSteps_lt_of_weight_lt {v w w' : Nat} (h : w < w') :
    enoughSteps v w < enoughSteps v w' := by
  match v with
  | 0 => exact h
  | v + 1 =>
    have := enoughSteps_mono_weight (v := v) (Nat.mul_le_mul (Nat.le_of_lt h) (Nat.le_of_lt h))
    unfold enoughSteps
    omega

theorem enoughSteps_mono_count {v v' : Nat} (h : v ≤ v') (w : Nat) :
    enoughSteps v w ≤ enoughSteps v' w := by
  induction h with
  | refl => exact Nat.le_refl _
  | @step k _ ih =>
    have := enoughSteps_mono_weight (v := k) (Nat.le_mul_self w)
    rw [enoughSteps]
    omega

def maxSteps (p : Problem) : Nat := enoughSteps p.variableCount p.weight

theorem maxSteps_lt_of_next (h : Next p q) : q.maxSteps < p.maxSteps := by
  have hweight := weight_le_of_next h
  obtain ⟨made, hstep⟩ := (next_iff_step p q).mp h
  unfold maxSteps
  rcases Prod.lex_def.mp (lighter_of_step hstep) with hcount | ⟨hcount, hlighter⟩
  · obtain ⟨v, hv⟩ : ∃ v, p.variableCount = v + 1 :=
      Nat.exists_eq_add_one.mpr (Nat.zero_lt_of_lt hcount)
    have hle : enoughSteps q.variableCount q.weight ≤ enoughSteps v (p.weight * p.weight) := by
      refine Nat.le_trans (enoughSteps_mono_weight hweight) (enoughSteps_mono_count ?_ _)
      dsimp only at hcount
      omega
    rw [hv, enoughSteps]
    omega
  · dsimp only at hcount hlighter
    rw [hcount]
    exact enoughSteps_lt_of_weight_lt hlighter

/-! ## The loop -/

/-- The loop that takes equations from the front, stopped after `n` rounds. -/
def solveWithin (p : Problem) : (n : Nat) → Option (Except TypeError Substitution)
  | 0 => none
  | n + 1 =>
    match p.step with
    | .done s => some (.ok s)
    | .failed err => some (.error err)
    | .next _ q => q.solveWithin n

theorem solveWithin_eq {n : Nat} (h : p.maxSteps < n) : p.solveWithin n = some p.solve := by
  induction n generalizing p with
  | zero => omega
  | succ n ih =>
    unfold solveWithin
    rcases hstep : p.step with s | err | ⟨made, q⟩
    · rw [solve_of_done hstep]
    · rw [solve_of_failed hstep]
    · have hless := maxSteps_lt_of_next ((next_iff_step p q).mpr ⟨made, hstep⟩)
      rw [solve_of_next hstep]
      exact ih (by omega)

theorem length_le_maxSteps {qs : List Problem} (h : (p :: qs).IsChain Next) :
    qs.length ≤ p.maxSteps := by
  induction qs generalizing p with
  | nil => exact Nat.zero_le _
  | cons q qs ih =>
    obtain ⟨hnext, hrest⟩ := List.isChain_cons_cons.mp h
    have := maxSteps_lt_of_next hnext
    have := ih hrest
    rw [List.length_cons]
    omega

/-- From any queue of equations no run is longer than the bound. A loop that may go on for longer
than that has the answer. -/
theorem solve_ends (p : Problem) :
    (∀ qs, (p :: qs).IsChain Next → qs.length ≤ p.maxSteps) ∧
    ∀ n, p.maxSteps < n → p.solveWithin n = some p.solve :=
  ⟨fun _ h => length_le_maxSteps h, fun _ h => solveWithin_eq h⟩

theorem solve_ends_heavier :
    let twice (t : Ty) : Ty := .app (.skolem 0) [t, t]
    let p := Problem.empty.pushAll
      [⟨.var 0, twice (.var 1)⟩, ⟨.app (.var 2) [.var 3, .var 1], twice (.var 0)⟩]
    let q : Problem :=
      ⟨.single 0 (twice (.var 1)), [⟨.app (.var 2) [.var 3, .var 1], twice (twice (.var 1))⟩]⟩
    Next p q ∧ p.weight < q.weight ∧ [q].length ≤ p.maxSteps ∧
      p.solveWithin (p.maxSteps + 1) = some p.solve := by
  -- The first binding makes the second equation heavier than both were before.
  intro twice p q
  have hnext : Next p q := (next_iff_step p q).mpr ⟨_, rfl⟩
  have hweight : p.weight < q.weight := by decide
  obtain ⟨hchain, hloop⟩ := solve_ends p
  exact ⟨hnext, hweight, hchain [q] (by simpa using hnext), hloop _ (Nat.lt_succ_self _)⟩

end Problem

end Prenex
