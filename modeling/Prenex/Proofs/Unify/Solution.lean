import Prenex.Unify.Problem
import Prenex.Proofs.Ty.Equality

/-!
# Solutions of an equation

An assignment solves an equation if it makes the two sides equal. New equations have the solutions
of the one that they stand for. An equation that fails has no solution, unless it fails because of
the number of arguments that a variable has.
-/

namespace Prenex

namespace TypeError

/-- A variable with arguments stands on the left. On the right stands a variable with another number
of them, or another head with more. -/
inductive CountMismatch : TypeError → Prop
  | var {x y : Index} {ts us : List Ty} : 1 ≤ ts.length → us.length ≠ ts.length →
      CountMismatch (.mismatch (.app (.var x) ts) (.app (.var y) us))
  | rigid {x : Index} {h : Head} {ts us : List Ty} :
      1 ≤ ts.length → h.var? = none → ts.length < us.length →
      CountMismatch (.mismatch (.app (.var x) ts) (.app h us))

end TypeError

namespace Equation

theorem mem_zipWith {e : Equation} {ts us : List Ty} (he : e ∈ List.zipWith Equation.mk ts us) :
    e.left ∈ ts ∧ e.right ∈ us := by
  induction ts generalizing us with
  | nil => simp at he
  | cons t ts ih =>
    rcases us with _ | ⟨u, us⟩
    · simp at he
    · rw [List.zipWith_cons_cons, List.mem_cons] at he
      rcases he with rfl | he
      · simp
      · obtain ⟨hl, hr⟩ := ih he
        exact ⟨List.mem_cons_of_mem _ hl, List.mem_cons_of_mem _ hr⟩

theorem rule_of_move {e : Equation} {m : Move} (h : e.move = m) : Rule e m := by
  rw [← h]
  exact e.rule

theorem move_eq_of_rule {e : Equation} {m : Move} (h : Rule e m) : e.move = m := by
  unfold move
  cases h with
  | same heq => rw [if_pos heq]
  | bind hne hx => simp [hne, hx]
  | infinite hne hx => simp [hne, hx]
  | applied hne hts hlen => simp [hne, hts, hlen, pairArgs]
  | appliedCount hne hts hlen => simp [hne, hts, hlen, pairArgs]
  | @swap l y us hne hl =>
    obtain ⟨h, ts⟩ := l
    cases h <;> simp_all
  | @pair h k ts us hne hh hk hhead hlen => cases h <;> cases k <;> simp_all [pairArgs]
  | @pairCount h k ts us hne hh hk hhead hlen => cases h <;> cases k <;> simp_all [pairArgs]
  | @clash h k ts us hne hh hk hhead => cases h <;> cases k <;> simp_all [Ty.bare]

def SolvedBy (e : Equation) (f : Index → Ty) : Prop :=
  (e.left.instantiate f == e.right.instantiate f) = true

variable {f : Index → Ty}

theorem solvedBy_mk (l r : Ty) :
    (Equation.mk l r).SolvedBy f ↔ (l.instantiate f == r.instantiate f) = true :=
  Iff.rfl

theorem solvedBy_swap (l r : Ty) : (Equation.mk l r).SolvedBy f ↔ (Equation.mk r l).SolvedBy f := by
  rw [solvedBy_mk, solvedBy_mk, BEq.comm]

theorem solvedBy_zipWith {ts us : List Ty} (hlen : ts.length = us.length) :
    (∀ e ∈ List.zipWith Equation.mk ts us, e.SolvedBy f) ↔
      (ts.map (Ty.instantiate f) == us.map (Ty.instantiate f)) = true := by
  induction ts generalizing us with
  | nil =>
    obtain rfl : us = [] := List.eq_nil_of_length_eq_zero hlen.symm
    simp
  | cons t ts ih =>
    cases us with
    | nil => simp at hlen
    | cons u us =>
      have htail := @ih us (by simpa using hlen)
      simp [List.cons_beq_cons, solvedBy_mk, htail]

/-! ## Moves that go on -/

theorem solvedBy_of_drop {e : Equation} (h : e.move = .drop) : e.SolvedBy f := by
  cases rule_of_move h with
  | same heq => exact Ty.instantiate_beq heq fun i _ => BEq.rfl

/-- The image of a variable with arguments ends in the images of the arguments. So it can be
compared with the other side from the end, head against what is left. -/
theorem solvedBy_applied {x : Index} {ts : List Ty} {r : Ty} (hlen : ts.length = r.args.length) :
    (Equation.mk (.app (.var x) ts) r).SolvedBy f ↔
      (Equation.mk (.var x) r.bare).SolvedBy f ∧
        ∀ e ∈ List.zipWith Equation.mk ts r.args, e.SolvedBy f := by
  rw [solvedBy_zipWith hlen, solvedBy_mk, solvedBy_mk, Ty.instantiate_var_app,
    Ty.instantiate_bare_var, Ty.instantiate_eq_bare_applyTo f r,
    Ty.applyTo_beq_applyTo_iff (by simpa using hlen)]

theorem solvedBy_rigid {h k : Head} {ts us : List Ty} (hh : h.var? = none) (hk : k.var? = none) :
    (Equation.mk (.app h ts) (.app k us)).SolvedBy f ↔
      (h == k) = true ∧ (ts.map (Ty.instantiate f) == us.map (Ty.instantiate f)) = true := by
  rw [solvedBy_mk, Ty.instantiate_of_var?_eq_none hh, Ty.instantiate_of_var?_eq_none hk,
    Ty.app_beq_app, Bool.and_eq_true]

theorem solvedBy_replace_iff {e : Equation} {es : List Equation} (h : e.move = .replace es) :
    e.SolvedBy f ↔ ∀ e' ∈ es, e'.SolvedBy f := by
  cases rule_of_move h with
  | applied _ _ hlen =>
    rw [solvedBy_applied hlen, List.forall_mem_cons]
  | @swap l y us =>
    rw [solvedBy_swap]
    simp
  | pair _ hh hk hhead hlen =>
    rw [solvedBy_rigid hh hk, solvedBy_zipWith hlen]
    simp [hhead]

theorem instantiate_substitute_beq {x : Index} {t : Ty} (hx : (f x == t.instantiate f) = true)
    (u : Ty) :
    ((u.substitute x t).instantiate f == u.instantiate f) = true := by
  rw [Ty.instantiate_substitute]
  apply Ty.instantiate_beq BEq.rfl
  intro y _
  split
  · rename_i hy
    rw [hy]
    exact BEq.symm hx
  · exact BEq.rfl

theorem solvedBy_substitute_iff {x : Index} {t : Ty} (hx : (f x == t.instantiate f) = true)
    (e : Equation) :
    (e.substitute x t).SolvedBy f ↔ e.SolvedBy f := by
  have hl := instantiate_substitute_beq hx e.left
  have hr := instantiate_substitute_beq hx e.right
  unfold SolvedBy substitute
  rw [BEq.congr_left hl, BEq.congr_right hr]

/-! ## Moves that fail -/

theorem not_solvedBy_of_occurs {x : Index} {r : Ty} (hne : (Ty.var x == r) = false)
    (hx : r.occurs x = true) :
    ¬ (Equation.mk (.var x) r).SolvedBy f := by
  intro hf
  rw [solvedBy_mk, Ty.instantiate_bare_var] at hf
  have hsize := Ty.size_eq_of_beq hf
  have hlt : (f x).size < (r.instantiate f).size := by
    apply Ty.size_image_lt ((Ty.occurs_iff_mem_occurrences x r).mp hx)
    rintro rfl
    rw [BEq.rfl] at hne
    cases hne
  omega

theorem length_le_of_solvedBy {x : Index} {k : Head} {ts us : List Ty} (hk : k.var? = none)
    (hf : (Equation.mk (.app (.var x) ts) (.app k us)).SolvedBy f) : ts.length ≤ us.length := by
  rw [solvedBy_mk, Ty.instantiate_var_app, Ty.instantiate_of_var?_eq_none hk] at hf
  have hlen := Ty.length_args_eq_of_beq hf
  simp at hlen
  omega

theorem exists_applied_of_fail {e : Equation} {err : TypeError} (h : e.move = .fail err)
    (hf : e.SolvedBy f) :
    ∃ x ts r, e = ⟨.app (.var x) ts, r⟩ ∧ err = .mismatch (.app (.var x) ts) r ∧ ts ≠ [] ∧
      ts.length ≠ r.args.length := by
  cases rule_of_move h with
  | infinite hne hx => exact absurd hf (not_solvedBy_of_occurs hne hx)
  | appliedCount _ hts hlen => exact ⟨_, _, _, rfl, rfl, hts, hlen⟩
  | pairCount _ hh hk _ hlen =>
    have hargs := ((solvedBy_rigid hh hk).mp hf).2
    rw [Ty.list_beq_iff] at hargs
    have := congrArg List.length hargs
    simp at this
    exact absurd this hlen
  | clash _ hh hk hhead =>
    have := ((solvedBy_rigid hh hk).mp hf).1
    simp [hhead] at this

theorem countMismatch_of_solvedBy {e : Equation} {err : TypeError} (h : e.move = .fail err)
    (hf : e.SolvedBy f) : err.CountMismatch := by
  obtain ⟨x, ts, ⟨k, us⟩, rfl, rfl, hts, hlen⟩ := exists_applied_of_fail h hf
  have hpos := List.length_pos_iff.mpr hts
  rw [Ty.args_app] at hlen
  rcases hk : k.var? with _ | y
  · have := length_le_of_solvedBy hk hf
    exact .rigid hpos hk (by omega)
  · obtain rfl := Head.var?_eq_some_iff.mp hk
    exact .var hpos (Ne.symm hlen)

end Equation

end Prenex
