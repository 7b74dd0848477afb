import Mathlib.Data.FinEnum
import Mathlib.Logic.Equiv.Fintype
import Prenex.Proofs.Ty.Renumber
import Prenex.Proofs.Unify.Relabelling

/-!
# Other numbers for variables and skolems

There are finitely many indices, so numbers that are told apart on some of them can be completed to
a permutation of all. Permuting the variables, and the skolems on their own, is a relabelling, and
the unifier does not see it.
-/

namespace Prenex

theorem exists_perm_eqOn {m : Index → Index} {xs : Set Index} (hm : Set.InjOn m xs) :
    ∃ π : Equiv.Perm Index, Set.EqOn π m xs := by
  classical
  refine ⟨(Equiv.Set.imageOfInjOn m xs hm).extendSubtype, fun i hi => ?_⟩
  rw [Equiv.extendSubtype_apply_of_mem _ i hi]
  rfl

theorem exists_perm_agree {m : Index → Index} {xs : List Index}
    (hm : ∀ i ∈ xs, ∀ j ∈ xs, m i = m j → i = j) :
    ∃ π : Equiv.Perm Index, ∀ i ∈ xs, π i = m i := by
  have hinj : Set.InjOn m { i | i ∈ xs } := fun i hi j hj => hm i hi j hj
  obtain ⟨π, hπ⟩ := exists_perm_eqOn hinj
  exact ⟨π, fun i hi => hπ hi⟩

/-- Gives variables and skolems other numbers. -/
def Head.renumber (π τ : Index → Index) : Head → Head
  | .con c => .con c
  | .var i => .var (π i)
  | .skolem i => .skolem (τ i)

/-- Permutes the variables by `π` and the skolems by `τ`. -/
def Relabelling.ofPerms (π τ : Equiv.Perm Index) : Relabelling where
  head := Head.renumber π τ
  index := π
  head_var _ := rfl
  rigid {h} hh := by
    cases h with
    | con c => rfl
    | skolem i => rfl
    | var i => simp at hh
  head_beq_head h k := by
    show Head.same _ _ = Head.same _ _
    cases h <;> cases k <;> simp [Head.renumber, Head.same]

namespace Ty

variable {π τ m : Index → Index} {t : Ty}

theorem rename_eq_relabel (hπ : ∀ i ∈ t.vars, π i = m i)
    (hτ : ∀ j, Head.skolem j ∈ t.heads → τ j = j) :
    t.rename m = t.relabel (Head.renumber π τ) := by
  apply instantiate_eq_relabel
  rintro (c | i | j) hk
  · simp [Head.renumber]
  · rw [← mem_occurrences_iff_mem_heads, ← mem_vars] at hk
    simp [Head.renumber, hπ i hk, var]
  · simp [Head.renumber, hτ j hk]

theorem relabel_ofPerms (π : Equiv.Perm Index) (t : Ty) :
    t.relabel (Relabelling.ofPerms π (Equiv.refl Index)).head = t.rename π :=
  (rename_eq_relabel (fun _ _ => rfl) fun _ _ => rfl).symm

theorem relabel_ofPerms_of_agree {π : Equiv.Perm Index} (h : ∀ i ∈ t.occurrences, π i = m i) :
    t.relabel (Relabelling.ofPerms π (Equiv.refl Index)).head = t.rename m := by
  rw [relabel_ofPerms]
  apply rename_congr
  intro i hi
  exact h i (mem_vars.mp hi)

end Ty

theorem Problem.solve_rename {l r : Ty} {m : Index → Index} {π : Equiv.Perm Index}
    (h : ∀ i ∈ (Equation.mk l r).occurrences, π i = m i) :
    solve ⟨.empty, [⟨l.rename m, r.rename m⟩]⟩ =
      (Relabelling.ofPerms π (Equiv.refl Index)).outcome (solve ⟨.empty, [⟨l, r⟩]⟩) := by
  obtain ⟨hl, hr⟩ := List.forall_mem_append.mp h
  rw [← solve_relabel, ← Ty.relabel_ofPerms_of_agree hl, ← Ty.relabel_ofPerms_of_agree hr]
  rfl

end Prenex
