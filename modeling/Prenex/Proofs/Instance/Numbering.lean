import Prenex.Proofs.Instance
import Prenex.Proofs.Unify.Renumbering

/-!
# The numbers of variables in an instance check

The variables of `required` become skolems with the same numbers, and a skolem that is there already
may have one of them. Other numbers for `required` do not change the answer as long as they neither
bring two such skolems together nor part them. The numbers in `actual` do not matter at all.
-/

namespace Prenex

def Head.skolemize : Head → Head
  | .var i => .skolem i
  | h => h

namespace Ty

/-- A skolem with this number stands in the type. -/
def HasSkolem (t : Ty) (j : Index) : Prop := Head.skolem j ∈ t.heads

theorem skolemize_eq_relabel (t : Ty) : t.skolemize = t.relabel Head.skolemize := by
  apply instantiate_eq_relabel
  rintro (c | i | j) _ <;> simp [Head.skolemize]

theorem skolemize_rename_eq_relabel {m τ : Index → Index} {t : Ty} (π : Index → Index)
    (hvars : ∀ i ∈ t.vars, τ i = m i) (hskolems : ∀ j, t.HasSkolem j → τ j = j) :
    (t.rename m).skolemize = t.skolemize.relabel (Head.renumber π τ) := by
  have hleft : (t.rename m).skolemize = t.instantiate fun i => .app (.skolem (m i)) [] :=
    instantiate_rename _ m t
  rw [hleft, skolemize_eq_relabel, relabel_relabel]
  apply instantiate_eq_relabel
  rintro (c | i | j) hk
  · simp [Head.skolemize, Head.renumber]
  · rw [← mem_occurrences_iff_mem_heads, ← mem_vars] at hk
    simp [Head.skolemize, Head.renumber, hvars i hk]
  · simp [Head.skolemize, Head.renumber, hskolems j hk]

theorem isOk_checkInstance (required actual : Ty) :
    (required.checkInstance actual).isOk = (instanceProblem required actual).solve.isOk := by
  unfold checkInstance
  split <;> simp_all [Except.isOk, Except.toBool]

/-- Where the skolems of a check go if `required` gets other numbers: those that were variables
follow them, and those that were skolems stay. -/
theorem exists_perm_of_apart {xs : List Index} {S : Index → Prop} {m : Index → Index}
    (hm : ∀ i ∈ xs, ∀ j ∈ xs, m i = m j → i = j) (hS : ∀ i ∈ xs, ∀ j, S j → (m i = j ↔ i = j)) :
    ∃ τ : Equiv.Perm Index, (∀ i ∈ xs, τ i = m i) ∧ ∀ j, S j → τ j = j := by
  let k : Index → Index := fun j => if j ∈ xs then m j else j
  have hvars : ∀ i ∈ xs, k i = m i := fun i hi => if_pos hi
  have hskolems : ∀ j, S j → k j = j := by
    intro j hj
    by_cases hjx : j ∈ xs
    · rw [hvars j hjx]
      exact (hS j hjx j hj).mpr rfl
    · exact if_neg hjx
  have hk : Set.InjOn k { j | j ∈ xs ∨ S j } := by
    rintro i (hi | hi) j (hj | hj) hij
    · rw [hvars i hi, hvars j hj] at hij
      exact hm i hi j hj hij
    · rw [hvars i hi, hskolems j hj] at hij
      exact (hS i hi j hj).mp hij
    · rw [hskolems i hi, hvars j hj] at hij
      exact ((hS j hj i hi).mp hij.symm).symm
    · rwa [hskolems i hi, hskolems j hj] at hij
  obtain ⟨τ, hτ⟩ := exists_perm_eqOn hk
  exact ⟨τ, fun i hi => (hτ (.inl hi)).trans (hvars i hi),
    fun j hj => (hτ (.inr hj)).trans (hskolems j hj)⟩

/-- Other numbers for the variables of the two types do not change the answer, if no variable of
`required` gets the number of a skolem or gives it up. -/
theorem isOk_checkInstance_rename (required actual : Ty) (m₁ m₂ : Index → Index)
    (h₁ : ∀ i ∈ required.vars, ∀ j ∈ required.vars, m₁ i = m₁ j → i = j)
    (h₂ : ∀ i ∈ actual.vars, ∀ j ∈ actual.vars, m₂ i = m₂ j → i = j)
    (hskolem : ∀ i ∈ required.vars,
      ∀ j, required.HasSkolem j ∨ actual.HasSkolem j → (m₁ i = j ↔ i = j)) :
    ((required.rename m₁).checkInstance (actual.rename m₂)).isOk =
      (required.checkInstance actual).isOk := by
  obtain ⟨τ, hvars, hskolems⟩ := exists_perm_of_apart h₁ hskolem
  have hinj : Set.InjOn m₂ { i | i ∈ actual.vars } := fun i hi j hj => h₂ i hi j hj
  obtain ⟨π, hπ⟩ := exists_perm_eqOn hinj
  have hproblem : instanceProblem (required.rename m₁) (actual.rename m₂) =
      (instanceProblem required actual).relabel (.ofPerms π τ) := by
    have hrequired := skolemize_rename_eq_relabel π hvars fun j hj => hskolems j (.inl hj)
    have hactual := rename_eq_relabel (m := m₂) (fun i hi => hπ hi) fun j hj => hskolems j (.inr hj)
    simp only [instanceProblem, hrequired, hactual]
    rfl
  rw [isOk_checkInstance, isOk_checkInstance, hproblem, Problem.solve_relabel]
  cases (instanceProblem required actual).solve <;> rfl

theorem isOk_checkInstance_rename_swapped :
    let required : Ty := .app (.var 0) [.var 1, .app (.skolem 5) []]
    let actual : Ty := .app (.var 0) [.var 1, .app (.skolem 5) []]
    let m₁ : Index → Index := fun i => if i = 0 then 1 else 0
    let m₂ : Index → Index := fun i => if i = 0 then 5 else 1
    (required.checkInstance actual).isOk = true ∧ (required.rename m₁).vars = [1, 0] ∧
      (actual.rename m₂).vars = [5, 1] ∧
      ((required.rename m₁).checkInstance (actual.rename m₂)).isOk = true := by
  intro required actual m₁ m₂
  have hvars : required.vars = [0, 1] := rfl
  have hvars' : actual.vars = [0, 1] := rfl
  have hskolem : ∀ j, required.HasSkolem j ∨ actual.HasSkolem j → j = 5 := by
    simp [required, actual, HasSkolem, var]
  have hok : (required.checkInstance actual).isOk = true := by
    rw [isOk_checkInstance, Problem.solve_of_next rfl, Problem.solve_of_next rfl,
      Problem.solve_of_next rfl, Problem.solve_of_next rfl, Problem.solve_of_next rfl,
      Problem.solve_of_done rfl]
    rfl
  refine ⟨hok, rfl, rfl, ?_⟩
  rw [isOk_checkInstance_rename required actual m₁ m₂ (by simp [hvars, m₁])
    (by simp [hvars', m₂]) ?_, hok]
  intro i hi j hj
  obtain rfl := hskolem j hj
  simp only [hvars, List.mem_cons, List.not_mem_nil, or_false] at hi
  rcases hi with rfl | rfl <;> simp [m₁]

/-- Without that condition the numbers do matter: a skolem does not pass where a variable is
required, unless the variable has its number. -/
theorem checkInstance_confuses_skolems :
    ¬ ∀ (required actual : Ty) (m₁ m₂ : Index → Index),
      (∀ i ∈ required.vars, ∀ j ∈ required.vars, m₁ i = m₁ j → i = j) →
      (∀ i ∈ actual.vars, ∀ j ∈ actual.vars, m₂ i = m₂ j → i = j) →
      ((required.rename m₁).checkInstance (actual.rename m₂)).isOk =
        (required.checkInstance actual).isOk := by
  intro h
  have hsame := h (.var 0) (.app (.skolem 0) []) (fun _ => 1) id (by simp [vars]) (by simp [vars])
  have hzero : ((Ty.var 0).checkInstance (.app (.skolem 0) [])).isOk = true := by
    rw [isOk_checkInstance, Problem.solve_of_next rfl, Problem.solve_of_done rfl]
    rfl
  have hone : (((Ty.var 0).rename fun _ => 1).checkInstance
      ((Ty.app (.skolem 0) []).rename id)).isOk = false := by
    rw [isOk_checkInstance, Problem.solve_of_failed rfl]
    rfl
  rw [hzero, hone] at hsame
  cases hsame

end Ty

end Prenex
