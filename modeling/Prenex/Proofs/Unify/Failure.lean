import Prenex.Proofs.Unify.MostGeneral
import Prenex.Proofs.Ty.ArgumentCounts

/-!
# When unification fails

A solution of two types solves every problem on the way, so an equation that fails on the way has a
solution too. Only the rule on the number of arguments fails then. Where no variable has arguments
the rule never comes up.
-/

namespace Prenex

/-! ## Without applied variables -/

namespace Equation

def FirstOrder (e : Equation) : Prop := e.left.FirstOrder ∧ e.right.FirstOrder

theorem firstOrder_of_replace {e : Equation} {es : List Equation} (h : e.move = .replace es)
    (he : e.FirstOrder) :
    ∀ e' ∈ es, e'.FirstOrder := by
  obtain ⟨hl, hr⟩ := he
  cases rule_of_move h with
  | applied _ hts _ => exact absurd (((Ty.firstOrder_app _ _).mp hl).1 rfl) hts
  | swap => simpa using ⟨hr, hl⟩
  | pair =>
    intro e' he'
    obtain ⟨ht, hu⟩ := mem_zipWith he'
    exact ⟨((Ty.firstOrder_app _ _).mp hl).2 _ ht, ((Ty.firstOrder_app _ _).mp hr).2 _ hu⟩

end Equation

namespace Problem

theorem firstOrder_next {p q : Problem} (hnext : Next p q) (hp : ∀ e ∈ p.pending, e.FirstOrder) :
    ∀ e ∈ q.pending, e.FirstOrder := by
  rcases hnext with hmove | hmove | hmove
  · exact fun e he => hp e (List.mem_cons_of_mem _ he)
  · obtain ⟨⟨-, ht⟩, hrest⟩ := List.forall_mem_cons.mp hp
    intro e' he'
    obtain ⟨e, he, rfl⟩ := List.mem_map.mp he'
    obtain ⟨hl, hr⟩ := hrest e he
    exact ⟨hl.substitute ht _, hr.substitute ht _⟩
  · obtain ⟨he, hrest⟩ := List.forall_mem_cons.mp hp
    exact List.forall_mem_append.mpr ⟨Equation.firstOrder_of_replace hmove he, hrest⟩

/-! ## Failing runs -/

theorem countMismatch_of_solve_error {es : List Equation} {err : TypeError} {f : Index → Ty}
    (h : solve ⟨.empty, es⟩ = .error err) (hf : ∀ e ∈ es, e.SolvedBy f) : err.CountMismatch := by
  obtain ⟨s, e, rest, -, hmove, he⟩ := solved_of_solve_error h hf
  exact Equation.countMismatch_of_solvedBy hmove he

theorem exists_solve_ok_of_firstOrder {es : List Equation} {f : Index → Ty}
    (hes : ∀ e ∈ es, e.FirstOrder) (hf : ∀ e ∈ es, e.SolvedBy f) :
    ∃ s, solve ⟨.empty, es⟩ = .ok s := by
  rcases hsolve : solve ⟨.empty, es⟩ with err | s
  · obtain ⟨s, e, rest, hreach, hmove, he⟩ := solved_of_solve_error hsolve hf
    obtain ⟨x, ts, r, rfl, -, hts, -⟩ := Equation.exists_applied_of_fail hmove he
    have hkept :=
      hreach.keeps (I := fun p => ∀ e ∈ p.pending, e.FirstOrder) (fun _ _ => firstOrder_next) hes
    have hleft := (hkept _ List.mem_cons_self).1
    exact absurd (((Ty.firstOrder_app _ _).mp hleft).1 rfl) hts
  · exact ⟨s, rfl⟩

end Problem

/-! ## Two types -/

namespace Ty

def Unifiable (l r : Ty) : Prop := ∃ θ : Substitution, (θ.apply l == θ.apply r) = true

theorem Unifiable.symm {l r : Ty} (h : l.Unifiable r) : r.Unifiable l := by
  obtain ⟨θ, hθ⟩ := h
  exact ⟨θ, BEq.symm hθ⟩

theorem Unifiable.solvedBy {l r : Ty} (h : l.Unifiable r) :
    ∃ θ : Substitution, ∀ e ∈ [Equation.mk l r], e.SolvedBy θ.image := by
  obtain ⟨θ, hθ⟩ := h
  exact ⟨θ, by simpa using (θ.solvedBy_image_iff ⟨l, r⟩).mpr hθ⟩

theorem unifiable_of_unify_ok {l r : Ty} {s : Substitution} (h : l.unify r = .ok s) :
    l.Unifiable r :=
  ⟨s, (s.solvedBy_image_iff ⟨l, r⟩).mp (Problem.solvedBy_of_solve_ok h _ List.mem_cons_self)⟩

theorem countMismatch_of_unify_error {l r : Ty} {err : TypeError} (h : l.unify r = .error err)
    (hlr : l.Unifiable r) : err.CountMismatch := by
  obtain ⟨θ, hθ⟩ := hlr.solvedBy
  exact Problem.countMismatch_of_solve_error h hθ

theorem exists_unify_ok_iff {l r : Ty} (hl : l.FirstOrder) (hr : r.FirstOrder) :
    (∃ s, l.unify r = .ok s) ↔ l.Unifiable r := by
  constructor
  · rintro ⟨s, hs⟩
    exact unifiable_of_unify_ok hs
  · intro hlr
    obtain ⟨θ, hθ⟩ := hlr.solvedBy
    have hes : ∀ e ∈ [Equation.mk l r], e.FirstOrder := by
      simpa using ⟨hl, hr⟩
    exact Problem.exists_solve_ok_of_firstOrder hes hθ

/-- Two types with a solution fail only by the number of arguments of a variable on the left. -/
theorem unify_fails_only_by_count (l r : Ty) :
    (∀ err, l.unify r = .error err → l.Unifiable r → err.CountMismatch) ∧
    (∀ x t, l.unify r = .error (.occursCheck x t) → ¬ l.Unifiable r) ∧
    (∀ a b, l.unify r = .error (.mismatch a b) → a.head.var? = none → ¬ l.Unifiable r) ∧
    (l.FirstOrder → r.FirstOrder →
      ((∃ s, l.unify r = .ok s) ↔ l.Unifiable r) ∧
        ((∃ s, l.unify r = .ok s) ↔ ∃ s, r.unify l = .ok s)) := by
  refine ⟨fun err herr hlr => countMismatch_of_unify_error herr hlr, fun x t herr hlr => ?_,
    fun a b herr ha hlr => ?_, fun hl hr => ⟨exists_unify_ok_iff hl hr, ?_⟩⟩
  · cases countMismatch_of_unify_error herr hlr
  · cases countMismatch_of_unify_error herr hlr <;> simp at ha
  · rw [exists_unify_ok_iff hl hr, exists_unify_ok_iff hr hl]
    exact ⟨Unifiable.symm, Unifiable.symm⟩

theorem unify_fails_only_by_count_cases :
    ((Ty.app (.var 0) [.app (.skolem 1) []]).unify (.var 1) =
        .error (.mismatch (.app (.var 0) [.app (.skolem 1) []]) (.var 1)) ∧
      (Ty.app (.var 0) [.app (.skolem 1) []]).Unifiable (.var 1) ∧
      (TypeError.mismatch (.app (.var 0) [.app (.skolem 1) []]) (.var 1)).CountMismatch) ∧
    ((Ty.var 0).unify (.app (.var 0) [.app (.skolem 1) []]) =
        .error (.occursCheck 0 (.app (.var 0) [.app (.skolem 1) []])) ∧
      ¬ (Ty.var 0).Unifiable (.app (.var 0) [.app (.skolem 1) []])) ∧
    ((Ty.app (.skolem 0) []).unify (.app (.skolem 1) [.var 0]) =
        .error (.mismatch (.app (.skolem 0) []) (.app (.skolem 1) [])) ∧
      ¬ (Ty.app (.skolem 0) []).Unifiable (.app (.skolem 1) [.var 0])) ∧
    ((Ty.app (.skolem 0) [.var 0, .var 1]).Unifiable
      (.app (.skolem 0) [.var 1, .app (.skolem 1) []]) ∧
      (∃ s, (Ty.app (.skolem 0) [.var 0, .var 1]).unify
        (.app (.skolem 0) [.var 1, .app (.skolem 1) []]) = .ok s) ∧
      ∃ s, (Ty.app (.skolem 0) [.var 1, .app (.skolem 1) []]).unify
        (.app (.skolem 0) [.var 0, .var 1]) = .ok s) := by
  -- An applied variable on the left of a bare one fails, although the bare one could be bound.
  have hcount : (Ty.app (.var 0) [.app (.skolem 1) []]).unify (.var 1) =
      .error (.mismatch (.app (.var 0) [.app (.skolem 1) []]) (.var 1)) :=
    Problem.solve_of_failed rfl
  have hbind : (Ty.app (.var 0) [.app (.skolem 1) []]).Unifiable (.var 1) :=
    ⟨.single 1 (.app (.var 0) [.app (.skolem 1) []]), by decide⟩
  have hinfinite : (Ty.var 0).unify (.app (.var 0) [.app (.skolem 1) []]) =
      .error (.occursCheck 0 (.app (.var 0) [.app (.skolem 1) []])) :=
    Problem.solve_of_failed rfl
  have hclash : (Ty.app (.skolem 0) []).unify (.app (.skolem 1) [.var 0]) =
      .error (.mismatch (.app (.skolem 0) []) (.app (.skolem 1) [])) :=
    Problem.solve_of_failed rfl
  have hpair : (Ty.app (.skolem 0) [.var 0, .var 1]).Unifiable
      (.app (.skolem 0) [.var 1, .app (.skolem 1) []]) :=
    ⟨⟨[(0, .app (.skolem 1) []), (1, .app (.skolem 1) [])], by decide⟩, by decide⟩
  have hplain := (unify_fails_only_by_count (.app (.skolem 0) [.var 0, .var 1])
    (.app (.skolem 0) [.var 1, .app (.skolem 1) []])).2.2.2
    (by simp [firstOrder_app, firstOrder_var]) (by simp [firstOrder_app, firstOrder_var])
  have hok := hplain.1.mpr hpair
  exact ⟨⟨hcount, hbind, (unify_fails_only_by_count _ _).1 _ hcount hbind⟩,
    ⟨hinfinite, (unify_fails_only_by_count _ _).2.1 _ _ hinfinite⟩,
    ⟨hclash, (unify_fails_only_by_count _ _).2.2.1 _ _ hclash rfl⟩, hpair, hok, hplain.2.mp hok⟩

end Ty

end Prenex
