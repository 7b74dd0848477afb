import Mathlib.Tactic.ByContra
import Prenex.Proofs.Substitution
import Prenex.Proofs.Unify.Run
import Prenex.Proofs.Unify.Solution

/-!
# The most general solution

A step changes neither what solves the problem nor the rule that a bound variable stands nowhere
else. At the end nothing waits, so the solutions are the assignments that agree with the bindings,
and the bindings themselves are one of them.
-/

namespace Prenex

namespace Problem

/-! ## Bound variables stand nowhere else -/

structure Resolved (p : Problem) : Prop where
  bound : ∀ {x y : Index} {t : Ty}, p.solved.lookup x ≠ none → p.solved.lookup y = some t →
    x ∉ t.occurrences
  pending : ∀ {x : Index} {e : Equation}, p.solved.lookup x ≠ none → e ∈ p.pending →
    x ∉ e.occurrences

theorem resolved_empty (es : List Equation) : Resolved ⟨.empty, es⟩ where
  bound hx := absurd (Substitution.lookup_empty _) hx
  pending hx := absurd (Substitution.lookup_empty _) hx

theorem lookup_eq_none_of_front {s : Substitution} {x : Index} {e : Equation} {rest : List Equation}
    (h : Resolved ⟨s, e :: rest⟩) (hx : x ∈ e.occurrences) : s.lookup x = none := by
  by_contra hbound
  exact h.pending hbound List.mem_cons_self hx

theorem resolved_bind {s : Substitution} {x : Index} {t : Ty} {rest : List Equation}
    (hxt : x ∉ t.occurrences) (h : Resolved ⟨s, ⟨.var x, t⟩ :: rest⟩) :
    Resolved ⟨s.bind x t, rest.map (·.substitute x t)⟩ := by
  have hold : ∀ y, s.lookup y ≠ none → y ∉ t.occurrences := by
    intro y hy hyt
    exact h.pending hy List.mem_cons_self (by simp [Equation.occurrences, hyt])
  constructor
  · have hsettled : s.Settled := fun _ _ _ => h.bound
    intro y z u
    exact hsettled.bind hxt hold y z u
  · intro y e' hy he' hye
    have hy := Substitution.eq_or_bound_of_bind hy
    obtain ⟨e, he, rfl⟩ := List.mem_map.mp he'
    rcases Equation.occurrences_substitute_subset e x t y hye with hyt | ⟨hye, hyx⟩
    · rcases hy with rfl | hy
      · exact hxt hyt
      · exact hold y hy hyt
    · exact h.pending (hy.resolve_left hyx) (List.mem_cons_of_mem _ he) hye

theorem Resolved.next {p q : Problem} (hnext : Next p q) (hp : p.Resolved) : q.Resolved := by
  rcases hnext with hmove | hmove | hmove
  · exact ⟨hp.bound, fun hx he => hp.pending hx (List.mem_cons_of_mem _ he)⟩
  · exact resolved_bind (Equation.move_eq_bind hmove).2 hp
  · refine ⟨hp.bound, fun hx he hmem => ?_⟩
    rcases List.mem_append.mp he with he | he
    · have := Equation.occurrences_subset_of_move hmove (List.mem_flatMap.mpr ⟨_, he, hmem⟩)
      exact hp.pending hx List.mem_cons_self this
    · exact hp.pending hx (List.mem_cons_of_mem _ he) hmem

/-! ## Solutions of a problem -/

/-- Solves what waits, and gives each bound variable the image of its type. -/
structure SolvedBy (p : Problem) (f : Index → Ty) : Prop where
  pending : ∀ e ∈ p.pending, e.SolvedBy f
  bound : ∀ x, (f x == (p.solved.image x).instantiate f) = true

variable {f : Index → Ty}

theorem solvedBy_empty_iff (es : List Equation) :
    SolvedBy ⟨.empty, es⟩ f ↔ ∀ e ∈ es, e.SolvedBy f := by
  constructor
  · intro h
    exact h.pending
  · intro h
    refine ⟨h, fun x => ?_⟩
    simp [Substitution.image]

theorem image_bind_beq {s : Substitution} {x : Index} {t : Ty}
    (hx : (f x == t.instantiate f) = true) (hs : s.lookup x = none) (y : Index) :
    (((s.bind x t).image y).instantiate f == (s.image y).instantiate f) = true := by
  by_cases hyx : y = x
  · subst hyx
    simpa [Substitution.image, hs] using BEq.symm hx
  · rcases hy : s.lookup y with _ | u
    · simp [Substitution.image, hyx, hy]
    · simpa [Substitution.image, hyx, hy] using Equation.instantiate_substitute_beq hx u

theorem solvedBy_bind_iff {s : Substitution} {x : Index} {t : Ty} {rest : List Equation}
    (hs : s.lookup x = none) :
    SolvedBy ⟨s, ⟨.var x, t⟩ :: rest⟩ f ↔ SolvedBy ⟨s.bind x t, rest.map (·.substitute x t)⟩ f := by
  constructor
  · rintro ⟨hpending, hbound⟩
    have hx : (f x == t.instantiate f) = true := by
      simpa [Equation.solvedBy_mk] using hpending _ List.mem_cons_self
    refine ⟨fun e' he' => ?_, fun y => ?_⟩
    · obtain ⟨e, he, rfl⟩ := List.mem_map.mp he'
      exact (Equation.solvedBy_substitute_iff hx e).mpr (hpending e (List.mem_cons_of_mem _ he))
    · exact BEq.trans (hbound y) (BEq.symm (image_bind_beq hx hs y))
  · rintro ⟨hpending, hbound⟩
    have hx : (f x == t.instantiate f) = true := by
      simpa [Substitution.image] using hbound x
    refine ⟨fun e he => ?_, fun y => ?_⟩
    · rcases List.mem_cons.mp he with rfl | he
      · simpa [Equation.solvedBy_mk] using hx
      · exact (Equation.solvedBy_substitute_iff hx e).mp (hpending _ (List.mem_map_of_mem he))
    · exact BEq.trans (hbound y) (image_bind_beq hx hs y)

theorem solvedBy_iff_of_next {p q : Problem} (hnext : Next p q) (hp : p.Resolved) :
    p.SolvedBy f ↔ q.SolvedBy f := by
  rcases hnext with hmove | hmove | hmove
  · constructor
    · rintro ⟨hpending, hbound⟩
      exact ⟨fun e he => hpending e (List.mem_cons_of_mem _ he), hbound⟩
    · rintro ⟨hpending, hbound⟩
      exact ⟨List.forall_mem_cons.mpr ⟨Equation.solvedBy_of_drop hmove, hpending⟩, hbound⟩
  · apply solvedBy_bind_iff
    apply lookup_eq_none_of_front hp
    simp [Equation.occurrences]
  · constructor
    · rintro ⟨hpending, hbound⟩
      obtain ⟨he, hrest⟩ := List.forall_mem_cons.mp hpending
      exact ⟨List.forall_mem_append.mpr
        ⟨(Equation.solvedBy_replace_iff hmove).mp he, hrest⟩, hbound⟩
    · rintro ⟨hpending, hbound⟩
      obtain ⟨hes, hrest⟩ := List.forall_mem_append.mp hpending
      exact ⟨List.forall_mem_cons.mpr
        ⟨(Equation.solvedBy_replace_iff hmove).mpr hes, hrest⟩, hbound⟩

theorem Reaches.resolved {p q : Problem} (h : p.Reaches q) (hp : p.Resolved) : q.Resolved :=
  h.keeps (fun _ _ hnext => Resolved.next hnext) hp

theorem Reaches.solvedBy_iff {p q : Problem} (h : p.Reaches q) (hp : p.Resolved) :
    p.SolvedBy f ↔ q.SolvedBy f := by
  induction h with
  | refl => rfl
  | tail hreach hnext ih => rw [ih, solvedBy_iff_of_next hnext (Reaches.resolved hreach hp)]

/-! ## The answer -/

theorem instantiate_image_eq_self {s : Substitution} {t : Ty}
    (h : ∀ y ∈ t.occurrences, s.lookup y = none) :
    t.instantiate s.image = t := by
  have hfix : t.instantiate s.image = t.instantiate .var := by
    apply Ty.instantiate_congr
    intro y hy
    simp [Substitution.image, h y hy]
  rw [hfix, Ty.instantiate_var]

theorem instantiate_image_image {s : Substitution} (h : Resolved ⟨s, []⟩) (x : Index) :
    (s.image x).instantiate s.image = s.image x := by
  rcases hx : s.lookup x with _ | t
  · simp [Substitution.image, hx]
  · have himage : s.image x = t := by
      simp [Substitution.image, hx]
    rw [himage]
    apply instantiate_image_eq_self
    intro y hy
    by_contra hbound
    exact h.bound hbound hx hy

theorem solvedBy_image {s : Substitution} (h : Resolved ⟨s, []⟩) : SolvedBy ⟨s, []⟩ s.image := by
  refine ⟨by simp, fun x => ?_⟩
  rw [instantiate_image_image h]
  exact BEq.rfl

theorem solvedBy_of_solve_ok {es : List Equation} {s : Substitution}
    (h : solve ⟨.empty, es⟩ = .ok s) :
    ∀ e ∈ es, e.SolvedBy s.image := by
  have hreach := reaches_of_solve_ok h
  have hend := solvedBy_image (hreach.resolved (resolved_empty es))
  exact ((hreach.solvedBy_iff (resolved_empty es)).mpr hend).pending

theorem agrees_of_solve_ok {es : List Equation} {s : Substitution} (h : solve ⟨.empty, es⟩ = .ok s)
    (hf : ∀ e ∈ es, e.SolvedBy f) (x : Index) : ((s.image x).instantiate f == f x) = true := by
  have hreach := reaches_of_solve_ok h
  have hstart := (solvedBy_empty_iff es).mpr hf
  exact BEq.symm (((hreach.solvedBy_iff (resolved_empty es)).mp hstart).bound x)

theorem solved_of_solve_error {es : List Equation} {err : TypeError}
    (h : solve ⟨.empty, es⟩ = .error err) (hf : ∀ e ∈ es, e.SolvedBy f) :
    ∃ s e rest, Reaches ⟨.empty, es⟩ ⟨s, e :: rest⟩ ∧ e.move = .fail err ∧ e.SolvedBy f := by
  obtain ⟨s, e, rest, hreach, hmove⟩ := reaches_of_solve_error h
  have hend := (hreach.solvedBy_iff (resolved_empty es)).mp ((solvedBy_empty_iff es).mpr hf)
  exact ⟨s, e, rest, hreach, hmove, hend.pending e List.mem_cons_self⟩

end Problem

theorem Substitution.solvedBy_image_iff (θ : Substitution) (e : Equation) :
    e.SolvedBy θ.image ↔ (θ.apply e.left == θ.apply e.right) = true := by
  rw [apply_eq_instantiate, apply_eq_instantiate]
  rfl

/-- A run that ends well gives a solution of every equation, and each other solution is an instance
of it. -/
theorem Problem.solve_mostGeneral (es : List Equation) (s : Substitution)
    (h : (Problem.empty.pushAll es).solve = .ok s) :
    (∀ e ∈ es, (s.apply e.left == s.apply e.right) = true) ∧
    ∀ θ : Substitution, (∀ e ∈ es, (θ.apply e.left == θ.apply e.right) = true) →
      ∀ t, (θ.apply (s.apply t) == θ.apply t) = true := by
  rw [pushAll_eq] at h
  constructor
  · intro e he
    exact (s.solvedBy_image_iff e).mp (solvedBy_of_solve_ok h e he)
  · intro θ hθ t
    have hsolved : ∀ e ∈ es, e.SolvedBy θ.image := by
      intro e he
      exact (θ.solvedBy_image_iff e).mpr (hθ e he)
    simp only [Substitution.apply_eq_instantiate, Ty.instantiate_instantiate]
    exact Ty.instantiate_beq BEq.rfl fun x _ => agrees_of_solve_ok h hsolved x

theorem Problem.solve_mostGeneral_applied :
    let es : List Equation :=
      [⟨.app (.var 0) [.var 1], .app (.skolem 7) [.var 2]⟩, ⟨.var 3, .app (.var 0) [.var 1]⟩]
    let s : Substitution :=
      ⟨[(0, .app (.skolem 7) []), (1, .var 2), (3, .app (.skolem 7) [.var 2])], by decide⟩
    let θ : Substitution :=
      ⟨[(0, .app (.skolem 7) []), (1, .app (.skolem 8) []), (2, .app (.skolem 8) []),
        (3, .app (.skolem 7) [.app (.skolem 8) []])], by decide⟩
    (Problem.empty.pushAll es).solve = .ok s ∧
      (∀ e ∈ es, (s.apply e.left == s.apply e.right) = true) ∧
      (∀ e ∈ es, (θ.apply e.left == θ.apply e.right) = true) ∧
      ∀ t, (θ.apply (s.apply t) == θ.apply t) = true := by
  intro es s θ
  have hs : (Problem.empty.pushAll es).solve = .ok s := by
    rw [solve_of_next rfl, solve_of_next rfl, solve_of_next rfl, solve_of_next rfl,
      solve_of_done rfl]
    rfl
  have hθ : ∀ e ∈ es, (θ.apply e.left == θ.apply e.right) = true := by
    simp only [es, List.forall_mem_cons]
    exact ⟨rfl, rfl, by simp⟩
  obtain ⟨hsound, hgeneral⟩ := Problem.solve_mostGeneral es s hs
  exact ⟨hs, hsound, hθ, hgeneral θ hθ⟩

end Prenex
