import Mathlib.Data.List.Forall2
import Prenex.Proofs.Unify.Matching

/-!
# Equations turned round

With a ground side in every equation it does not matter which side is on the left. A variable on the
right comes to the left before anything else happens to it, and two other heads are compared either
way. So a run on equations that are turned round binds the same variables in the same order to the
same types.
-/

namespace Prenex

namespace Equation

/-! ## One equation -/

def turn (e : Equation) : Equation := ⟨e.right, e.left⟩

/-- The same equation or the one turned round, with a ground side. -/
inductive Turned : Equation → Equation → Prop
  | same {e : Equation} : e.OneSided → Turned e e
  | turn {e : Equation} : e.OneSided → Turned e e.turn

theorem Turned.substitute {e e' : Equation} (h : Turned e e') (x : Index) (t : Ty) :
    Turned (e.substitute x t) (e'.substitute x t) := by
  rcases h with he | he
  · exact .same (he.substitute x t)
  · exact .turn (he.substitute x t)

theorem turned_self {es : List Equation} (h : ∀ e ∈ es, e.OneSided) : List.Forall₂ Turned es es :=
  List.forall₂_same.mpr fun e he => .same (h e he)

theorem turned_map {es : List Equation} (h : ∀ e ∈ es, e.OneSided) :
    List.Forall₂ Turned es (es.map turn) := by
  rw [List.forall₂_map_right_iff, List.forall₂_same]
  exact fun e he => .turn (h e he)

/-- The move on one way of writing an equation, beside the move on the other way. -/
inductive TurnedMove (e : Equation) : Prop
  | drop : e.move = .drop → e.turn.move = .drop → TurnedMove e
  | first : e.turn.move = .replace [e] → TurnedMove e
  | second : e.move = .replace [e.turn] → TurnedMove e
  | pair {es : List Equation} :
      e.move = .replace es → e.turn.move = .replace (es.map turn) → TurnedMove e
  | fail {err : TypeError} : e.move = .fail err → TurnedMove e

theorem OneSided.turnedMove {e : Equation} (he : e.OneSided) : TurnedMove e := by
  -- With a variable on the left the right is ground, so turned round the equation is swapped back.
  have hback : ∀ x ts r, e = ⟨.app (.var x) ts, r⟩ → (Ty.app (.var x) ts == r) = false →
      e.turn.move = .replace [e] := by
    rintro x ts ⟨k, us⟩ rfl hne
    have hground := right_isGround he
    rw [Ty.isGround_app, Bool.and_eq_true, Option.isNone_iff_eq_none] at hground
    exact move_eq_of_rule (.swap (by rwa [BEq.comm]) hground.1)
  have hrule := e.rule
  generalize hmove : e.move = move at hrule
  cases hrule with
  | same heq => exact .drop hmove (move_eq_of_rule (.same (by rwa [BEq.comm])))
  | bind hne _ => exact .first (hback _ _ _ rfl hne)
  | infinite => exact .fail hmove
  | applied hne _ _ => exact .first (hback _ _ _ rfl hne)
  | appliedCount => exact .fail hmove
  | swap => exact .second hmove
  | @pair h k ts us hne hh hk hhead hlen =>
    have hturn : (List.zipWith Equation.mk ts us).map turn = List.zipWith Equation.mk us ts := by
      rw [List.map_zipWith, List.zipWith_comm]
      rfl
    refine .pair hmove ?_
    rw [hturn]
    refine move_eq_of_rule (.pair (by rwa [BEq.comm]) hk hh ?_ hlen.symm)
    rw [← Head.representative_eq_iff] at hhead ⊢
    exact hhead.symm
  | pairCount => exact .fail hmove
  | clash => exact .fail hmove

end Equation

namespace Problem

/-! ## Runs side by side -/

/-- The same bindings, and equations that are the same or turned round. -/
structure Turned (p q : Problem) : Prop where
  solved : p.solved = q.solved
  pending : List.Forall₂ Equation.Turned p.pending q.pending

theorem next_of_same_front {s : Substitution} {e : Equation} {rest rest' : List Equation}
    {p : Problem} (he : e.OneSided) (hrest : List.Forall₂ Equation.Turned rest rest')
    (hnext : Next ⟨s, e :: rest⟩ p) :
    ∃ q, Next ⟨s, e :: rest'⟩ q ∧ p.Turned q := by
  rcases hnext with hmove | @⟨_, x, t, _, hmove⟩ | hmove
  · exact ⟨_, .drop hmove, rfl, hrest⟩
  · refine ⟨_, .bind hmove, rfl, ?_⟩
    rw [List.forall₂_map_left_iff, List.forall₂_map_right_iff]
    exact hrest.imp fun _ _ h => h.substitute x t
  · refine ⟨_, .replace hmove, rfl, ?_⟩
    exact List.rel_append (Equation.turned_self (Equation.oneSided_of_replace hmove he)) hrest

theorem Turned.next {p q p' : Problem} (h : p.Turned q) (hnext : Next p p') :
    ∃ q', q.Reaches q' ∧ p'.Turned q' := by
  obtain ⟨s, pending⟩ := p
  obtain ⟨s', pending'⟩ := q
  obtain ⟨hs, hpending⟩ := h
  dsimp only at hs hpending
  subst hs
  obtain ⟨made, hstep⟩ := (next_iff_step _ _).mp hnext
  rcases hpending with _ | @⟨e, e', rest, rest', he, hrest⟩
  · cases hstep
  · rcases he with he | he
    · obtain ⟨q', hq, hturned⟩ := next_of_same_front he hrest hnext
      exact ⟨q', .single hq, hturned⟩
    · rcases he.turnedMove with ⟨hmove, hturn⟩ | hturn | hmove | ⟨hmove, hturn⟩ | hmove
      · simp only [step, hmove] at hstep
        cases hstep
        exact ⟨_, .single (.drop hturn), rfl, hrest⟩
      · obtain ⟨q', hq, hturned⟩ := next_of_same_front he hrest hnext
        exact ⟨q', .head (.replace hturn) (.single hq), hturned⟩
      · simp only [step, hmove] at hstep
        cases hstep
        exact ⟨_, .refl, rfl, .cons (.same he.symm) hrest⟩
      · simp only [step, hmove] at hstep
        cases hstep
        refine ⟨_, .single (.replace hturn), rfl, ?_⟩
        exact List.rel_append (Equation.turned_map (Equation.oneSided_of_replace hmove he)) hrest
      · simp only [step, hmove] at hstep
        cases hstep

theorem Turned.reaches {p q p' : Problem} (h : p.Turned q) (hreach : p.Reaches p') :
    ∃ q', q.Reaches q' ∧ p'.Turned q' := by
  induction hreach with
  | refl => exact ⟨q, .refl, h⟩
  | tail _ hnext ih =>
    obtain ⟨q₁, hq₁, h₁⟩ := ih
    obtain ⟨q₂, hq₂, h₂⟩ := h₁.next hnext
    exact ⟨q₂, hq₁.trans hq₂, h₂⟩

theorem Turned.solve_ok {p q : Problem} {s : Substitution} (h : p.Turned q) (hs : p.solve = .ok s) :
    q.solve = .ok s := by
  obtain ⟨⟨s', pending⟩, hreach, hsolved, hpending⟩ := h.reaches (reaches_of_solve_ok hs)
  obtain rfl := List.forall₂_nil_left_iff.mp hpending
  rw [solve_eq_of_reaches hreach, solve_of_done rfl]
  exact congrArg Except.ok hsolved.symm

theorem solve_turn_iff {g t : Ty} (hg : g.isGround = true) (s : Substitution) :
    solve ⟨.empty, [⟨t, g⟩]⟩ = .ok s ↔ solve ⟨.empty, [⟨g, t⟩]⟩ = .ok s := by
  have hone : (Equation.mk t g).OneSided := .inr hg
  have hother : (Equation.mk g t).OneSided := .inl hg
  constructor
  · exact Turned.solve_ok ⟨rfl, .cons (.turn hone) .nil⟩
  · exact Turned.solve_ok ⟨rfl, .cons (.turn hother) .nil⟩

end Problem

end Prenex
