import Prenex.Application
import Prenex.Instance
import Prenex.Proofs.Ty.Alpha
import Prenex.Proofs.Unify.Relabelling

/-!
# Names do not matter

Equal types may have different names, as long as the fingerprints are the same. Putting one
constructor in the place of all that share its fingerprint is a relabelling, and afterwards equal
types are the same type. So equal types lead through equal problems to equal outcomes.
-/

namespace Prenex

/-! ## Equal outcomes -/

/-- Both fail or both succeed, with results that are related. -/
inductive Agree {ε α : Type} (E : ε → ε → Prop) (R : α → α → Prop) : Except ε α → Except ε α → Prop
  | error {e e' : ε} : E e e' → Agree E R (.error e) (.error e')
  | ok {a a' : α} : R a a' → Agree E R (.ok a) (.ok a')

def TypeError.same : TypeError → TypeError → Bool
  | .mismatch l r, .mismatch l' r' => l == l' && r == r'
  | .occursCheck x t, .occursCheck x' t' => x == x' && t == t'
  | _, _ => false

instance : BEq TypeError := ⟨TypeError.same⟩

def ApplicationError.same : ApplicationError → ApplicationError → Bool
  | .type e, .type e' => e == e'
  | .supplyExhausted, .supplyExhausted => true
  | _, _ => false

instance : BEq ApplicationError := ⟨ApplicationError.same⟩

/-- The same variables are bound, to equal types. -/
def Substitution.Same (s u : Substitution) : Prop := ∀ x, (s.lookup x == u.lookup x) = true

theorem Substitution.Same.image {s u : Substitution} (h : s.Same u) (x : Index) :
    (s.image x == u.image x) = true := by
  have hx := h x
  unfold Substitution.image
  rcases hs : s.lookup x with _ | t <;> rcases hu : u.lookup x with _ | t' <;> simp_all

/-! ## One constructor for each fingerprint -/

noncomputable def Relabelling.representatives : Relabelling where
  head := Head.representative
  index := Equiv.refl Index
  head_var _ := rfl
  rigid hh := by simpa using hh
  head_beq_head h k := by
    have hrep : ∀ h : Head, h.representative.representative = h.representative := by
      intro h
      exact ((Head.representative_eq_iff _ _).mpr h.beq_representative).symm
    rw [Bool.eq_iff_iff, ← Head.representative_eq_iff, ← Head.representative_eq_iff, hrep, hrep]

open Relabelling (representatives)

theorem TypeError.beq_of_relabel_eq {e e' : TypeError}
    (h : e.relabel representatives = e'.relabel representatives) :
    (e == e') = true := by
  show same e e' = true
  match e, e', h with
  | .mismatch l r, .mismatch l' r', h =>
    simp only [relabel, mismatch.injEq] at h
    exact Bool.and_eq_true_iff.mpr ⟨(Ty.beq_iff l l').mpr h.1, (Ty.beq_iff r r').mpr h.2⟩
  | .occursCheck x t, .occursCheck x' t', h =>
    simp only [relabel, occursCheck.injEq] at h
    exact Bool.and_eq_true_iff.mpr ⟨beq_iff_eq.mpr h.1, (Ty.beq_iff t t').mpr h.2⟩

theorem Substitution.same_of_relabel_eq {s u : Substitution}
    (h : s.relabel representatives = u.relabel representatives) : s.Same u := by
  intro x
  have hx := congrArg (·.lookup (representatives.index x)) h
  simp only [lookup_relabel] at hx
  rcases hs : s.lookup x with _ | t <;> rcases hu : u.lookup x with _ | t'
  · rfl
  · simp [hs, hu] at hx
  · simp [hs, hu] at hx
  · rw [hs, hu] at hx
    exact (Ty.beq_iff t t').mpr (Option.some.inj hx)

theorem Problem.solve_agree {l l' r r' : Ty} (hl : (l == l') = true) (hr : (r == r') = true) :
    Agree (· == ·) Substitution.Same (solve ⟨.empty, [⟨l, r⟩]⟩) (solve ⟨.empty, [⟨l', r'⟩]⟩) := by
  have hstart : relabel representatives ⟨.empty, [⟨l, r⟩]⟩ =
      relabel representatives ⟨.empty, [⟨l', r'⟩]⟩ := by
    simp only [relabel, List.map_cons, List.map_nil, Equation.relabel_mk]
    congr 3
    · exact (Ty.beq_iff l l').mp hl
    · exact (Ty.beq_iff r r').mp hr
  -- The two problems become one, so the outcomes do too once they are relabelled.
  have hsolve := congrArg solve hstart
  rw [solve_relabel, solve_relabel] at hsolve
  generalize solve ⟨.empty, [⟨l, r⟩]⟩ = out, solve ⟨.empty, [⟨l', r'⟩]⟩ = out' at hsolve
  rcases out with e | s <;> rcases out' with e' | s'
  · exact .error (TypeError.beq_of_relabel_eq (Except.error.inj hsolve))
  · cases hsolve
  · cases hsolve
  · exact .ok (Substitution.same_of_relabel_eq (Except.ok.inj hsolve))

/-! ## Applications -/

theorem Supply.freshen_cases (s : Supply) {t u : Ty} (h : (t == u) = true) :
    ∃ s', (s.freshen t = (none, s') ∧ s.freshen u = (none, s')) ∨
      ∃ t' u', s.freshen t = (some t', s') ∧ s.freshen u = (some u', s') ∧ (t' == u') = true := by
  unfold freshen
  rw [Ty.vars_eq_of_beq h]
  dsimp only
  split
  · exact ⟨_, .inr ⟨_, _, rfl, rfl, Ty.rename_beq h _⟩⟩
  · exact ⟨_, .inl ⟨rfl, rfl⟩⟩

namespace Application

structure Same (p q : Application) : Prop where
  function : (p.function == q.function) = true
  argument : (p.argument == q.argument) = true
  result : p.result = q.result

theorem of?_same {f f' a a' : Ty} (hf : (f == f') = true) (ha : (a == a') = true) :
    Option.Rel Same (of? f a) (of? f' a') := by
  unfold of?
  -- Equal types take the same number of indices, so the supply stays in step.
  obtain ⟨s, ⟨hfresh, hfresh'⟩ | ⟨f₁, f₁', hfresh, hfresh', hfunction⟩⟩ :=
    Supply.new.freshen_cases hf
  · rw [hfresh, hfresh']
    exact .none
  rw [hfresh, hfresh']
  dsimp only
  obtain ⟨s', ⟨hfresh, hfresh'⟩ | ⟨a₁, a₁', hfresh, hfresh', hargument⟩⟩ := s.freshen_cases ha
  · rw [hfresh, hfresh']
    exact .none
  rw [hfresh, hfresh']
  dsimp only
  rcases s'.fresh? with _ | ⟨r, _⟩
  · exact .none
  · exact .some ⟨hfunction, hargument, rfl⟩

theorem Same.problem_agree {p q : Application} (h : p.Same q) :
    Agree (· == ·) Substitution.Same p.problem.solve q.problem.solve := by
  apply Problem.solve_agree h.function
  have hhead : (Head.con Builtin.fn == Head.con Builtin.fn) = true :=
    (Head.representative_eq_iff _ _).mp rfl
  rw [h.result, Ty.fn, Ty.con, Ty.fn, Ty.con, Ty.app_beq_app]
  simp [hhead, h.argument]

theorem Same.outcome_agree {p q : Application} (h : p.Same q)
    {x y : Except TypeError Substitution} (hxy : Agree (· == ·) Substitution.Same x y) :
    Agree (· == ·) (· == ·) (p.outcome x) (q.outcome y) := by
  rcases hxy with he | hs
  · exact .error he
  · refine .ok (Ty.normalize_beq ?_)
    rw [h.result, Substitution.apply_eq_instantiate, Substitution.apply_eq_instantiate]
    simpa using hs.image q.result

end Application

/-! ## The three questions -/

namespace Ty

theorem skolemize_beq {t u : Ty} (h : (t == u) = true) : (t.skolemize == u.skolemize) = true :=
  instantiate_beq h fun _ _ => BEq.rfl

theorem checkInstance_agree {a a' b b' : Ty} (ha : (a == a') = true) (hb : (b == b') = true) :
    Agree (· == ·) (· = ·) (a.checkInstance b) (a'.checkInstance b') := by
  have hsolve : Agree (· == ·) Substitution.Same (instanceProblem a b).solve
      (instanceProblem a' b').solve :=
    Problem.solve_agree (skolemize_beq ha) hb
  unfold checkInstance
  generalize (instanceProblem a b).solve = x, (instanceProblem a' b').solve = y at hsolve
  rcases hsolve with he | _
  · exact .error he
  · exact .ok rfl

theorem resultType_agree {f f' a a' : Ty} (hf : (f == f') = true) (ha : (a == a') = true) :
    Agree (· == ·) (· == ·) (f.resultType a) (f'.resultType a') := by
  have happly := Application.of?_same hf ha
  unfold resultType
  generalize Application.of? f a = x, Application.of? f' a' = y at happly
  rcases happly with hsame | _
  · exact hsame.outcome_agree hsame.problem_agree
  · exact .error rfl

/-- Unification, the instance check and application give equal outcomes for equal types, whatever
their constructors are called. -/
theorem outcomes_agree_of_beq (a a' b b' : Ty) (ha : (a == a') = true) (hb : (b == b') = true) :
    Agree (· == ·) Substitution.Same (a.unify b) (a'.unify b') ∧
    Agree (· == ·) (· = ·) (a.checkInstance b) (a'.checkInstance b') ∧
    Agree (· == ·) (· == ·) (a.resultType b) (a'.resultType b') :=
  ⟨Problem.solve_agree ha hb, checkInstance_agree ha hb, resultType_agree ha hb⟩

theorem outcomes_agree_of_beq_collision :
    let c := Constructor.of "pkg" "Mod" "9naHVck0ab"
    let d := Constructor.of "pkg" "Mod" "9naHVckpib"
    let a : Ty := .con c [.var 0]
    let a' : Ty := .con d [.var 0]
    c.name ≠ d.name ∧ (a == a') = true ∧ (Ty.var 1 == Ty.var 1) = true ∧
      a.unify (.var 1) = .ok (.single 1 a) ∧ a'.unify (.var 1) = .ok (.single 1 a') ∧
      Agree (· == ·) Substitution.Same (a.unify (.var 1)) (a'.unify (.var 1)) ∧
      Agree (· == ·) (· = ·) (a.checkInstance (.var 1)) (a'.checkInstance (.var 1)) ∧
      Agree (· == ·) (· == ·) (a.resultType (.var 1)) (a'.resultType (.var 1)) := by
  intro c d a a'
  have hname : c.name ≠ d.name := by decide
  have haa : (a == a') = true := by decide +kernel
  have hsolve : a.unify (.var 1) = .ok (.single 1 a) := by
    unfold unify
    rw [Problem.solve_of_next rfl, Problem.solve_of_next rfl, Problem.solve_of_done rfl]
    rfl
  have hsolve' : a'.unify (.var 1) = .ok (.single 1 a') := by
    unfold unify
    rw [Problem.solve_of_next rfl, Problem.solve_of_next rfl, Problem.solve_of_done rfl]
    rfl
  exact ⟨hname, haa, BEq.rfl, hsolve, hsolve',
    outcomes_agree_of_beq a a' (.var 1) (.var 1) haa BEq.rfl⟩

end Ty

end Prenex
