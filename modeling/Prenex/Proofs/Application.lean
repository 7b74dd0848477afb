import Prenex.Application
import Prenex.Proofs.Substitution
import Prenex.Proofs.Supply
import Prenex.Proofs.Unify.Failure

/-!
# The result of an application is principal

An assignment for the function and one for the argument, put together with a type for the result,
are an assignment for the three once they are renamed apart, and every assignment comes from such a
triple. So the most general solution of the application speaks about independent instances of the
function and of the argument.
-/

namespace Prenex

namespace Application

/-- The function gets the first numbers, the argument the next ones and the result the one after
them. -/
def apart (f a : Ty) : Application where
  function := f.renumber 0
  argument := a.renumber f.vars.length
  result := UInt32.ofNat (f.vars.length + a.vars.length)

/-- One assignment out of three parts. -/
def assignment (f a : Ty) (g k : Index → Ty) (p : Ty) (j : Index) : Ty :=
  if j.toNat < f.vars.length then g (f.variableAt 0 j)
  else if j.toNat < f.vars.length + a.vars.length then k (a.variableAt f.vars.length j)
  else p

variable {f a : Ty}

theorem of?_eq (h : f.vars.length + a.vars.length < indexCount) : of? f a = some (apart f a) := by
  have hnew : Supply.new.next = 0 := rfl
  have hf := Supply.freshen_eq (s := Supply.new) (t := f) (by omega)
  have ha := Supply.freshen_eq (s := ⟨Supply.new.next + f.vars.length, by omega⟩) (t := a)
    (by dsimp only; omega)
  have hr := Supply.fresh?_eq
    (s := ⟨Supply.new.next + f.vars.length + a.vars.length, by omega⟩) (by dsimp only; omega)
  unfold of?
  rw [hf]
  dsimp only
  rw [ha]
  dsimp only
  rw [hr]
  simp only [hnew, Nat.zero_add]
  rfl

section

variable (h : f.vars.length + a.vars.length < indexCount) (g k : Index → Ty) (p : Ty)
include h

theorem function_instantiate_assignment :
    (apart f a).function.instantiate (assignment f a g k p) = f.instantiate g := by
  apply Ty.instantiate_renumber (by omega)
  intro j _ hj
  rw [assignment, if_pos (by omega)]

theorem argument_instantiate_assignment :
    (apart f a).argument.instantiate (assignment f a g k p) = a.instantiate k := by
  apply Ty.instantiate_renumber (by omega)
  intro j hle hlt
  rw [assignment, if_neg (by omega), if_pos hlt]

theorem assignment_result : assignment f a g k p (apart f a).result = p := by
  have hresult : (apart f a).result.toNat = f.vars.length + a.vars.length :=
    UInt32.toNat_ofNat_of_lt' h
  rw [assignment, if_neg (by omega), if_neg (by omega)]

end

/-! ## The equation between them -/

def equation (apart : Application) : Equation :=
  ⟨apart.function, .fn apart.argument (.var apart.result)⟩

theorem solvedBy_equation_iff {apart : Application} {e : Index → Ty} :
    apart.equation.SolvedBy e ↔
      (apart.function.instantiate e ==
        .fn (apart.argument.instantiate e) (e apart.result)) = true := by
  rw [equation, Equation.solvedBy_mk]
  simp [Ty.fn, Ty.con]

theorem firstOrder_equation (hf : f.FirstOrder) (ha : a.FirstOrder) :
    (apart f a).equation.FirstOrder := by
  refine ⟨hf.rename _, ?_⟩
  have harg : (apart f a).argument.FirstOrder := ha.rename _
  simp [equation, Ty.fn, Ty.con, Ty.firstOrder_app, harg, Ty.firstOrder_var]

end Application

namespace Ty

open Application

/-- An instance of `f` takes an instance of `a` to `p`. -/
def Gives (f a p : Ty) : Prop := ∃ s₁ s₂ : Substitution, (s₁.apply f == .fn (s₂.apply a) p) = true

variable {f a : Ty}

theorem gives_iff (h : f.vars.length + a.vars.length < indexCount) {p : Ty} :
    f.Gives a p ↔ ∃ e, (apart f a).equation.SolvedBy e ∧ e (apart f a).result = p := by
  constructor
  · rintro ⟨s₁, s₂, hfit⟩
    rw [Substitution.apply_eq_instantiate, Substitution.apply_eq_instantiate] at hfit
    refine ⟨assignment f a s₁.image s₂.image p, ?_, assignment_result h _ _ p⟩
    rwa [solvedBy_equation_iff, function_instantiate_assignment h,
      argument_instantiate_assignment h, assignment_result h]
  · rintro ⟨e, hsolved, rfl⟩
    -- Each of the two types reads `e` at its own numbers.
    refine ⟨.ofFun (fun i => e (f.numberFrom 0 i)) f.vars,
      .ofFun (fun i => e (a.numberFrom f.vars.length i)) a.vars, ?_⟩
    rw [Substitution.apply_ofFun_vars, Substitution.apply_ofFun_vars,
      ← instantiate_rename e (f.numberFrom 0), ← instantiate_rename e (a.numberFrom _)]
    exact solvedBy_equation_iff.mp hsolved

theorem resultType_eq_outcome (h : f.vars.length + a.vars.length < indexCount) :
    f.resultType a = (apart f a).outcome (Problem.solve ⟨.empty, [(apart f a).equation]⟩) := by
  unfold resultType
  rw [of?_eq h]
  rfl

theorem resultType_eq_ok_iff (h : f.vars.length + a.vars.length < indexCount) {r : Ty} :
    f.resultType a = .ok r ↔
      ∃ s, Problem.solve ⟨.empty, [(apart f a).equation]⟩ = .ok s ∧
        (s.image (apart f a).result).normalize = r := by
  rw [resultType_eq_outcome h]
  rcases Problem.solve ⟨.empty, [(apart f a).equation]⟩ with err | s
  · simp [outcome]
  · simp [outcome, Substitution.apply_eq_instantiate]

/-- What an application gives is the most general result, in normal form. If no variable has
arguments, there is one whenever an instance of the function takes an instance of the argument. -/
theorem resultType_principal (f a : Ty) (h : f.vars.length + a.vars.length < indexCount) :
    (∀ r, f.resultType a = .ok r →
      (∃ p₀, f.Gives a p₀ ∧ r = p₀.normalize) ∧
      r.vars = (List.range r.vars.length).map UInt32.ofNat ∧
      ∀ p, f.Gives a p → ∃ θ : Substitution, (θ.apply r == p) = true) ∧
    (f.FirstOrder → a.FirstOrder → (∃ p, f.Gives a p) → ∃ r, f.resultType a = .ok r) := by
  refine ⟨fun r hr => ?_, fun hf ha ⟨p, hp⟩ => ?_⟩
  · obtain ⟨s, hs, rfl⟩ := (resultType_eq_ok_iff h).mp hr
    have hsolved := Problem.solvedBy_of_solve_ok hs _ List.mem_cons_self
    refine ⟨⟨_, (gives_iff h).mpr ⟨s.image, hsolved, rfl⟩, rfl⟩, by simp [vars_normalize],
      fun p hp => ?_⟩
    obtain ⟨e, he, rfl⟩ := (gives_iff h).mp hp
    -- `e` is an instance of the most general solution, so `p` is one of what that gives.
    obtain ⟨θ, hθ⟩ := exists_apply_normalize e (s.image (apart f a).result)
    refine ⟨θ, ?_⟩
    rw [hθ]
    exact Problem.agrees_of_solve_ok hs (by simpa using he) _
  · obtain ⟨e, he, -⟩ := (gives_iff h).mp hp
    have hes : ∀ e ∈ [(apart f a).equation], e.FirstOrder := by
      simpa using firstOrder_equation hf ha
    obtain ⟨s, hs⟩ := Problem.exists_solve_ok_of_firstOrder hes (by simpa using he)
    exact ⟨_, (resultType_eq_ok_iff h).mpr ⟨s, hs, rfl⟩⟩

theorem resultType_principal_shared :
    let f : Ty := .fn (.fn (.var 0) (.var 1)) (.fn (.list (.var 0)) (.list (.var 1)))
    let a : Ty := .fn (.var 1) (.list (.var 1))
    let p : Ty := .fn (.list (.app (.skolem 7) [])) (.list (.list (.app (.skolem 7) [])))
    f.vars.length + a.vars.length < indexCount ∧ f.FirstOrder ∧ a.FirstOrder ∧ f.Gives a p ∧
      ∃ r, f.resultType a = .ok r ∧ (∃ p₀, f.Gives a p₀ ∧ r = p₀.normalize) ∧
        r.vars = (List.range r.vars.length).map UInt32.ofNat ∧
          ∃ θ : Substitution, (θ.apply r == p) = true := by
  -- Both types use `1`, for different things.
  intro f a p
  have hcount : f.vars.length + a.vars.length < indexCount := by
    simp [f, a, vars, fn, list, con, List.eraseDups_cons, indexCount]
  have hf : f.FirstOrder := by
    simp [f, fn, list, con, firstOrder_app, firstOrder_var]
  have ha : a.FirstOrder := by
    simp [a, fn, list, con, firstOrder_app, firstOrder_var]
  have hp : f.Gives a p := by
    refine ⟨⟨[(0, .app (.skolem 7) []), (1, .list (.app (.skolem 7) []))], by decide⟩,
      ⟨[(1, .app (.skolem 7) [])], by decide⟩, ?_⟩
    exact BEq.rfl
  obtain ⟨hprincipal, hexists⟩ := resultType_principal f a hcount
  obtain ⟨r, hr⟩ := hexists hf ha ⟨p, hp⟩
  obtain ⟨hsound, hvars, hgeneral⟩ := hprincipal r hr
  exact ⟨hcount, hf, ha, hp, r, hr, hsound, hvars, hgeneral p hp⟩

end Ty

end Prenex
