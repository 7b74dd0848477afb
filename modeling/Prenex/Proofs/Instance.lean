import Prenex.Instance
import Prenex.Proofs.Unify.Matching

/-!
# Instances

The check finds a substitution that turns `actual` into `required`, and it finds one for every
instance. The number of arguments is the exception again: a variable that has arguments at its first
place must stand for a bare head.
-/

namespace Prenex

/-- Makes a skolem a variable again. -/
def Head.release : Head → Head
  | .skolem i => .var i
  | h => h

theorem Head.release_beq {h k : Head} (hhk : (h == k) = true) :
    (h.release == k.release) = true := by
  match h, k, hhk with
  | .con _, .con _, hhk => exact hhk
  | .var _, .var _, hhk => exact hhk
  | .skolem _, .skolem _, hhk => exact hhk

namespace Ty

/-! ## Skolems -/

def SkolemFree (t : Ty) : Prop := ∀ i, Head.skolem i ∉ t.heads

theorem isGround_skolemize (t : Ty) : t.skolemize.isGround = true := by
  rw [isGround_iff, List.eq_nil_iff_forall_not_mem]
  intro i hi
  obtain ⟨v, -, hv⟩ := (mem_occurrences_instantiate _ i t).mp hi
  simp at hv

theorem args_skolemize (t : Ty) : t.skolemize.args = t.args.map skolemize := by
  obtain ⟨h, ts⟩ := t
  unfold skolemize
  cases h <;> simp

theorem skolemize_instantiate (f : Index → Ty) (t : Ty) :
    (t.instantiate f).skolemize = t.instantiate fun i => (f i).skolemize :=
  instantiate_instantiate _ f t

theorem relabel_release_skolemize (t : Ty) :
    t.skolemize.relabel Head.release = t.relabel Head.release := by
  have hswap : t.skolemize.relabel Head.release = (t.relabel Head.release).instantiate .var := by
    apply relabel_instantiate
    rintro (c | i | i) _ <;> simp [Head.release, var]
  rw [hswap, instantiate_var]

theorem SkolemFree.relabel_release {t : Ty} (ht : t.SkolemFree) : t.relabel Head.release = t := by
  apply relabel_eq_self
  rintro (c | i | i) hk
  · rfl
  · rfl
  · exact absurd hk (ht i)

theorem SkolemFree.relabel_release_instantiate {t : Ty} (ht : t.SkolemFree) (f : Index → Ty) :
    (t.instantiate f).relabel Head.release = t.instantiate fun i => (f i).relabel Head.release := by
  have hswap : (t.instantiate f).relabel Head.release =
      (t.relabel Head.release).instantiate fun i => (f i).relabel Head.release := by
    apply relabel_instantiate
    rintro (c | i | i) hk
    · simp [Head.release]
    · simp [Head.release]
    · exact absurd hk (ht i)
  rw [hswap, ht.relabel_release]

/-! ## The check -/

theorem checkInstance_ok_iff (required actual : Ty) :
    required.checkInstance actual = .ok () ↔
      ∃ s, Problem.solve ⟨.empty, [⟨required.skolemize, actual⟩]⟩ = .ok s := by
  have hstart : instanceProblem required actual = ⟨.empty, [⟨required.skolemize, actual⟩]⟩ := rfl
  unfold checkInstance
  rw [hstart]
  split <;> simp_all

/-- Without skolems, an accepted type comes from the other by substitution. -/
theorem checkInstance_sound (required actual : Ty) (hr : required.SkolemFree)
    (ha : actual.SkolemFree) (h : required.checkInstance actual = .ok ()) :
    ∃ θ : Substitution, (θ.apply actual == required) = true ∧
      ∀ x ∈ actual.vars, actual.AppliedFirst x → (θ.apply (.var x)).args = [] := by
  obtain ⟨s, hs⟩ := (checkInstance_ok_iff required actual).mp h
  have himage : (s.map (relabel Head.release)).image =
      fun x => (s.image x).relabel Head.release := by
    funext x
    rcases hx : s.lookup x with _ | u
    · simp [Substitution.image, hx, var, Head.release]
    · simp [Substitution.image, hx]
  refine ⟨s.map (relabel Head.release), ?_, fun x _ hfirst => ?_⟩
  · have hsolved := Problem.solvedBy_of_solve_ok hs _ List.mem_cons_self
    rw [Equation.solvedBy_mk, instantiate_of_isGround required.isGround_skolemize] at hsolved
    have hback := relabel_beq (fun _ _ => Head.release_beq) (BEq.symm hsolved)
    rw [ha.relabel_release_instantiate, relabel_release_skolemize, hr.relabel_release] at hback
    rwa [Substitution.apply_eq_instantiate, himage]
  · rw [Substitution.apply_eq_instantiate, instantiate_bare_var, himage, args_relabel,
      List.map_eq_nil_iff]
    exact Problem.args_image_of_solve_ok required.isGround_skolemize hs hfirst

theorem checkInstance_sound_shared :
    (Ty.app (.var 1) [.app (.var 0) [.var 5], .app (.var 0) [.var 5, .var 1]]).checkInstance
        (.app (.var 0) [.var 1, .app (.var 1) [.var 0]]) = .ok () ∧
      (Ty.app (.var 0) [.var 1, .app (.var 1) [.var 0]]).AppliedFirst 0 ∧
      ∃ θ : Substitution, (θ.apply (.app (.var 0) [.var 1, .app (.var 1) [.var 0]]) ==
          .app (.var 1) [.app (.var 0) [.var 5], .app (.var 0) [.var 5, .var 1]]) = true ∧
        (θ.apply (.var 0)).args = [] := by
  -- Both types use `0` and `1`, for different things.
  have hok :
      (Ty.app (.var 1) [.app (.var 0) [.var 5], .app (.var 0) [.var 5, .var 1]]).checkInstance
        (.app (.var 0) [.var 1, .app (.var 1) [.var 0]]) = .ok () := by
    rw [checkInstance_ok_iff, Problem.solve_of_next rfl, Problem.solve_of_next rfl,
      Problem.solve_of_next rfl, Problem.solve_of_next rfl, Problem.solve_of_next rfl]
    exact ⟨_, Problem.solve_of_done rfl⟩
  have hfirst : (Ty.app (.var 0) [.var 1, .app (.var 1) [.var 0]]).AppliedFirst 0 := by
    simp [AppliedFirst]
  obtain ⟨θ, hθ, hbare⟩ :=
    checkInstance_sound _ _ (by simp [SkolemFree, var]) (by simp [SkolemFree, var]) hok
  exact ⟨hok, hfirst, θ, hθ, hbare 0 hfirst.mem_vars hfirst⟩

theorem checkInstance_of_beq {required t : Ty} {f : Index → Ty}
    (hf : ∀ x, t.AppliedFirst x → (f x).args = []) (h : (required == t.instantiate f) = true) :
    required.checkInstance t = .ok () := by
  rw [checkInstance_ok_iff]
  apply Problem.exists_solve_ok_of_image (f := fun i => (f i).skolemize) (isGround_skolemize _)
  · intro x hx
    simp [args_skolemize, hf x hx]
  · rw [← skolemize_instantiate]
    exact instantiate_beq h fun _ _ => BEq.rfl

theorem checkInstance_instantiate {t : Ty} {f : Index → Ty}
    (hf : ∀ x, t.AppliedFirst x → (f x).args = []) :
    (t.instantiate f).checkInstance t = .ok () :=
  checkInstance_of_beq hf BEq.rfl

/-- Every type is an instance of one that it comes from by substitution, if variables with arguments
at their first place stand for bare heads. So it is an instance of itself. -/
theorem checkInstance_complete (t : Ty) :
    (∀ σ : Substitution, (∀ x ∈ t.vars, t.AppliedFirst x → (σ.apply (.var x)).args = []) →
      (σ.apply t).checkInstance t = .ok ()) ∧
    t.checkInstance t = .ok () := by
  constructor
  · intro σ hσ
    rw [Substitution.apply_eq_instantiate]
    apply checkInstance_instantiate
    intro x hx
    simpa [Substitution.apply_eq_instantiate] using hσ x hx.mem_vars hx
  · have hself := checkInstance_instantiate (f := .var) fun x (_ : t.AppliedFirst x) => args_var x
    rwa [instantiate_var] at hself

theorem checkInstance_complete_partial :
    let t : Ty := .app (.var 0) [.var 1, .app (.var 1) [.app (.skolem 9) []]]
    let σ : Substitution := ⟨[(0, .app (.skolem 1) []), (1, .app (.skolem 2) [.var 0])], by decide⟩
    (∀ x ∈ t.vars, t.AppliedFirst x → (σ.apply (.var x)).args = []) ∧
      (σ.apply t).checkInstance t = .ok () ∧
      t.checkInstance t = .ok () := by
  -- The variable `1` stands bare first, so its image may have an argument.
  intro t σ
  have hbare : ∀ x ∈ t.vars, t.AppliedFirst x → (σ.apply (.var x)).args = [] := by
    have hvars : t.vars = [0, 1] := by decide
    rw [hvars, List.forall_mem_cons, List.forall_mem_singleton]
    refine ⟨fun _ => by decide, fun hfirst => ?_⟩
    simp [AppliedFirst, t, var] at hfirst
  exact ⟨hbare, (checkInstance_complete t).1 σ hbare, (checkInstance_complete t).2⟩

end Ty

end Prenex
