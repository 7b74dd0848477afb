import Prenex.Proofs.Instance
import Prenex.Proofs.Ty.Alpha

/-!
# The order of generality

Without skolems an instance is an image. So two types that are instances of each other differ only
in the numbers of their variables, and an instance of an instance is an image too. Whether the check
finds it is again a matter of the number of arguments.
-/

namespace Prenex.Ty

theorem exists_instantiate_beq_skolemize {required actual : Ty}
    (h : required.checkInstance actual = .ok ()) :
    ∃ f, (actual.instantiate f == required.skolemize) = true := by
  obtain ⟨s, hs⟩ := (checkInstance_ok_iff required actual).mp h
  have hsolved := Problem.solvedBy_of_solve_ok hs _ List.mem_cons_self
  rw [Equation.solvedBy_mk, instantiate_of_isGround required.isGround_skolemize] at hsolved
  exact ⟨s.image, BEq.symm hsolved⟩

theorem SkolemFree.exists_instantiate_beq {required actual : Ty} (hr : required.SkolemFree)
    (ha : actual.SkolemFree) (h : required.checkInstance actual = .ok ()) :
    ∃ f, (actual.instantiate f == required) = true := by
  obtain ⟨f, hf⟩ := exists_instantiate_beq_skolemize h
  have hback := relabel_beq (fun _ _ => Head.release_beq) hf
  rw [ha.relabel_release_instantiate, relabel_release_skolemize, hr.relabel_release] at hback
  exact ⟨_, hback⟩

theorem checkInstance_of_normalize_beq {a b : Ty} (h : (a.normalize == b.normalize) = true) :
    a.checkInstance b = .ok () := by
  apply checkInstance_of_beq _ (BEq.symm (rename_beq_of_normalize_beq (BEq.symm h)))
  intro x _
  rfl

theorem checkInstance_trans {a b c : Ty} (ha : a.SkolemFree) (hb : b.SkolemFree) (hc : c.SkolemFree)
    (hfirst : c.FirstOrder) (hab : a.checkInstance b = .ok ()) (hbc : b.checkInstance c = .ok ()) :
    a.checkInstance c = .ok () := by
  obtain ⟨f, hf⟩ := ha.exists_instantiate_beq hb hab
  obtain ⟨g, hg⟩ := hb.exists_instantiate_beq hc hbc
  have himage : (c.instantiate (fun i => (g i).instantiate f) == a) = true := by
    rw [← instantiate_instantiate]
    exact BEq.trans (instantiate_beq hg fun _ _ => BEq.rfl) hf
  apply checkInstance_of_beq _ (BEq.symm himage)
  intro x hx
  exact absurd hx (hfirst.not_appliedFirst x)

/-- Every type is an instance of itself. Two are instances of each other if and only if they have
one normal form. An instance of an instance of `c` is an instance of `c`, if no variable of `c` is
applied. -/
theorem checkInstance_preorder (a b c : Ty) (ha : a.SkolemFree) (hb : b.SkolemFree)
    (hc : c.SkolemFree) :
    a.checkInstance a = .ok () ∧
    (a.checkInstance b = .ok () ∧ b.checkInstance a = .ok () ↔
      (a.normalize == b.normalize) = true) ∧
    (a.checkInstance b = .ok () → b.checkInstance c = .ok () → c.FirstOrder →
      a.checkInstance c = .ok ()) := by
  refine ⟨checkInstance_of_normalize_beq BEq.rfl, ⟨?_, ?_⟩, fun hab hbc hfirst => ?_⟩
  · rintro ⟨hab, hba⟩
    obtain ⟨f, hf⟩ := ha.exists_instantiate_beq hb hab
    obtain ⟨g, hg⟩ := hb.exists_instantiate_beq ha hba
    exact (normalize_beq_iff a b).mpr (renumbered_of_instantiate_beq hg hf)
  · intro h
    exact ⟨checkInstance_of_normalize_beq h, checkInstance_of_normalize_beq (BEq.symm h)⟩
  · exact checkInstance_trans ha hb hc hfirst hab hbc

theorem checkInstance_preorder_functions :
    let a : Ty := .fn (.app (.var 1) [.var 0]) (.var 0)
    let b : Ty := .fn (.app (.var 4) [.var 7]) (.var 7)
    let c : Ty := .fn (.var 2) (.var 5)
    a.SkolemFree ∧ b.SkolemFree ∧ c.SkolemFree ∧ c.FirstOrder ∧
      (a.normalize == b.normalize) = true ∧
      a.checkInstance b = .ok () ∧ b.checkInstance a = .ok () ∧ b.checkInstance c = .ok () ∧
      a.checkInstance c = .ok () := by
  intro a b c
  have ha : a.SkolemFree := by simp [a, SkolemFree, fn, con, var]
  have hb : b.SkolemFree := by simp [b, SkolemFree, fn, con, var]
  have hc : c.SkolemFree := by simp [c, SkolemFree, fn, con, var]
  have hfirst : c.FirstOrder := by simp [c, fn, con, firstOrder_app, firstOrder_var]
  have hnormal : (a.normalize == b.normalize) = true := by
    have heq : a.normalize = b.normalize := rfl
    rw [heq]
    exact BEq.rfl
  have hbc : b.checkInstance c = .ok () := by
    apply checkInstance_of_beq (f := fun i => if i = 2 then .app (.var 4) [.var 7] else .var 7)
    · intro x hx
      exact absurd hx (hfirst.not_appliedFirst x)
    · exact BEq.rfl
  obtain ⟨-, hequiv, htrans⟩ := checkInstance_preorder a b c ha hb hc
  obtain ⟨hab, hba⟩ := hequiv.mpr hnormal
  exact ⟨ha, hb, hc, hfirst, hnormal, hab, hba, hbc, htrans hab hbc hfirst⟩

end Prenex.Ty
