import Prenex.Proofs.Application.Function

/-!
# Numbers do not matter

If different variables get different numbers, unification has the same outcome with these numbers in
it. A run brings in no variable, so what counts is where the variables of the two types go, and a
permutation of all indices takes them there too.

The outcome of an application does not change at all. Renaming the function and the argument apart
hands out numbers by the places of the variables, and the old numbers are gone before anything looks
at them.
-/

namespace Prenex

/-! ## The variables of an outcome -/

namespace TypeError

def rename (m : Index → Index) : TypeError → TypeError
  | .mismatch l r => .mismatch (l.rename m) (r.rename m)
  | .occursCheck x t => .occursCheck (m x) (t.rename m)

def occurrences : TypeError → List Index
  | .mismatch l r => l.occurrences ++ r.occurrences
  | .occursCheck x t => x :: t.occurrences

end TypeError

namespace Equation

theorem occurrences_subset_of_fail {e : Equation} {err : TypeError} (h : e.move = .fail err) :
    err.occurrences ⊆ e.occurrences := by
  cases rule_of_move h with
  | infinite => simp [TypeError.occurrences, occurrences]
  | appliedCount => exact List.Subset.refl _
  | pairCount => exact List.Subset.refl _
  | clash _ hh hk => simp [TypeError.occurrences, hh, hk]

theorem occurrences_subset_of_heads_subset {e : Equation} {es : List Equation}
    (h : e.heads ⊆ es.flatMap heads) :
    e.occurrences ⊆ es.flatMap occurrences := by
  intro i hi
  apply mem_occurrences_of_var_mem_heads
  apply h
  simpa [heads, occurrences, Ty.mem_occurrences_iff_mem_heads] using hi

end Equation

theorem Problem.occurrences_subset_of_solve_error {es : List Equation} {err : TypeError}
    (h : solve ⟨.empty, es⟩ = .error err) : err.occurrences ⊆ es.flatMap Equation.occurrences := by
  obtain ⟨s, e, rest, hreach, hmove⟩ := reaches_of_solve_error h
  have hdrawn := hreach.drawnFrom (drawnFrom_start es)
  have hfront := Equation.occurrences_subset_of_heads_subset (hdrawn.pending e List.mem_cons_self)
  exact List.Subset.trans (Equation.occurrences_subset_of_fail hmove) hfront

/-! ## Unification -/

section

variable {π : Equiv.Perm Index} {m : Index → Index}

open Relabelling (ofPerms)

theorem TypeError.relabel_eq_rename {err : TypeError} (h : ∀ i ∈ err.occurrences, π i = m i) :
    err.relabel (ofPerms π (Equiv.refl Index)) = err.rename m := by
  cases err with
  | mismatch l r =>
    obtain ⟨hl, hr⟩ := List.forall_mem_append.mp h
    rw [relabel, Ty.relabel_ofPerms_of_agree hl, Ty.relabel_ofPerms_of_agree hr, rename]
  | occursCheck x t =>
    obtain ⟨hx, ht⟩ := List.forall_mem_cons.mp h
    rw [relabel, Ty.relabel_ofPerms_of_agree ht, rename, ← hx]
    rfl

theorem Substitution.bindings_relabel_perm {s : Substitution}
    (h : ∀ b ∈ s.bindings, π b.1 = m b.1 ∧ ∀ i ∈ b.2.occurrences, π i = m i) :
    (s.relabel (ofPerms π (Equiv.refl Index))).bindings.Perm
      (s.bindings.map fun b => (m b.1, b.2.rename m)) := by
  have hmap : (s.bindings.map fun b => (π b.1, b.2.relabel (ofPerms π (Equiv.refl Index)).head)) =
      s.bindings.map fun b => (m b.1, b.2.rename m) := by
    apply List.map_congr_left
    intro b hb
    rw [(h b hb).1, Ty.relabel_ofPerms_of_agree (h b hb).2]
  rw [← hmap]
  exact bindings_ofRelabelled _ s.ascending

end

/-- Unification of renamed types gives the renamed outcome. The bindings are the same up to the new
numbers and the order that these bring with them, and an error has the new numbers in it. -/
theorem Ty.unify_rename (l r : Ty) (m : Index → Index)
    (hm : ∀ i ∈ l.vars ++ r.vars, ∀ j ∈ l.vars ++ r.vars, m i = m j → i = j) :
    (∀ s, l.unify r = .ok s → ∃ s', (l.rename m).unify (r.rename m) = .ok s' ∧
      s'.bindings.Perm (s.bindings.map fun b => (m b.1, b.2.rename m))) ∧
    ∀ err, l.unify r = .error err → (l.rename m).unify (r.rename m) = .error (err.rename m) := by
  obtain ⟨π, hπ⟩ := exists_perm_agree hm
  have hagree : ∀ i ∈ (Equation.mk l r).occurrences, π i = m i := by
    intro i hi
    apply hπ
    simpa [Equation.occurrences, mem_vars] using hi
  have hsolve : (l.rename m).unify (r.rename m) =
      (Relabelling.ofPerms π (Equiv.refl Index)).outcome (Problem.solve ⟨.empty, [⟨l, r⟩]⟩) :=
    Problem.solve_rename hagree
  refine ⟨fun s hs => ?_, fun err herr => ?_⟩
  · change Problem.solve ⟨.empty, [⟨l, r⟩]⟩ = .ok s at hs
    rw [hs] at hsolve
    refine ⟨_, hsolve, Substitution.bindings_relabel_perm fun b hb => ?_⟩
    obtain ⟨hkey, hbound⟩ := Problem.occurrences_subset_of_solve_ok hs (s.lookup_of_mem hb)
    rw [List.flatMap_singleton] at hkey hbound
    exact ⟨hagree _ hkey, fun i hi => hagree i (hbound hi)⟩
  · change Problem.solve ⟨.empty, [⟨l, r⟩]⟩ = .error err at herr
    have hvars := Problem.occurrences_subset_of_solve_error herr
    rw [List.flatMap_singleton] at hvars
    rw [hsolve, herr, Relabelling.outcome,
      TypeError.relabel_eq_rename fun i hi => hagree i (hvars hi)]

theorem Ty.unify_rename_reversed :
    let l : Ty := .app (.skolem 8) [.app (.var 0) [.var 1], .var 2]
    let r : Ty := .app (.skolem 8) [.app (.skolem 3) [.var 4], .app (.var 0) [.var 1]]
    let r' : Ty := .app (.skolem 8) [.app (.skolem 3) [.list (.var 1)], .var 2]
    let m : Index → Index := fun i =>
      if i = 0 then 9 else if i = 1 then 4 else if i = 2 then 1 else 0
    (l.unify r =
        .ok ⟨[(0, .app (.skolem 3) []), (1, .var 4), (2, .app (.skolem 3) [.var 4])], by decide⟩ ∧
      ∃ s', (l.rename m).unify (r.rename m) = .ok s' ∧
        s'.bindings.Perm [(9, .app (.skolem 3) []), (4, .var 0), (1, .app (.skolem 3) [.var 0])]) ∧
    l.unify r' = .error (.occursCheck 1 (.list (.var 1))) ∧
      (l.rename m).unify (r'.rename m) = .error (.occursCheck 4 (.list (.var 4))) := by
  -- The new numbers turn the order of the bound variables round.
  intro l r r' m
  have hvars : l.vars ++ r.vars = [0, 1, 2, 4, 0, 1] := rfl
  have hvars' : l.vars ++ r'.vars = [0, 1, 2, 1, 2] := rfl
  have hok : l.unify r =
      .ok ⟨[(0, .app (.skolem 3) []), (1, .var 4), (2, .app (.skolem 3) [.var 4])], by decide⟩ := by
    show Problem.solve ⟨.empty, [⟨l, r⟩]⟩ = _
    rw [Problem.solve_of_next rfl, Problem.solve_of_next rfl, Problem.solve_of_next rfl,
      Problem.solve_of_next rfl, Problem.solve_of_next rfl]
    exact Problem.solve_of_done rfl
  have herr : l.unify r' = .error (.occursCheck 1 (.list (.var 1))) := by
    show Problem.solve ⟨.empty, [⟨l, r'⟩]⟩ = _
    rw [Problem.solve_of_next rfl, Problem.solve_of_next rfl, Problem.solve_of_next rfl]
    exact Problem.solve_of_failed rfl
  exact ⟨⟨hok, (unify_rename l r m (by simp [hvars, m])).1 _ hok⟩, herr,
    (unify_rename l r' m (by simp [hvars', m])).2 _ herr⟩

/-! ## Application -/

theorem Supply.freshen_rename (s : Supply) {t : Ty} {m : Index → Index}
    (hm : ∀ i ∈ t.vars, ∀ j ∈ t.vars, m i = m j → i = j) :
    s.freshen (t.rename m) = s.freshen t := by
  unfold freshen
  rw [Ty.vars_rename hm]
  dsimp only
  rw [List.length_map]
  split
  · rename_i hlen
    -- A variable and its new number stand at the same place, so they get the same fresh index.
    rw [Ty.rename_rename]
    congr 2
    apply Ty.rename_congr
    intro i hi
    have hplace := List.idxOf_lt_length_of_mem hi
    rw [Ty.byTable_zip (List.mem_map_of_mem hi) (by simpa using hlen), Ty.byTable_zip hi hlen,
      idxOf_map hm t.nodup_vars hi]
    simp [List.getD_eq_getElem?_getD, hlen, hplace]
  · rfl

theorem Application.of?_rename {f a : Ty} {m₁ m₂ : Index → Index}
    (h₁ : ∀ i ∈ f.vars, ∀ j ∈ f.vars, m₁ i = m₁ j → i = j)
    (h₂ : ∀ i ∈ a.vars, ∀ j ∈ a.vars, m₂ i = m₂ j → i = j) :
    of? (f.rename m₁) (a.rename m₂) = of? f a := by
  unfold of?
  simp only [Supply.freshen_rename _ h₁, Supply.freshen_rename _ h₂]

/-- The numbers of the variables in the function and in the argument do not show in what an
application gives, be it a type or an error. The two may come to share variables, or cease to. -/
theorem Ty.resultType_rename (f a : Ty) (m₁ m₂ : Index → Index)
    (h₁ : ∀ i ∈ f.vars, ∀ j ∈ f.vars, m₁ i = m₁ j → i = j)
    (h₂ : ∀ i ∈ a.vars, ∀ j ∈ a.vars, m₂ i = m₂ j → i = j) :
    (f.rename m₁).resultType (a.rename m₂) = f.resultType a := by
  unfold resultType
  rw [Application.of?_rename h₁ h₂]

theorem Ty.resultType_rename_shared :
    let p : Ty := .app (.skolem 5) [.var 4]
    let f : Ty := .fn p (.fn (.var 7) (.var 4))
    let f' : Ty := .fn p (.app (.var 7) [.var 4])
    let a : Ty := .app (.skolem 5) [.var 3]
    let m₁ : Index → Index := fun i => if i = 4 then 7 else 3
    let m₂ : Index → Index := fun _ => 7
    let err : ApplicationError := .type (.mismatch (.app (.var 1) [.var 2]) (.var 3))
    (f.resultType a = .ok (.fn (.var 0) (.var 1)) ∧
      (f.rename m₁).resultType (a.rename m₂) = .ok (.fn (.var 0) (.var 1))) ∧
    f'.resultType a = .error err ∧ (f'.rename m₁).resultType (a.rename m₂) = .error err := by
  -- The new numbers make the function and the argument share `7`.
  intro p f f' a m₁ m₂ err
  have hvars : f.vars = [4, 7] := rfl
  have hvars' : f'.vars = [4, 7] := rfl
  have hvarsArgument : a.vars = [3] := rfl
  have hok : f.resultType a = .ok (.fn (.var 0) (.var 1)) := by
    have hcount : f.vars.length + a.vars.length < indexCount := by
      simp [hvars, hvarsArgument, indexCount]
    have hsolve : Problem.solve ⟨.empty, [parameterEquation p (.fn (.var 7) (.var 4)) a]⟩ =
        .ok (.single 0 (.var 2)) := by
      rw [Problem.solve_of_next rfl, Problem.solve_of_next rfl]
      exact Problem.solve_of_done rfl
    rw [resultType_fn_of_ok hcount hsolve (not_appliedVariable_of_rigid rfl)]
    rfl
  have herr : f'.resultType a = .error err := by
    have hcount : f'.vars.length + a.vars.length < indexCount := by
      simp [hvars', hvarsArgument, indexCount]
    have hsolve : Problem.solve ⟨.empty, [parameterEquation p (.app (.var 7) [.var 4]) a]⟩ =
        .ok (.single 0 (.var 2)) := by
      rw [Problem.solve_of_next rfl, Problem.solve_of_next rfl]
      exact Problem.solve_of_done rfl
    exact resultType_fn_of_appliedVariable hcount hsolve ⟨1, [.var 2], by simp, rfl⟩
  have h₂ : ∀ i ∈ a.vars, ∀ j ∈ a.vars, m₂ i = m₂ j → i = j := by
    simp [hvarsArgument]
  refine ⟨⟨hok, ?_⟩, herr, ?_⟩
  · rw [resultType_rename f a m₁ m₂ (by simp [hvars, m₁]) h₂, hok]
  · rw [resultType_rename f' a m₁ m₂ (by simp [hvars', m₁]) h₂, herr]

end Prenex
