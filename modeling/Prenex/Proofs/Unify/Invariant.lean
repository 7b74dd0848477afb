import Prenex.Proofs.Ty.Relabel
import Prenex.Proofs.Unify.MostGeneral

/-!
# What holds in the middle of a run

A bound variable stands nowhere else, and everything that stands anywhere was in the equations that
the run started from. So each binding is for a variable that is not bound yet, and its type needs no
rewriting.
-/

namespace Prenex

namespace Equation

def heads (e : Equation) : List Head := e.left.heads ++ e.right.heads

theorem heads_subset_iff {l r : Ty} {hs : List Head} :
    (Equation.mk l r).heads ⊆ hs ↔ l.heads ⊆ hs ∧ r.heads ⊆ hs := List.append_subset

theorem heads_substitute_subset {e : Equation} {x : Index} {t : Ty} {hs : List Head}
    (he : e.heads ⊆ hs) (ht : t.heads ⊆ hs) : (e.substitute x t).heads ⊆ hs := by
  obtain ⟨hl, hr⟩ := heads_subset_iff.mp he
  refine heads_subset_iff.mpr ⟨fun k hk => ?_, fun k hk => ?_⟩
  · exact (Ty.mem_heads_substitute hk).elim (hl ·) (ht ·)
  · exact (Ty.mem_heads_substitute hk).elim (hr ·) (ht ·)

theorem heads_subset_of_mem_zipWith {h k : Head} {ts us : List Ty} {e : Equation}
    (he : e ∈ List.zipWith Equation.mk ts us) :
    e.heads ⊆ (Equation.mk (.app h ts) (.app k us)).heads := by
  obtain ⟨hl, hr⟩ := mem_zipWith he
  apply List.append_subset.mpr
  exact ⟨List.subset_append_of_subset_left _ (Ty.heads_subset_of_mem hl),
    List.subset_append_of_subset_right _ (Ty.heads_subset_of_mem hr)⟩

theorem heads_subset_of_replace {e e' : Equation} {es : List Equation} (h : e.move = .replace es)
    (he' : e' ∈ es) :
    e'.heads ⊆ e.heads := by
  cases rule_of_move h with
  | @applied x ts r =>
    obtain ⟨k, us⟩ := r
    rcases List.mem_cons.mp he' with rfl | he'
    · -- The variable and the head of the other side, both without their arguments.
      simp [heads, Ty.var, Ty.bare]
    · exact heads_subset_of_mem_zipWith he'
  | swap =>
    obtain rfl := List.mem_singleton.mp he'
    simp [heads]
  | pair => exact heads_subset_of_mem_zipWith he'

theorem mem_occurrences_of_var_mem_heads {x : Index} {es : List Equation}
    (h : Head.var x ∈ es.flatMap heads) : x ∈ es.flatMap occurrences := by
  obtain ⟨e, he, hx⟩ := List.mem_flatMap.mp h
  refine List.mem_flatMap.mpr ⟨e, he, ?_⟩
  simpa [heads, occurrences, Ty.mem_occurrences_iff_mem_heads] using hx

end Equation

namespace Problem

/-! ## Nothing comes in -/

/-- The bound variables, their types and the equations that wait have no other heads than those in
`hs`. -/
structure DrawnFrom (hs : List Head) (p : Problem) : Prop where
  key : ∀ x, p.solved.lookup x ≠ none → Head.var x ∈ hs
  bound : ∀ x t, p.solved.lookup x = some t → t.heads ⊆ hs
  pending : ∀ e ∈ p.pending, e.heads ⊆ hs

theorem drawnFrom_start (es : List Equation) :
    DrawnFrom (es.flatMap Equation.heads) ⟨.empty, es⟩ where
  key := by simp
  bound := by simp
  pending e he _ hk := List.mem_flatMap.mpr ⟨e, he, hk⟩

variable {hs : List Head}

theorem drawnFrom_bind {s : Substitution} {x : Index} {t : Ty} {rest : List Equation}
    (h : DrawnFrom hs ⟨s, ⟨.var x, t⟩ :: rest⟩) :
    DrawnFrom hs ⟨s.bind x t, rest.map (·.substitute x t)⟩ := by
  obtain ⟨hfront, hrest⟩ := List.forall_mem_cons.mp h.pending
  obtain ⟨hx, ht⟩ := Equation.heads_subset_iff.mp hfront
  constructor
  · intro y hy
    rcases Substitution.eq_or_bound_of_bind hy with rfl | hy
    · exact hx (by simp [Ty.var])
    · exact h.key y hy
  · intro y u hu
    rw [Substitution.lookup_bind] at hu
    split at hu
    · cases hu
      exact ht
    · obtain ⟨v, hv, rfl⟩ := Option.map_eq_some_iff.mp hu
      intro k hk
      exact (Ty.mem_heads_substitute hk).elim (h.bound y v hv ·) (ht ·)
  · intro e' he'
    obtain ⟨e, he, rfl⟩ := List.mem_map.mp he'
    exact Equation.heads_substitute_subset (hrest e he) ht

theorem DrawnFrom.next {p q : Problem} (hnext : Next p q) (h : p.DrawnFrom hs) :
    q.DrawnFrom hs := by
  rcases hnext with hmove | hmove | hmove
  · exact ⟨h.key, h.bound, (List.forall_mem_cons.mp h.pending).2⟩
  · exact drawnFrom_bind h
  · obtain ⟨hfront, hrest⟩ := List.forall_mem_cons.mp h.pending
    refine ⟨h.key, h.bound, List.forall_mem_append.mpr ⟨fun e he => ?_, hrest⟩⟩
    exact List.Subset.trans (Equation.heads_subset_of_replace hmove he) hfront

theorem Reaches.drawnFrom {p q : Problem} (h : p.Reaches q) (hp : p.DrawnFrom hs) :
    q.DrawnFrom hs :=
  h.keeps (fun _ _ hnext => DrawnFrom.next hnext) hp

theorem occurrences_subset_of_solve_ok {es : List Equation} {s : Substitution}
    (h : solve ⟨.empty, es⟩ = .ok s) {x : Index} {t : Ty} (hx : s.lookup x = some t) :
    x ∈ es.flatMap Equation.occurrences ∧ t.occurrences ⊆ es.flatMap Equation.occurrences := by
  have hdrawn := (reaches_of_solve_ok h).drawnFrom (drawnFrom_start es)
  refine ⟨Equation.mem_occurrences_of_var_mem_heads (hdrawn.key x (by simp [hx])), fun i hi => ?_⟩
  rw [Ty.mem_occurrences_iff_mem_heads] at hi
  exact Equation.mem_occurrences_of_var_mem_heads (hdrawn.bound x t hx hi)

/-! ## Bindings -/

/-- A binding is for a variable that is new to the substitution, and for a type to which the
substitution has nothing to add. -/
structure Fits (s : Substitution) (x : Index) (t : Ty) : Prop where
  unbound : s.lookup x = none
  absent : x ∉ t.occurrences
  rewritten : s.apply t = t

theorem Resolved.fits {s : Substitution} {x : Index} {t : Ty} {rest : List Equation}
    (h : Resolved ⟨s, ⟨.var x, t⟩ :: rest⟩) (hmove : (Equation.mk (.var x) t).move = .bind x t) :
    Fits s x t where
  unbound := lookup_eq_none_of_front h (by simp [Equation.occurrences])
  absent := (Equation.move_eq_bind hmove).2
  rewritten := by
    rw [Substitution.apply_eq_instantiate]
    apply instantiate_image_eq_self
    intro y hy
    exact lookup_eq_none_of_front h (by simp [Equation.occurrences, hy])

theorem solved_of_step {p q : Problem} {made : Option Binding} (h : p.step = .next made q) :
    made = none ∧ q.solved = p.solved ∨
    ∃ x t rest, made = some (x, t) ∧ q.solved = p.solved.bind x t ∧
      p = ⟨p.solved, ⟨.var x, t⟩ :: rest⟩ ∧
      (Equation.mk (.var x) t).move = .bind x t := by
  obtain ⟨s, pending⟩ := p
  rcases pending with _ | ⟨e, rest⟩
  · cases h
  · simp only [step] at h
    split at h
    · cases h
      exact .inl ⟨rfl, rfl⟩
    · rename_i x t hmove
      cases h
      obtain ⟨rfl, -⟩ := Equation.move_eq_bind hmove
      exact .inr ⟨x, t, rest, rfl, rfl, rfl, hmove⟩
    · cases h
      exact .inl ⟨rfl, rfl⟩
    · cases h

theorem Resolved.fits_of_step {p q : Problem} {made : Option Binding} (hp : p.Resolved)
    (h : p.step = .next made q) :
    made = none ∧ q.solved = p.solved ∨
    ∃ x t, made = some (x, t) ∧ q.solved = p.solved.bind x t ∧ Fits p.solved x t := by
  refine (solved_of_step h).imp_right ?_
  rintro ⟨x, t, rest, hmade, hsolved, hfront, hmove⟩
  rw [hfront] at hp
  exact ⟨x, t, hmade, hsolved, hp.fits hmove⟩

/-! ## The answer -/

theorem Resolved.apply_apply {s : Substitution} (h : Resolved ⟨s, []⟩) (t : Ty) :
    s.apply (s.apply t) = s.apply t := by
  simp only [Substitution.apply_eq_instantiate, Ty.instantiate_instantiate,
    instantiate_image_image h]

/-- In every state of a run the bound variables stand nowhere else, and everything comes from the
equations at the start. Each binding that is made fits. A solution changes nothing when it is
applied again, and it binds variables of those equations only. -/
theorem run_invariant (es : List Equation) :
    (∀ p, (Problem.empty.pushAll es).Reaches p →
      p.Resolved ∧ p.DrawnFrom (es.flatMap Equation.heads) ∧
      ∀ made q, p.step = .next made q →
        made = none ∧ q.solved = p.solved ∨
        ∃ x t, made = some (x, t) ∧ q.solved = p.solved.bind x t ∧ Fits p.solved x t) ∧
    ∀ s, (Problem.empty.pushAll es).solve = .ok s →
      (∀ t, s.apply (s.apply t) = s.apply t) ∧
        ∀ x, s.lookup x ≠ none → x ∈ es.flatMap Equation.occurrences := by
  rw [pushAll_eq]
  have hresolved : ∀ p, Reaches ⟨.empty, es⟩ p → p.Resolved :=
    fun p h => h.resolved (resolved_empty es)
  have hdrawn : ∀ p, Reaches ⟨.empty, es⟩ p → p.DrawnFrom (es.flatMap Equation.heads) :=
    fun p h => h.drawnFrom (drawnFrom_start es)
  constructor
  · intro p hreach
    exact ⟨hresolved p hreach, hdrawn p hreach,
      fun made q hstep => (hresolved p hreach).fits_of_step hstep⟩
  · intro s hs
    have hend := reaches_of_solve_ok hs
    refine ⟨(hresolved _ hend).apply_apply, fun x hx => ?_⟩
    exact Equation.mem_occurrences_of_var_mem_heads ((hdrawn _ hend).key x hx)

theorem run_invariant_applied :
    let option : Constructor := Builtin.named "Option"
    let int : Ty := .con (Builtin.named "Int") []
    let es : List Equation :=
      [⟨.app (.var 0) [.var 1], .con option [.app (.skolem 3) [.var 2]]⟩,
        ⟨.var 2, .app (.var 0) [int]⟩]
    let p : Problem :=
      ⟨⟨[(0, .con option []), (1, .app (.skolem 3) [.var 2])], by decide⟩,
        [⟨.var 2, .con option [int]⟩]⟩
    let s : Substitution :=
      ⟨[(0, .con option []), (1, .app (.skolem 3) [.con option [int]]), (2, .con option [int])],
        by decide⟩
    (Problem.empty.pushAll es).Reaches p ∧ p.Resolved ∧ p.DrawnFrom (es.flatMap Equation.heads) ∧
      Fits p.solved 2 (.con option [int]) ∧
      (Problem.empty.pushAll es).solve = .ok s ∧ (∀ t, s.apply (s.apply t) = s.apply t) := by
  intro option int es p s
  have hreach : (Problem.empty.pushAll es).Reaches p :=
    .head ((next_iff_step _ _).mpr ⟨_, rfl⟩) (.head ((next_iff_step _ _).mpr ⟨_, rfl⟩)
      (.single ((next_iff_step _ _).mpr ⟨_, rfl⟩)))
  have hlast : p.step = .next (some (2, .con option [int])) ⟨s, []⟩ := rfl
  have hsolve : (Problem.empty.pushAll es).solve = .ok s := by
    rw [solve_eq_of_reaches hreach, solve_of_next hlast, solve_of_done rfl]
  obtain ⟨hstates, hanswer⟩ := run_invariant es
  obtain ⟨hresolved, hdrawn, hbindings⟩ := hstates p hreach
  rcases hbindings _ _ hlast with ⟨hnone, -⟩ | ⟨x, t, hmade, -, hfits⟩
  · cases hnone
  · cases hmade
    exact ⟨hreach, hresolved, hdrawn, hfits, hsolve, (hanswer s hsolve).1⟩

end Problem

end Prenex
