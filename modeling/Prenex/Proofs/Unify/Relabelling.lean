import Mathlib.Logic.Equiv.Defs
import Prenex.Proofs.Substitution
import Prenex.Proofs.Unify.Run
import Prenex.Proofs.Unify.Solution

/-!
# Changes that the unifier does not see

A relabelling takes heads to heads and variables to variables, and it tells the same heads apart as
before. The move on a relabelled equation is the relabelled move, so a run on a relabelled problem
goes through the relabelled problems of the other run, to the relabelled outcome.
-/

namespace Prenex

/-- A change of heads that keeps apart what was apart, and variables what they are. -/
structure Relabelling where
  head : Head → Head
  index : Equiv.Perm Index
  head_var : ∀ i, head (.var i) = .var (index i)
  rigid : ∀ {h}, h.var? = none → (head h).var? = none
  head_beq_head : ∀ h k, (head h == head k) = (h == k)

variable (ρ : Relabelling)

theorem Relabelling.var?_head (h : Head) : (ρ.head h).var? = h.var?.map ρ.index := by
  rcases hh : h.var? with _ | i
  · exact ρ.rigid hh
  · obtain rfl := Head.var?_eq_some_iff.mp hh
    simp [ρ.head_var]

/-! ## Types -/

namespace Ty

theorem relabel_var (i : Index) : (Ty.var i).relabel ρ.head = .var (ρ.index i) := by
  simp [var, ρ.head_var]

theorem relabel_bare (φ : Head → Head) (t : Ty) : t.bare.relabel φ = (t.relabel φ).bare := by
  cases t
  simp [bare]

theorem relabel_beq_relabel (t u : Ty) : (t.relabel ρ.head == u.relabel ρ.head) = (t == u) := by
  induction t generalizing u with
  | app h ts ih =>
    obtain ⟨k, us⟩ := u
    have hargs : (ts.map (relabel ρ.head) == us.map (relabel ρ.head)) = (ts == us) := by
      induction ts generalizing us with
      | nil => cases us <;> rfl
      | cons t ts ihs =>
        rcases us with _ | ⟨u, us⟩
        · rfl
        · have ht := ih t (by simp) u
          have hts := ihs (fun v hv => ih v (by simp [hv])) us
          simp only [List.map_cons, List.cons_beq_cons, ht, hts]
    rw [relabel_app, relabel_app, app_beq_app, app_beq_app, ρ.head_beq_head, hargs]

theorem occurs_relabel (t : Ty) (x : Index) :
    (t.relabel ρ.head).occurs (ρ.index x) = t.occurs x := by
  rw [Bool.eq_iff_iff, occurs_iff_mem_occurrences, occurs_iff_mem_occurrences,
    occurrences_relabel_map ρ.var?_head]
  simp

theorem relabel_substitute (t : Ty) (x : Index) (u : Ty) :
    (t.substitute x u).relabel ρ.head =
      (t.relabel ρ.head).substitute (ρ.index x) (u.relabel ρ.head) := by
  rw [substitute_eq_instantiate, substitute_eq_instantiate]
  apply relabel_instantiate
  intro k _
  rcases hk : k.var? with _ | i
  · simp [instantiate_of_var?_eq_none hk, instantiate_of_var?_eq_none (ρ.rigid hk)]
  · obtain rfl := Head.var?_eq_some_iff.mp hk
    by_cases hi : i = x
    · simp [ρ.head_var, hi]
    · simp [ρ.head_var, hi, relabel_var]

end Ty

/-! ## One move -/

def TypeError.relabel : TypeError → TypeError
  | .mismatch l r => .mismatch (l.relabel ρ.head) (r.relabel ρ.head)
  | .occursCheck x t => .occursCheck (ρ.index x) (t.relabel ρ.head)

def Equation.relabel (e : Equation) : Equation := ⟨e.left.relabel ρ.head, e.right.relabel ρ.head⟩

def Move.relabel : Move → Move
  | .drop => .drop
  | .bind x t => .bind (ρ.index x) (t.relabel ρ.head)
  | .replace es => .replace (es.map (Equation.relabel ρ))
  | .fail err => .fail (err.relabel ρ)

namespace Equation

theorem relabel_mk (l r : Ty) :
    (Equation.mk l r).relabel ρ = ⟨l.relabel ρ.head, r.relabel ρ.head⟩ := rfl

theorem relabel_zipWith (ts us : List Ty) :
    (List.zipWith Equation.mk ts us).map (relabel ρ) =
      List.zipWith Equation.mk (ts.map (Ty.relabel ρ.head)) (us.map (Ty.relabel ρ.head)) := by
  simp only [List.map_zipWith, List.zipWith_map, relabel_mk]

theorem relabel_substitute (e : Equation) (x : Index) (t : Ty) :
    (e.substitute x t).relabel ρ = (e.relabel ρ).substitute (ρ.index x) (t.relabel ρ.head) := by
  simp only [substitute, relabel, Ty.relabel_substitute]

theorem Rule.relabel {e : Equation} {m : Move} (h : Rule e m) :
    Rule (e.relabel ρ) (m.relabel ρ) := by
  -- Sides that differ still differ, and heads are still variables or not, so the same rule fits.
  have hbeq : ∀ {l r : Ty}, (l == r) = false → (l.relabel ρ.head == r.relabel ρ.head) = false := by
    intro l r hne
    rw [Ty.relabel_beq_relabel, hne]
  cases h with
  | same heq => exact .same (by rwa [Ty.relabel_beq_relabel])
  | bind hne hx =>
    have hne := hbeq hne
    rw [relabel_mk, Ty.relabel_var]
    rw [Ty.relabel_var] at hne
    exact .bind hne (by rwa [Ty.occurs_relabel])
  | infinite hne hx =>
    have hne := hbeq hne
    rw [relabel_mk, Ty.relabel_var]
    rw [Ty.relabel_var] at hne
    exact .infinite hne (by rwa [Ty.occurs_relabel])
  | applied hne hts hlen =>
    have hne := hbeq hne
    simp only [relabel_mk, Move.relabel, List.map_cons, relabel_zipWith, Ty.relabel_var,
      Ty.relabel_bare, Ty.relabel_app, ρ.head_var, ← Ty.args_relabel] at hne ⊢
    exact .applied hne (by simpa using hts) (by simpa using hlen)
  | appliedCount hne hts hlen =>
    have hne := hbeq hne
    simp only [relabel_mk, Move.relabel, TypeError.relabel, Ty.relabel_app, ρ.head_var] at hne ⊢
    exact .appliedCount hne (by simpa using hts) (by simpa using hlen)
  | @swap l y us hne hl =>
    have hne := hbeq hne
    simp only [relabel_mk, Move.relabel, List.map_cons, List.map_nil, Ty.relabel_app,
      ρ.head_var] at hne ⊢
    refine .swap hne ?_
    obtain ⟨h, ts⟩ := l
    simpa using ρ.rigid hl
  | pair hne hh hk hhead hlen =>
    have hne := hbeq hne
    simp only [relabel_mk, Move.relabel, relabel_zipWith, Ty.relabel_app] at hne ⊢
    exact .pair hne (ρ.rigid hh) (ρ.rigid hk) (by rwa [ρ.head_beq_head]) (by simpa using hlen)
  | pairCount hne hh hk hhead hlen =>
    have hne := hbeq hne
    simp only [relabel_mk, Move.relabel, TypeError.relabel, Ty.relabel_app] at hne ⊢
    exact .pairCount hne (ρ.rigid hh) (ρ.rigid hk) (by rwa [ρ.head_beq_head]) (by simpa using hlen)
  | clash hne hh hk hhead =>
    have hne := hbeq hne
    simp only [relabel_mk, Move.relabel, TypeError.relabel, Ty.relabel_app, List.map_nil] at hne ⊢
    exact .clash hne (ρ.rigid hh) (ρ.rigid hk) (by rwa [ρ.head_beq_head])

theorem move_relabel (e : Equation) : (e.relabel ρ).move = e.move.relabel ρ :=
  move_eq_of_rule (e.rule.relabel ρ)

end Equation

/-! ## Whole runs -/

namespace Substitution

/-- Binds the relabelled variables to the relabelled types. -/
def ofRelabelled : List Binding → Substitution
  | [] => .empty
  | b :: bs => (ofRelabelled bs).insert (ρ.index b.1) (b.2.relabel ρ.head)

def relabel (s : Substitution) : Substitution := ofRelabelled ρ s.bindings

theorem lookup_ofRelabelled (bs : List Binding) (x : Index) :
    (ofRelabelled ρ bs).lookup (ρ.index x) = (bs.lookup x).map (Ty.relabel ρ.head) := by
  induction bs with
  | nil => rfl
  | cons b bs ih =>
    rw [ofRelabelled, lookup_insert, lookup_cons, ih]
    by_cases hx : x = b.1 <;> simp [hx]

theorem bindings_ofRelabelled {bs : List Binding} (h : Ascending bs) :
    (ofRelabelled ρ bs).bindings.Perm (bs.map fun b => (ρ.index b.1, b.2.relabel ρ.head)) := by
  induction bs with
  | nil => exact .refl _
  | cons b bs ih =>
    obtain ⟨hb, hbs⟩ := List.pairwise_cons.mp h
    have hfresh : ∀ c ∈ (ofRelabelled ρ bs).bindings, ρ.index b.1 ≠ c.1 := by
      intro c hc
      obtain ⟨d, hd, rfl⟩ := List.mem_map.mp ((ih hbs).mem_iff.mp hc)
      exact ρ.index.injective.ne (UInt32.ne_of_lt (hb d hd))
    exact (insertBinding_perm hfresh _).trans ((ih hbs).cons _)

theorem lookup_relabel (s : Substitution) (x : Index) :
    (s.relabel ρ).lookup (ρ.index x) = (s.lookup x).map (Ty.relabel ρ.head) :=
  lookup_ofRelabelled ρ s.bindings x

theorem eq_relabel {s u : Substitution}
    (h : ∀ x, u.lookup (ρ.index x) = (s.lookup x).map (Ty.relabel ρ.head)) :
    u = s.relabel ρ := by
  ext y : 1
  rw [← ρ.index.apply_symm_apply y, h, lookup_relabel]

theorem image_relabel (s : Substitution) (x : Index) :
    (s.relabel ρ).image (ρ.index x) = (s.image x).relabel ρ.head := by
  unfold image
  rw [lookup_relabel]
  rcases s.lookup x with _ | t
  · exact (Ty.relabel_var ρ x).symm
  · rfl

theorem relabel_apply (s : Substitution) (t : Ty) :
    (s.apply t).relabel ρ.head = (s.relabel ρ).apply (t.relabel ρ.head) := by
  rw [apply_eq_instantiate, apply_eq_instantiate]
  apply Ty.relabel_instantiate
  intro k _
  rcases hk : k.var? with _ | i
  · simp [Ty.instantiate_of_var?_eq_none hk, Ty.instantiate_of_var?_eq_none (ρ.rigid hk)]
  · obtain rfl := Head.var?_eq_some_iff.mp hk
    simp [ρ.head_var, image_relabel]

theorem relabel_bind (s : Substitution) (x : Index) (t : Ty) :
    (s.bind x t).relabel ρ = (s.relabel ρ).bind (ρ.index x) (t.relabel ρ.head) := by
  symm
  apply eq_relabel
  intro y
  rw [lookup_bind, lookup_bind, lookup_relabel]
  by_cases hyx : y = x
  · simp [hyx]
  · rcases s.lookup y with _ | u
    · simp [hyx]
    · simp [hyx, Ty.relabel_substitute]

end Substitution

def Relabelling.outcome : Except TypeError Substitution → Except TypeError Substitution
  | .ok s => .ok (s.relabel ρ)
  | .error err => .error (err.relabel ρ)

namespace Problem

def relabel (p : Problem) : Problem := ⟨p.solved.relabel ρ, p.pending.map (Equation.relabel ρ)⟩

theorem next_relabel {p q : Problem} (hnext : Next p q) : Next (p.relabel ρ) (q.relabel ρ) := by
  rcases hnext with hmove | @⟨s, x, t, rest, hmove⟩ | hmove
  · exact .drop (by rw [Equation.move_relabel, hmove]; rfl)
  · have hmove' := Equation.move_relabel ρ ⟨.var x, t⟩
    rw [hmove, Equation.relabel_mk, Ty.relabel_var] at hmove'
    have hrest : (rest.map (·.substitute x t)).map (Equation.relabel ρ) =
        (rest.map (Equation.relabel ρ)).map (·.substitute (ρ.index x) (t.relabel ρ.head)) := by
      rw [List.map_map, List.map_map]
      exact List.map_congr_left fun e _ => Equation.relabel_substitute ρ e x t
    simp only [relabel, List.map_cons, Equation.relabel_mk, Ty.relabel_var,
      Substitution.relabel_bind, hrest]
    exact .bind hmove'
  · simp only [relabel, List.map_cons, List.map_append]
    exact .replace (by rw [Equation.move_relabel, hmove]; rfl)

theorem Reaches.relabel {p q : Problem} (h : p.Reaches q) : (p.relabel ρ).Reaches (q.relabel ρ) :=
  h.lift (Problem.relabel ρ) fun _ _ => next_relabel ρ

theorem solve_relabel (p : Problem) : (p.relabel ρ).solve = ρ.outcome p.solve := by
  rcases hsolve : p.solve with err | s
  · obtain ⟨s, e, rest, hreach, hmove⟩ := reaches_of_solve_error hsolve
    rw [solve_eq_of_reaches (hreach.relabel ρ)]
    apply solve_of_failed
    simp [Problem.relabel, step, Equation.move_relabel, hmove, Move.relabel]
  · rw [solve_eq_of_reaches ((reaches_of_solve_ok hsolve).relabel ρ)]
    exact solve_of_done rfl

end Problem

end Prenex
