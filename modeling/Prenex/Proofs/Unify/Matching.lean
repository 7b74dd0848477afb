import Prenex.Proofs.Unify.MostGeneral
import Prenex.Proofs.Ty.ArgumentCounts

/-!
# Matching against a ground type

A run that starts from a ground type on one side keeps a ground side in every equation. So it binds
variables to ground types, and the places of the others stay as they were in the type it started
from. A variable that has arguments at its first place is bound to a bare head.
-/

namespace Prenex

namespace Ty

theorem isGround_bare {t : Ty} (h : t.isGround = true) : t.bare.isGround = true := by
  obtain ⟨k, us⟩ := t
  simp only [isGround_app, Bool.and_eq_true] at h
  simp [bare, h.1]

theorem isGround_of_mem_args {t u : Ty} (h : t.isGround = true) (hu : u ∈ t.args) :
    u.isGround = true := by
  obtain ⟨k, us⟩ := t
  simp only [isGround_app, Bool.and_eq_true, List.all_eq_true] at h
  exact h.2 u hu

theorem flatMap_argumentCounts_of_isGround {ts : List Ty} (h : ∀ t ∈ ts, t.isGround = true)
    (x : Index) :
    ts.flatMap (argumentCounts · x) = [] := by
  rw [List.flatMap_eq_nil_iff]
  exact fun t ht => argumentCounts_of_isGround (h t ht)

end Ty

namespace Equation

/-! ## Equations with a ground side -/

def OneSided (e : Equation) : Prop := e.left.isGround = true ∨ e.right.isGround = true

def argumentCounts (e : Equation) (x : Index) : List Nat :=
  e.left.argumentCounts x ++ e.right.argumentCounts x

theorem right_isGround {x : Index} {ts : List Ty} {r : Ty}
    (h : (Equation.mk (.app (.var x) ts) r).OneSided) :
    r.isGround = true := by
  rcases h with h | h
  · simp at h
  · exact h

theorem left_isGround {x : Index} {ts : List Ty} {l : Ty}
    (h : (Equation.mk l (.app (.var x) ts)).OneSided) :
    l.isGround = true := by
  rcases h with h | h
  · exact h
  · simp at h

theorem OneSided.args {h k : Head} {ts us : List Ty}
    (he : (Equation.mk (.app h ts) (.app k us)).OneSided) :
    (∀ t ∈ ts, t.isGround = true) ∨ ∀ u ∈ us, u.isGround = true := by
  rcases he with he | he
  · exact .inl fun t ht => Ty.isGround_of_mem_args he ht
  · exact .inr fun u hu => Ty.isGround_of_mem_args he hu

theorem OneSided.substitute {e : Equation} (h : e.OneSided) (x : Index) (t : Ty) :
    (e.substitute x t).OneSided := by
  rcases h with h | h
  · left
    rwa [Equation.substitute, Ty.substitute_of_isGround h]
  · right
    rwa [Equation.substitute, Ty.substitute_of_isGround h]

theorem argumentCounts_substitute {x y : Index} {t : Ty} (ht : t.isGround = true) (hxy : x ≠ y)
    (e : Equation) :
    (e.substitute y t).argumentCounts x = e.argumentCounts x := by
  unfold argumentCounts substitute
  rw [Ty.argumentCounts_substitute ht hxy, Ty.argumentCounts_substitute ht hxy]

theorem argumentCounts_zipWith {x : Index} {ts us : List Ty} (hlen : ts.length = us.length)
    (hground : (∀ t ∈ ts, t.isGround = true) ∨ ∀ u ∈ us, u.isGround = true) :
    (List.zipWith Equation.mk ts us).flatMap (·.argumentCounts x) =
      ts.flatMap (·.argumentCounts x) ++ us.flatMap (·.argumentCounts x) := by
  induction ts generalizing us with
  | nil =>
    obtain rfl : us = [] := List.eq_nil_of_length_eq_zero hlen.symm
    simp
  | cons t ts ih =>
    rcases us with _ | ⟨u, us⟩
    · simp at hlen
    · have hrest := hground.imp (fun h a ha => h a (List.mem_cons_of_mem _ ha))
        (fun h a ha => h a (List.mem_cons_of_mem _ ha))
      rw [List.zipWith_cons_cons, List.flatMap_cons, ih (by simpa using hlen) hrest, argumentCounts]
      rcases hground with h | h
      · have ht := Ty.flatMap_argumentCounts_of_isGround h x
        simp only [List.flatMap_cons, List.append_eq_nil_iff] at ht
        simp [ht]
      · have hu := Ty.flatMap_argumentCounts_of_isGround h x
        simp only [List.flatMap_cons, List.append_eq_nil_iff] at hu
        simp [hu]

theorem isGround_of_drop {e : Equation} (h : e.move = .drop) (he : e.OneSided) :
    e.left.isGround = true ∧ e.right.isGround = true := by
  cases rule_of_move h with
  | same heq =>
    have hsides := Ty.isGround_eq_of_beq heq
    rcases he with he | he
    · exact ⟨he, hsides ▸ he⟩
    · exact ⟨hsides ▸ he, he⟩

theorem oneSided_of_replace {e : Equation} {es : List Equation} (h : e.move = .replace es)
    (he : e.OneSided) :
    ∀ e' ∈ es, e'.OneSided := by
  cases rule_of_move h with
  | applied =>
    have hr := right_isGround he
    rw [List.forall_mem_cons]
    refine ⟨.inr (Ty.isGround_bare hr), fun e' he' => .inr ?_⟩
    exact Ty.isGround_of_mem_args hr (mem_zipWith he').2
  | swap => simpa [OneSided] using he.symm
  | pair =>
    intro e' he'
    obtain ⟨ht, hu⟩ := mem_zipWith he'
    exact he.args.imp (fun h => h _ ht) (fun h => h _ hu)

theorem left_ne_var_of_replace {e : Equation} {es : List Equation} (h : e.move = .replace es)
    (x : Index) :
    e.left ≠ .var x := by
  cases rule_of_move h with
  | applied _ hts => simp [Ty.var, hts]
  | swap _ hl =>
    rintro rfl
    simp [Ty.var] at hl
  | pair _ hh =>
    simp only [Ty.var, ne_eq, Ty.app.injEq, not_and]
    rintro rfl
    simp at hh

/-- New equations keep the places of a variable, unless it has just lost its arguments. Then it
waits in front to be bound to a bare head. -/
theorem argumentCounts_of_replace {e : Equation} {es : List Equation} (h : e.move = .replace es)
    (he : e.OneSided) (x : Index) :
    es.flatMap (·.argumentCounts x) = e.argumentCounts x ∨
      ∃ r es', es = ⟨.var x, r⟩ :: es' ∧ r.args = [] := by
  cases rule_of_move h with
  | @applied y ts r _ _ hlen =>
    by_cases hyx : y = x
    · subst hyx
      exact .inr ⟨_, _, rfl, rfl⟩
    · left
      have hr := right_isGround he
      have hargs : ∀ u ∈ r.args, u.isGround = true := fun u hu => Ty.isGround_of_mem_args hr hu
      rw [List.flatMap_cons, argumentCounts_zipWith hlen (.inr hargs), argumentCounts,
        argumentCounts, Ty.argumentCounts_of_isGround (Ty.isGround_bare hr),
        Ty.argumentCounts_of_isGround hr, Ty.flatMap_argumentCounts_of_isGround hargs]
      simp [Ty.var, hyx]
  | @swap l y us =>
    left
    have hl := left_isGround he
    simp [argumentCounts, Ty.argumentCounts_of_isGround hl]
  | pair _ hh hk _ hlen =>
    left
    rw [argumentCounts_zipWith hlen he.args]
    simp [argumentCounts, hh, hk]

end Equation

namespace Problem

/-! ## The invariant -/

/-- Matching the variables of `t`, in the middle of a run. -/
structure Matching (t : Ty) (p : Problem) : Prop where
  oneSided : ∀ e ∈ p.pending, e.OneSided
  bound : ∀ x u, p.solved.lookup x = some u → u.isGround = true
  counts : ∀ x, p.solved.lookup x = none →
    p.pending.flatMap (·.argumentCounts x) = t.argumentCounts x ∨
      ∃ r rest, p.pending = ⟨.var x, r⟩ :: rest ∧ r.args = []
  bare : ∀ x u, p.solved.lookup x = some u → t.AppliedFirst x → u.args = []

theorem matching_start {g t : Ty} (hg : g.isGround = true) : Matching t ⟨.empty, [⟨g, t⟩]⟩ where
  oneSided := by simpa [Equation.OneSided] using .inl hg
  bound := by simp
  counts := by simp [Equation.argumentCounts, Ty.argumentCounts_of_isGround hg]
  bare := by simp

variable {t : Ty}

theorem matching_drop {s : Substitution} {e : Equation} {rest : List Equation}
    (hmove : e.move = .drop) (h : Matching t ⟨s, e :: rest⟩) : Matching t ⟨s, rest⟩ := by
  obtain ⟨he, hrest⟩ := List.forall_mem_cons.mp h.oneSided
  obtain ⟨hl, hr⟩ := Equation.isGround_of_drop hmove he
  refine ⟨hrest, h.bound, fun x hx => .inl ?_, h.bare⟩
  rcases h.counts x hx with hcounts | ⟨r, rest', hfront, -⟩
  · simpa [Equation.argumentCounts, Ty.argumentCounts_of_isGround hl,
      Ty.argumentCounts_of_isGround hr]
      using hcounts
  · obtain ⟨rfl, -⟩ := List.cons.inj hfront
    simp [Ty.var] at hl

theorem args_eq_nil_of_bind {s : Substitution} {x : Index} {u : Ty} {rest : List Equation}
    (hx : s.lookup x = none) (hfirst : t.AppliedFirst x) (h : Matching t ⟨s, ⟨.var x, u⟩ :: rest⟩) :
    u.args = [] := by
  rcases h.counts x hx with hcounts | ⟨r, rest', hfront, hr⟩
  · -- The first place of `x` would be the one in front, where it has no arguments.
    obtain ⟨n, hn, hpos⟩ := hfirst
    simp [← hcounts, Equation.argumentCounts, Ty.var] at hn
    omega
  · obtain ⟨he, -⟩ := List.cons.inj hfront
    cases he
    exact hr

theorem appliedFirst_of_front {s : Substitution} {x : Index} {ts : List Ty} {r : Ty}
    {rest : List Equation} (hx : s.lookup x = none) (hts : ts ≠ [])
    (h : Matching t ⟨s, ⟨.app (.var x) ts, r⟩ :: rest⟩) :
    t.AppliedFirst x := by
  rcases h.counts x hx with hcounts | ⟨r', rest', hfront, -⟩
  · refine ⟨ts.length, ?_, List.length_pos_iff.mpr hts⟩
    simp [← hcounts, Equation.argumentCounts]
  · obtain ⟨he, -⟩ := List.cons.inj hfront
    simp [Ty.var, hts] at he

theorem matching_bind {s : Substitution} {x : Index} {u : Ty} {rest : List Equation}
    (hx : s.lookup x = none) (h : Matching t ⟨s, ⟨.var x, u⟩ :: rest⟩) :
    Matching t ⟨s.bind x u, rest.map (·.substitute x u)⟩ := by
  obtain ⟨he, hrest⟩ := List.forall_mem_cons.mp h.oneSided
  have hu : u.isGround = true := Equation.right_isGround he
  have hlookup : ∀ y v, (s.bind x u).lookup y = some v → y = x ∧ v = u ∨ s.lookup y = some v := by
    intro y v hv
    rw [Substitution.lookup_bind] at hv
    split at hv
    · exact .inl ⟨‹_›, (Option.some.inj hv).symm⟩
    · obtain ⟨w, hw, rfl⟩ := Option.map_eq_some_iff.mp hv
      rw [Ty.substitute_of_isGround (h.bound y w hw)]
      exact .inr hw
  constructor
  · intro e' he'
    obtain ⟨e, he, rfl⟩ := List.mem_map.mp he'
    exact (hrest e he).substitute x u
  · intro y v hv
    rcases hlookup y v hv with ⟨-, rfl⟩ | hv
    · exact hu
    · exact h.bound y v hv
  · intro y hy
    have hyx : y ≠ x := by
      rintro rfl
      simp at hy
    have hold : s.lookup y = none := by
      simpa [hyx] using hy
    left
    rcases h.counts y hold with hcounts | ⟨r, rest', hfront, -⟩
    · have hfront : (Equation.mk (.var x) u).argumentCounts y = [] := by
        simp [Equation.argumentCounts, Ty.argumentCounts_of_isGround hu, Ty.var, Ne.symm hyx]
      rw [← hcounts, List.flatMap_cons, hfront, List.nil_append, List.flatMap_map]
      simp only [Equation.argumentCounts_substitute hu hyx]
    · obtain ⟨he, -⟩ := List.cons.inj hfront
      simp [Ty.var, Ne.symm hyx] at he
  · intro y v hv hfirst
    rcases hlookup y v hv with ⟨rfl, rfl⟩ | hv
    · exact args_eq_nil_of_bind hx hfirst h
    · exact h.bare y v hv hfirst

theorem matching_replace {s : Substitution} {e : Equation} {es rest : List Equation}
    (hmove : e.move = .replace es) (h : Matching t ⟨s, e :: rest⟩) :
    Matching t ⟨s, es ++ rest⟩ := by
  obtain ⟨he, hrest⟩ := List.forall_mem_cons.mp h.oneSided
  refine ⟨List.forall_mem_append.mpr ⟨Equation.oneSided_of_replace hmove he, hrest⟩, h.bound,
    fun x hx => ?_, h.bare⟩
  rcases Equation.argumentCounts_of_replace hmove he x with hcounts | ⟨r, es', rfl, hr⟩
  · rcases h.counts x hx with hold | ⟨r, rest', hfront, -⟩
    · left
      rw [← hold, List.flatMap_append, hcounts, List.flatMap_cons]
    · obtain ⟨rfl, -⟩ := List.cons.inj hfront
      exact absurd rfl (Equation.left_ne_var_of_replace hmove x)
  · exact .inr ⟨r, es' ++ rest, rfl, hr⟩

theorem Matching.next {p q : Problem} (hnext : Next p q) (hp : p.Resolved) (h : p.Matching t) :
    q.Matching t := by
  rcases hnext with hmove | hmove | hmove
  · exact matching_drop hmove h
  · apply matching_bind _ h
    apply lookup_eq_none_of_front hp
    simp [Equation.occurrences]
  · exact matching_replace hmove h

theorem Reaches.matching {p q : Problem} (h : p.Reaches q) (hp : p.Resolved) (hm : p.Matching t) :
    q.Matching t := by
  induction h with
  | refl => exact hm
  | tail hreach hnext ih => exact ih.next hnext (Reaches.resolved hreach hp)

/-! ## Matching runs -/

theorem args_image_of_solve_ok {g : Ty} {s : Substitution} {x : Index} (hg : g.isGround = true)
    (h : solve ⟨.empty, [⟨g, t⟩]⟩ = .ok s) (hfirst : t.AppliedFirst x) : (s.image x).args = [] := by
  have hmatching := (reaches_of_solve_ok h).matching (resolved_empty _) (matching_start hg)
  rcases hx : s.lookup x with _ | u
  · simp [Substitution.image, hx]
  · simpa [Substitution.image, hx] using hmatching.bare x u hx hfirst

theorem exists_solve_ok_of_image {g : Ty} {f : Index → Ty} (hg : g.isGround = true)
    (hf : ∀ x, t.AppliedFirst x → (f x).args = []) (hgt : (g == t.instantiate f) = true) :
    ∃ s, solve ⟨.empty, [⟨g, t⟩]⟩ = .ok s := by
  have hsolved : ∀ e ∈ [Equation.mk g t], e.SolvedBy f := by
    simpa [Equation.solvedBy_mk, Ty.instantiate_of_isGround hg] using hgt
  rcases hsolve : solve ⟨.empty, [⟨g, t⟩]⟩ with err | s
  · -- Only an applied variable in front could fail. This is its first place, so its image is bare.
    obtain ⟨s, e, rest, hreach, hmove, he⟩ := solved_of_solve_error hsolve hsolved
    obtain ⟨x, ts, r, rfl, -, hts, hlen⟩ := Equation.exists_applied_of_fail hmove he
    have hmatching := hreach.matching (resolved_empty _) (matching_start hg)
    have hr := Equation.right_isGround (hmatching.oneSided _ List.mem_cons_self)
    have hx : s.lookup x = none := by
      apply lookup_eq_none_of_front (hreach.resolved (resolved_empty _))
      simp [Equation.occurrences]
    rw [Equation.solvedBy_mk, Ty.instantiate_of_isGround hr, Ty.instantiate_var_app] at he
    have := Ty.length_args_eq_of_beq he
    simp [hf x (appliedFirst_of_front hx hts hmatching)] at this
    exact absurd this hlen
  · exact ⟨s, rfl⟩

end Problem

end Prenex
