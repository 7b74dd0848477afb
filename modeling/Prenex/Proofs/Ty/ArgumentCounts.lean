import Mathlib.Tactic.ByContra
import Prenex.Proofs.Ty.Instantiate

/-!
# How many arguments a variable has

The unifier splits a variable from its arguments only if their number is right, so what it can do
depends on how often and where variables are applied.
-/

namespace Prenex.Ty

/-! ## Variables without arguments -/

/-- No variable carries arguments. -/
def FirstOrder (t : Ty) : Prop := ∀ node ∈ t.preorder, node.1.var?.isSome → node.2 = 0

theorem firstOrder_app (h : Head) (ts : List Ty) :
    (Ty.app h ts).FirstOrder ↔ (h.var?.isSome → ts = []) ∧ ∀ t ∈ ts, t.FirstOrder := by
  unfold FirstOrder
  simp only [preorder_app, List.forall_mem_cons, List.forall_mem_flatMap, List.length_eq_zero_iff]

theorem firstOrder_var (i : Index) : (Ty.var i).FirstOrder := by
  simp [var, firstOrder_app]

theorem FirstOrder.instantiate {f : Index → Ty} {t : Ty} (ht : t.FirstOrder)
    (hf : ∀ i, (f i).FirstOrder) :
    (t.instantiate f).FirstOrder := by
  induction t with
  | app h ts ih =>
    obtain ⟨hhead, hargs⟩ := (firstOrder_app h ts).mp ht
    rcases hh : h.var? with _ | i
    · rw [instantiate_of_var?_eq_none hh, firstOrder_app]
      refine ⟨by simp [hh], fun u hu => ?_⟩
      obtain ⟨t, ht, rfl⟩ := List.mem_map.mp hu
      exact ih t ht (hargs t ht)
    · -- The arguments would be appended to those of the image, but there are none.
      obtain rfl : ts = [] := hhead (by simp [hh])
      obtain rfl := Head.var?_eq_some_iff.mp hh
      simpa using hf i

theorem FirstOrder.substitute {t u : Ty} (ht : t.FirstOrder) (hu : u.FirstOrder) (x : Index) :
    (t.substitute x u).FirstOrder := by
  rw [substitute_eq_instantiate]
  apply ht.instantiate
  intro y
  split
  · exact hu
  · exact firstOrder_var y

/-! ## The places of one variable -/

/-- The number of arguments at each place of a variable, from left to right and a head before its
arguments. -/
def argumentCounts (t : Ty) (x : Index) : List Nat :=
  t.preorder.filterMap fun node => if node.1.var? = some x then some node.2 else none

/-- The variable has arguments at its first place. -/
def AppliedFirst (t : Ty) (x : Index) : Prop := ∃ n ∈ (t.argumentCounts x).head?, 0 < n

variable {x : Index}

@[simp] theorem argumentCounts_app (h : Head) (ts : List Ty) :
    (Ty.app h ts).argumentCounts x =
      (if h.var? = some x then [ts.length] else []) ++ ts.flatMap (argumentCounts · x) := by
  unfold argumentCounts
  rw [preorder_app, List.filterMap_cons, List.filterMap_flatMap]
  split <;> simp_all

theorem argumentCounts_applyTo (t : Ty) (us : List Ty) (ht : x ∉ t.occurrences) :
    (t.applyTo us).argumentCounts x = t.argumentCounts x ++ us.flatMap (argumentCounts · x) := by
  obtain ⟨h, ts⟩ := t
  have hh : h.var? ≠ some x := by
    intro hh
    simp [hh] at ht
  simp [hh]

theorem argumentCounts_of_not_mem {t : Ty} (ht : x ∉ t.occurrences) : t.argumentCounts x = [] := by
  induction t with
  | app h ts ih =>
    simp only [mem_occurrences_app, not_or, not_exists, not_and] at ht
    obtain ⟨hh, hargs⟩ := ht
    rw [argumentCounts_app, if_neg (mt Head.var?_eq_some_iff.mp hh), List.nil_append,
      List.flatMap_eq_nil_iff]
    intro t ht
    exact ih t ht (hargs t ht)

theorem AppliedFirst.mem_vars {t : Ty} (h : t.AppliedFirst x) : x ∈ t.vars := by
  obtain ⟨n, hn, -⟩ := h
  rw [vars, List.mem_eraseDups]
  by_contra ht
  simp [argumentCounts_of_not_mem ht] at hn

theorem FirstOrder.not_appliedFirst {t : Ty} (ht : t.FirstOrder) (x : Index) :
    ¬ t.AppliedFirst x := by
  rintro ⟨n, hn, hpos⟩
  obtain ⟨node, hnode, hsome⟩ := List.mem_filterMap.mp (List.mem_of_mem_head? hn)
  split at hsome
  · rename_i hvar
    have hzero := ht node hnode (by simp [hvar])
    cases hsome
    omega
  · cases hsome

theorem argumentCounts_of_isGround {t : Ty} (ht : t.isGround = true) : t.argumentCounts x = [] := by
  apply argumentCounts_of_not_mem
  simp [(isGround_iff t).mp ht]

theorem argumentCounts_substitute {y : Index} {u : Ty} (hu : u.isGround = true) (hxy : x ≠ y)
    (t : Ty) :
    (t.substitute y u).argumentCounts x = t.argumentCounts x := by
  rw [substitute_eq_instantiate]
  have hxu : x ∉ u.occurrences := by
    simp [(isGround_iff u).mp hu]
  induction t with
  | app h ts ih =>
    have hargs :
        (ts.map (instantiate fun z => if z = y then u else .var z)).flatMap (argumentCounts · x) =
          ts.flatMap (argumentCounts · x) := by
      rw [List.flatMap_map, List.flatMap_def, List.flatMap_def, List.map_congr_left ih]
    rcases hh : h.var? with _ | z
    · rw [instantiate_of_var?_eq_none hh, argumentCounts_app, argumentCounts_app, hargs,
        List.length_map]
    · obtain rfl := Head.var?_eq_some_iff.mp hh
      rw [instantiate_var_app]
      by_cases hz : z = y
      · subst hz
        rw [if_pos rfl, argumentCounts_applyTo _ _ hxu, argumentCounts_of_not_mem hxu, hargs]
        simp [Ne.symm hxy]
      · rw [if_neg hz, var, applyTo_app, List.nil_append, argumentCounts_app,
          argumentCounts_app, hargs, List.length_map]

end Prenex.Ty
