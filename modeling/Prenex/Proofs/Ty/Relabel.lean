import Prenex.Proofs.Ty.Instantiate

/-!
# Relabelling

Changes the heads of a type and keeps its shape. It goes past an instantiation if it does so at
every head.
-/

namespace Prenex.Ty

def relabel (φ : Head → Head) : Ty → Ty := fold fun h ts => .app (φ h) ts

@[simp] theorem relabel_app (φ : Head → Head) (h : Head) (ts : List Ty) :
    (Ty.app h ts).relabel φ = .app (φ h) (ts.map (relabel φ)) := by
  rw [relabel, fold_app]

@[simp] theorem relabel_applyTo (φ : Head → Head) (t : Ty) (us : List Ty) :
    (t.applyTo us).relabel φ = (t.relabel φ).applyTo (us.map (relabel φ)) := by
  cases t
  simp

@[simp] theorem args_relabel (φ : Head → Head) (t : Ty) :
    (t.relabel φ).args = t.args.map (relabel φ) := by
  cases t
  simp

@[simp] theorem size_relabel (φ : Head → Head) (t : Ty) : (t.relabel φ).size = t.size := by
  induction t with
  | app h ts ih =>
    have hargs : totalSize (ts.map (relabel φ)) = totalSize ts := by
      induction ts with
      | nil => rfl
      | cons t ts ihs =>
        have ht := ih t (by simp)
        have hts := ihs fun u hu => ih u (by simp [hu])
        simp [totalSize, ht, hts]
    simp [hargs]

/-! ## The heads of a type -/

def heads (t : Ty) : List Head := t.preorder.map Prod.fst

@[simp] theorem heads_app (h : Head) (ts : List Ty) :
    (Ty.app h ts).heads = h :: ts.flatMap heads := by
  simp only [heads, preorder_app, List.map_cons, List.map_flatMap]
  rfl

theorem heads_subset_of_mem {t : Ty} {h : Head} {ts : List Ty} (ht : t ∈ ts) :
    t.heads ⊆ (Ty.app h ts).heads := by
  intro k hk
  rw [heads_app]
  exact List.mem_cons_of_mem _ (List.mem_flatMap.mpr ⟨t, ht, hk⟩)

theorem heads_applyTo (t : Ty) (us : List Ty) :
    (t.applyTo us).heads = t.heads ++ us.flatMap heads := by
  cases t
  simp

theorem mem_occurrences_iff_mem_heads {x : Index} {t : Ty} :
    x ∈ t.occurrences ↔ Head.var x ∈ t.heads := by
  induction t with
  | app h ts ih =>
    rw [mem_occurrences_app, heads_app, List.mem_cons, List.mem_flatMap, eq_comm]
    refine or_congr Iff.rfl (exists_congr fun t => and_congr_right fun ht => ih t ht)

theorem mem_heads_instantiate {f : Index → Ty} {k : Head} {t : Ty}
    (h : k ∈ (t.instantiate f).heads) :
    k ∈ t.heads ∨ ∃ v ∈ t.occurrences, k ∈ (f v).heads := by
  induction t with
  | app hd ts ih =>
    rw [instantiate_app, heads_applyTo, List.mem_append] at h
    rcases h with h | h
    · rcases hhd : hd.var? with _ | v
      · rw [instantiate_of_var?_eq_none hhd] at h
        left
        simp at h
        simp [h]
      · obtain rfl := Head.var?_eq_some_iff.mp hhd
        right
        exact ⟨v, by simp, by simpa using h⟩
    · simp only [List.mem_flatMap, List.mem_map] at h
      obtain ⟨_, ⟨t, ht, rfl⟩, hk⟩ := h
      rcases ih t ht hk with hk | ⟨v, hv, hk⟩
      · exact .inl (heads_subset_of_mem ht hk)
      · exact .inr ⟨v, mem_occurrences_app.mpr (.inr ⟨t, ht, hv⟩), hk⟩

theorem mem_heads_substitute {x : Index} {k : Head} {t u : Ty} (h : k ∈ (t.substitute x u).heads) :
    k ∈ t.heads ∨ k ∈ u.heads := by
  rw [substitute_eq_instantiate] at h
  rcases mem_heads_instantiate h with h | ⟨v, hv, h⟩
  · exact .inl h
  · split at h
    · exact .inr h
    · left
      obtain rfl : k = .var v := by simpa [var] using h
      exact mem_occurrences_iff_mem_heads.mp hv

theorem relabel_eq_self {φ : Head → Head} {t : Ty} (h : ∀ k ∈ t.heads, φ k = k) :
    t.relabel φ = t := by
  induction t with
  | app hd ts ih =>
    have hargs : ∀ u ∈ ts, u.relabel φ = u := by
      intro u hu
      exact ih u hu fun k hk => h k (heads_subset_of_mem hu hk)
    rw [relabel_app, List.map_congr_left hargs, List.map_id', h hd (by simp)]

theorem instantiate_eq_relabel {φ : Head → Head} {f : Index → Ty} {t : Ty}
    (h : ∀ k ∈ t.heads, (Ty.app k []).instantiate f = .app (φ k) []) :
    t.instantiate f = t.relabel φ := by
  induction t with
  | app hd ts ih =>
    have hargs : ts.map (instantiate f) = ts.map (relabel φ) := by
      apply List.map_congr_left
      intro t ht
      exact ih t ht fun k hk => h k (heads_subset_of_mem ht hk)
    rw [instantiate_app, h hd (by simp), hargs, applyTo_app, List.nil_append, relabel_app]

theorem relabel_relabel (φ ψ : Head → Head) (t : Ty) :
    (t.relabel φ).relabel ψ = t.relabel fun h => ψ (φ h) := by
  induction t with
  | app h ts ih =>
    simp only [relabel_app, List.map_map]
    congr 1
    exact List.map_congr_left ih

theorem relabel_instantiate {φ : Head → Head} {f g : Index → Ty} {t : Ty}
    (h : ∀ k ∈ t.heads, ((Ty.app k []).instantiate f).relabel φ = (Ty.app (φ k) []).instantiate g) :
    (t.instantiate f).relabel φ = (t.relabel φ).instantiate g := by
  induction t with
  | app hd ts ih =>
    have hargs : (ts.map (instantiate f)).map (relabel φ) =
        (ts.map (relabel φ)).map (instantiate g) := by
      rw [List.map_map, List.map_map]
      apply List.map_congr_left
      intro t ht
      exact ih t ht fun k hk => h k (heads_subset_of_mem ht hk)
    rw [instantiate_app, relabel_applyTo, h hd (by simp), hargs, relabel_app,
      instantiate_app g (φ hd) (ts.map (relabel φ))]

theorem occurrences_relabel_map {φ : Head → Head} {m : Index → Index}
    (hφ : ∀ h, (φ h).var? = h.var?.map m) (t : Ty) :
    (t.relabel φ).occurrences = t.occurrences.map m := by
  induction t with
  | app h ts ih =>
    have hargs : (ts.map (relabel φ)).map occurrences = (ts.map occurrences).map (List.map m) := by
      rw [List.map_map, List.map_map]
      exact List.map_congr_left ih
    rw [relabel_app, occurrences_app, occurrences_app, hφ, hargs, List.map_append, List.map_flatten]
    cases h.var? <;> simp

theorem occurrences_relabel {φ : Head → Head} (hφ : ∀ h, (φ h).var? = h.var?) (t : Ty) :
    (t.relabel φ).occurrences = t.occurrences := by
  have hid : ∀ h, (φ h).var? = h.var?.map id := by
    simpa using hφ
  rw [occurrences_relabel_map hid, List.map_id]

end Prenex.Ty
