import Prenex.Ty.Instantiate
import Prenex.Ty.Preorder

/-!
# The algebra of instantiation

Two instantiations in a row are one. The image of a type is no smaller than the image of any
variable in it, and a ground type is its own image.
-/

namespace Prenex

@[simp] theorem Head.var?_var (i : Index) : (Head.var i).var? = some i := rfl

@[simp] theorem Head.var?_con (c : Constructor) : (Head.con c).var? = none := rfl

@[simp] theorem Head.var?_skolem (i : Index) : (Head.skolem i).var? = none := rfl

theorem Head.var?_eq_some_iff {h : Head} {i : Index} : h.var? = some i ↔ h = .var i := by
  cases h <;> simp

namespace Ty

/-! ## Heads and arguments -/

@[simp] theorem head_app (h : Head) (ts : List Ty) : (Ty.app h ts).head = h := rfl

@[simp] theorem args_app (h : Head) (ts : List Ty) : (Ty.app h ts).args = ts := rfl

@[simp] theorem applyTo_app (h : Head) (ts us : List Ty) :
    (Ty.app h ts).applyTo us = .app h (ts ++ us) := rfl

@[simp] theorem applyTo_nil (t : Ty) : t.applyTo [] = t := by
  cases t
  simp

@[simp] theorem applyTo_applyTo (t : Ty) (us vs : List Ty) :
    (t.applyTo us).applyTo vs = t.applyTo (us ++ vs) := by
  cases t
  simp

@[simp] theorem args_applyTo (t : Ty) (us : List Ty) : (t.applyTo us).args = t.args ++ us := by
  cases t
  rfl

@[simp] theorem head_var (i : Index) : (Ty.var i).head = .var i := rfl

@[simp] theorem args_var (i : Index) : (Ty.var i).args = [] := rfl

@[simp] theorem occurrences_var (i : Index) : (Ty.var i).occurrences = [i] := by
  simp [var]

theorem mem_occurrences_app {x : Index} {h : Head} {ts : List Ty} :
    x ∈ (Ty.app h ts).occurrences ↔ h = .var x ∨ ∃ t ∈ ts, x ∈ t.occurrences := by
  rw [occurrences_app, ← List.flatMap_def, List.mem_append, Option.mem_toList,
    Head.var?_eq_some_iff, List.mem_flatMap]

@[simp] theorem size_applyTo (t : Ty) (us : List Ty) :
    (t.applyTo us).size = t.size + totalSize us := by
  cases t
  simp
  omega

theorem size_le_totalSize {t : Ty} {ts : List Ty} (h : t ∈ ts) : t.size ≤ totalSize ts := by
  induction ts with
  | nil => simp at h
  | cons u us ih =>
    simp only [totalSize]
    rcases List.mem_cons.mp h with rfl | h
    · omega
    · have := ih h
      omega

theorem totalSize_pos {ts : List Ty} (h : ts ≠ []) : 0 < totalSize ts := by
  obtain ⟨t, ht⟩ := List.exists_mem_of_ne_nil ts h
  have := size_le_totalSize ht
  have := t.size_pos
  omega

/-! ## Instantiation -/

@[simp] theorem instantiate_bare_var (f : Index → Ty) (i : Index) :
    (Ty.var i).instantiate f = f i := by
  simp [var]

theorem instantiate_app (f : Index → Ty) (h : Head) (ts : List Ty) :
    (Ty.app h ts).instantiate f =
      ((Ty.app h []).instantiate f).applyTo (ts.map (instantiate f)) := by
  cases h <;> simp

theorem instantiate_eq_bare_applyTo (f : Index → Ty) (t : Ty) :
    t.instantiate f = (t.bare.instantiate f).applyTo (t.args.map (instantiate f)) := by
  cases t
  exact instantiate_app f _ _

theorem instantiate_of_var?_eq_none {h : Head} (hh : h.var? = none) (f : Index → Ty)
    (ts : List Ty) :
    (Ty.app h ts).instantiate f = .app h (ts.map (instantiate f)) := by
  cases h with
  | con c => simp
  | skolem i => simp
  | var i => simp at hh

theorem instantiate_applyTo (f : Index → Ty) (t : Ty) (us : List Ty) :
    (t.applyTo us).instantiate f = (t.instantiate f).applyTo (us.map (instantiate f)) := by
  obtain ⟨h, ts⟩ := t
  rw [applyTo_app, instantiate_app, instantiate_app f h ts]
  simp

theorem instantiate_instantiate (f g : Index → Ty) (t : Ty) :
    (t.instantiate g).instantiate f = t.instantiate fun i => (g i).instantiate f := by
  induction t with
  | app h ts ih =>
    have hargs : (ts.map (instantiate g)).map (instantiate f) =
        ts.map (instantiate fun i => (g i).instantiate f) := by
      rw [List.map_map]
      exact List.map_congr_left ih
    cases h with
    | con c => simp only [instantiate_con_app, hargs]
    | skolem j => simp only [instantiate_skolem_app, hargs]
    | var j => simp only [instantiate_var_app, instantiate_applyTo, hargs]

theorem instantiate_substitute (f : Index → Ty) (x : Index) (t u : Ty) :
    (u.substitute x t).instantiate f =
      u.instantiate fun y => if y = x then t.instantiate f else f y := by
  rw [substitute_eq_instantiate, instantiate_instantiate]
  congr 1
  funext y
  split <;> simp

/-! ## Size -/

theorem size_image_le {f : Index → Ty} {x : Index} {t : Ty} (h : x ∈ t.occurrences) :
    (f x).size ≤ (t.instantiate f).size := by
  induction t with
  | app hd ts ih =>
    rw [instantiate_app, size_applyTo]
    rcases mem_occurrences_app.mp h with rfl | ⟨a, ha, h⟩
    · simp
    · have := ih a ha h
      have := size_le_totalSize (List.mem_map_of_mem (f := instantiate f) ha)
      omega

/-- What the occurs check rests on. The variable may be a head with arguments too: they make the
image larger. -/
theorem size_image_lt {f : Index → Ty} {x : Index} {t : Ty} (h : x ∈ t.occurrences)
    (hne : t ≠ .var x) :
    (f x).size < (t.instantiate f).size := by
  obtain ⟨hd, ts⟩ := t
  rw [instantiate_app, size_applyTo]
  rcases mem_occurrences_app.mp h with rfl | ⟨a, ha, h⟩
  · have hts : ts.map (instantiate f) ≠ [] := by
      rw [ne_eq, List.map_eq_nil_iff]
      rintro rfl
      exact hne rfl
    have := totalSize_pos hts
    simp
    omega
  · have := size_image_le (f := f) h
    have := size_le_totalSize (List.mem_map_of_mem (f := instantiate f) ha)
    have := size_pos ((Ty.app hd []).instantiate f)
    omega

/-! ## Ground types -/

theorem isGround_iff (t : Ty) : t.isGround = true ↔ t.occurrences = [] := by
  induction t with
  | app h ts ih =>
    have hargs : (∀ t ∈ ts, t.isGround = true) ↔ ∀ t ∈ ts, t.occurrences = [] :=
      forall₂_congr ih
    cases h <;> simp [hargs]

theorem instantiate_of_isGround {t : Ty} (h : t.isGround = true) (f : Index → Ty) :
    t.instantiate f = t := by
  rw [isGround_iff] at h
  have hsame : t.instantiate f = t.instantiate .var := by
    apply instantiate_congr
    simp [h]
  rw [hsame, instantiate_var]

theorem substitute_of_isGround {t : Ty} (h : t.isGround = true) (x : Index) (u : Ty) :
    t.substitute x u = t := by
  rw [substitute_eq_instantiate, instantiate_of_isGround h]

end Ty

end Prenex
