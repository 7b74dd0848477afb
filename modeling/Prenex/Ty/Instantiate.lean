import Prenex.Ty.Basic
/-!
# Replacing variables

All variables are replaced at the same time. A variable applied to arguments hands them on: with
`Option` for `x`, the type `x Int` becomes `Option Int`. Substituting for one variable, renaming and
skolemizing are special cases.
-/

namespace Prenex.Ty

/-- Puts `f i` in place of each variable `i`. -/
def instantiate (f : Index → Ty) : Ty → Ty :=
  fold fun h ts =>
    match h with
    | .var i => (f i).applyTo ts
    | h => .app h ts

@[simp] theorem instantiate_var_app (f : Index → Ty) (i : Index) (ts : List Ty) :
    instantiate f (.app (.var i) ts) = (f i).applyTo (ts.map (instantiate f)) := by
  simp [instantiate]

@[simp] theorem instantiate_skolem_app (f : Index → Ty) (i : Index) (ts : List Ty) :
    instantiate f (.app (.skolem i) ts) = .app (.skolem i) (ts.map (instantiate f)) := by
  simp [instantiate]

@[simp] theorem instantiate_con_app (f : Index → Ty) (c : Constructor) (ts : List Ty) :
    instantiate f (.app (.con c) ts) = .app (.con c) (ts.map (instantiate f)) := by
  simp [instantiate]

@[simp] theorem instantiate_var (t : Ty) : t.instantiate .var = t := by
  induction t with
  | app h ts ih =>
    have hargs : ts.map (instantiate .var) = ts := by
      rw [List.map_congr_left ih, List.map_id']
    cases h with
    | con c => rw [instantiate_con_app, hargs]
    | skolem j => rw [instantiate_skolem_app, hargs]
    | var j => rw [instantiate_var_app, hargs]; rfl

theorem instantiate_congr {f g : Index → Ty} {t : Ty} (h : ∀ i ∈ t.occurrences, f i = g i) :
    t.instantiate f = t.instantiate g := by
  induction t with
  | app hd ts ih =>
    have hargs : ts.map (instantiate f) = ts.map (instantiate g) := by
      apply List.map_congr_left
      intro t ht
      apply ih t ht
      intro i hi
      apply h
      rw [occurrences_app]
      exact List.mem_append_right _ (List.mem_flatten.mpr ⟨_, List.mem_map_of_mem ht, hi⟩)
    cases hd with
    | con c => rw [instantiate_con_app, instantiate_con_app, hargs]
    | skolem j => rw [instantiate_skolem_app, instantiate_skolem_app, hargs]
    | var j =>
      rw [instantiate_var_app, instantiate_var_app, hargs, h j]
      simp [Head.var?]

/-! ## Where variables occur afterwards -/

@[simp] theorem occurrences_applyTo (t : Ty) (us : List Ty) :
    (t.applyTo us).occurrences = t.occurrences ++ (us.map occurrences).flatten := by
  cases t
  simp [applyTo]

theorem mem_occurrences_instantiate (f : Index → Ty) (i : Index) (t : Ty) :
    i ∈ (t.instantiate f).occurrences ↔ ∃ v ∈ t.occurrences, i ∈ (f v).occurrences := by
  induction t with
  | app h ts ih =>
    have hargs : i ∈ ((ts.map (instantiate f)).map occurrences).flatten ↔
        ∃ v ∈ (ts.map occurrences).flatten, i ∈ (f v).occurrences := by
      simp only [List.mem_flatten, List.mem_map]
      constructor
      · rintro ⟨_, ⟨_, ⟨t, ht, rfl⟩, rfl⟩, hi⟩
        obtain ⟨v, hv, hi⟩ := (ih t ht).mp hi
        exact ⟨v, ⟨_, ⟨t, ht, rfl⟩, hv⟩, hi⟩
      · rintro ⟨v, ⟨_, ⟨t, ht, rfl⟩, hv⟩, hi⟩
        exact ⟨_, ⟨_, ⟨t, ht, rfl⟩, rfl⟩, (ih t ht).mpr ⟨v, hv, hi⟩⟩
    cases h with
    | con c => simpa [Head.var?] using hargs
    | skolem j => simpa [Head.var?] using hargs
    | var j =>
      rw [instantiate_var_app, occurrences_applyTo, List.mem_append, hargs]
      simp [Head.var?]

/-! ## Special cases -/

/-- Puts `u` in place of the variable `x`. A type without `x` stays as it is, so it is not built
again. -/
def substitute (t : Ty) (x : Index) (u : Ty) : Ty :=
  if t.occurs x then t.instantiate fun y => if y = x then u else .var y else t

theorem substitute_eq_instantiate (t : Ty) (x : Index) (u : Ty) :
    t.substitute x u = t.instantiate fun y => if y = x then u else .var y := by
  unfold substitute
  split
  · rfl
  · rename_i hx
    rw [occurs_iff_mem_occurrences] at hx
    have hsame : ∀ i ∈ t.occurrences, (if i = x then u else .var i) = Ty.var i := by
      intro i hi
      rw [if_neg]
      rintro rfl
      exact hx hi
    rw [instantiate_congr hsame, instantiate_var]

theorem mem_occurrences_substitute {x i : Index} {u t : Ty}
    (h : i ∈ (t.substitute x u).occurrences) :
    i ∈ u.occurrences ∨ i ∈ t.occurrences ∧ i ≠ x := by
  rw [substitute_eq_instantiate] at h
  obtain ⟨v, hv, hi⟩ := (mem_occurrences_instantiate _ i t).mp h
  split at hi
  · exact .inl hi
  · obtain rfl : i = v := by simpa [var, Head.var?] using hi
    exact .inr ⟨hv, by assumption⟩

def rename (t : Ty) (m : Index → Index) : Ty :=
  t.instantiate fun i => .var (m i)

/-- The renaming that a table gives. What is not in the table keeps its number. -/
def byTable (table : List (Index × Index)) (i : Index) : Index := (table.lookup i).getD i

/-- Makes every variable rigid. The skolem has the number of the variable. -/
def skolemize (t : Ty) : Ty :=
  t.instantiate fun i => .app (.skolem i) []

/-- Numbers the variables from 0 in the order in which they first occur. -/
def normalize (t : Ty) : Ty :=
  let vars := t.vars
  t.rename fun i => UInt32.ofNat (vars.idxOf i)

end Prenex.Ty
