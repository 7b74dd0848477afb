import Mathlib.Data.List.Nodup
import Mathlib.Data.List.Perm.Subperm
import Prenex.Proofs.Ty.ArgumentCounts
import Prenex.Supply

/-!
# Numbering variables

Renaming can give the variables of a type consecutive numbers, in the order in which they first
occur. The normal form does so from 0 on, and a supply from its next index on. The numbers lead back
to the variables, so what a type can become does not depend on them.
-/

namespace Prenex

/-! ## Lists without repetition -/

section

variable {α β : Type} [BEq α] [LawfulBEq α] [BEq β] [LawfulBEq β]

theorem nodup_eraseDups (l : List α) : l.eraseDups.Nodup := by
  match l with
  | [] => simp
  | a :: l =>
    have := List.length_filter_le (fun b => !b == a) l
    rw [List.eraseDups_cons, List.nodup_cons]
    exact ⟨by simp, nodup_eraseDups _⟩
termination_by l.length
decreasing_by
  rw [List.length_cons]
  omega

theorem eraseDups_map {m : α → β} (l : List α) (hm : ∀ a ∈ l, ∀ b ∈ l, m a = m b → a = b) :
    (l.map m).eraseDups = l.eraseDups.map m := by
  match l with
  | [] => simp
  | a :: l =>
    have := List.length_filter_le (fun b => !b == a) l
    have hfilter : (l.map m).filter (fun b => !b == m a) = (l.filter fun b => !b == a).map m := by
      rw [List.filter_map]
      congr 1
      apply List.filter_congr
      intro b hb
      have := hm b (List.mem_cons_of_mem _ hb) a List.mem_cons_self
      by_cases hba : b = a
      · simp [hba]
      · have hne : m b ≠ m a := fun h => hba (this h)
        simp [hba, hne]
    rw [List.map_cons, List.eraseDups_cons, List.eraseDups_cons, List.map_cons, hfilter,
      eraseDups_map]
    intro b hb c hc
    exact hm b (List.mem_cons_of_mem _ (List.mem_of_mem_filter hb)) c
      (List.mem_cons_of_mem _ (List.mem_of_mem_filter hc))
termination_by l.length
decreasing_by
  rw [List.length_cons]
  omega

theorem idxOf_map {m : α → β} {l : List α} (hm : ∀ a ∈ l, ∀ b ∈ l, m a = m b → a = b)
    (hl : l.Nodup) {a : α} (ha : a ∈ l) : (l.map m).idxOf (m a) = l.idxOf a := by
  obtain ⟨n, hn, rfl⟩ := List.getElem_of_mem ha
  have hmap : (l.map m).Nodup := hl.map_on hm
  have hplace := hmap.idxOf_getElem n (by simpa using hn)
  rw [List.getElem_map] at hplace
  rw [hplace, hl.idxOf_getElem]

end

namespace Ty

theorem nodup_vars (t : Ty) : t.vars.Nodup := nodup_eraseDups t.occurrences

theorem mem_vars {t : Ty} {i : Index} : i ∈ t.vars ↔ i ∈ t.occurrences := List.mem_eraseDups

theorem length_vars_le (t : Ty) : t.vars.length ≤ indexCount := by
  have hsub : t.vars.map UInt32.toNat ⊆ List.range indexCount := by
    intro n hn
    obtain ⟨i, -, rfl⟩ := List.mem_map.mp hn
    exact List.mem_range.mpr i.toNat_lt
  have hnodup : (t.vars.map UInt32.toNat).Nodup :=
    t.nodup_vars.map fun _ _ => UInt32.toNat_inj.mp
  simpa using (hnodup.subperm hsub).length_le

/-! ## Renaming -/

theorem instantiate_rename (f : Index → Ty) (m : Index → Index) (t : Ty) :
    (t.rename m).instantiate f = t.instantiate fun i => f (m i) := by
  rw [rename, instantiate_instantiate]
  simp only [instantiate_bare_var]

theorem rename_congr {m k : Index → Index} {t : Ty} (h : ∀ i ∈ t.vars, m i = k i) :
    t.rename m = t.rename k := by
  apply instantiate_congr
  intro i hi
  rw [h i (mem_vars.mpr hi)]

theorem FirstOrder.rename {t : Ty} (ht : t.FirstOrder) (m : Index → Index) :
    (t.rename m).FirstOrder :=
  ht.instantiate fun i => firstOrder_var (m i)

theorem occurrences_rename (m : Index → Index) (t : Ty) :
    (t.rename m).occurrences = t.occurrences.map m := by
  induction t with
  | app h ts ih =>
    have hargs : ((ts.map (instantiate fun i => .var (m i))).map occurrences).flatten =
        (ts.map occurrences).flatten.map m := by
      rw [List.map_map, List.map_flatten, List.map_map]
      congr 1
      exact List.map_congr_left ih
    rw [rename, instantiate_app, occurrences_applyTo, occurrences_app, List.map_append, hargs]
    cases h <;> simp

theorem vars_rename {m : Index → Index} {t : Ty}
    (hm : ∀ i ∈ t.vars, ∀ j ∈ t.vars, m i = m j → i = j) :
    (t.rename m).vars = t.vars.map m := by
  unfold vars
  rw [occurrences_rename, eraseDups_map]
  simpa only [mem_vars] using hm

/-! ## Consecutive numbers -/

/-- The place of a variable among those of the type, counted from `n`. -/
def numberFrom (t : Ty) (n : Nat) (i : Index) : Index := UInt32.ofNat (n + t.vars.idxOf i)

def renumber (t : Ty) (n : Nat) : Ty := t.rename (t.numberFrom n)

/-- The variable that got a number. -/
def variableAt (t : Ty) (n : Nat) (j : Index) : Index := t.vars.getD (j.toNat - n) j

theorem normalize_eq_renumber (t : Ty) : t.normalize = t.renumber 0 := by
  unfold normalize renumber numberFrom
  simp only [Nat.zero_add]

variable {t : Ty} {n : Nat}

theorem toNat_numberFrom (hn : n + t.vars.length ≤ indexCount) {i : Index} (hi : i ∈ t.vars) :
    (t.numberFrom n i).toNat = n + t.vars.idxOf i := by
  have := List.idxOf_lt_length_of_mem hi
  exact UInt32.toNat_ofNat_of_lt' (Nat.lt_of_lt_of_le (by omega) hn)

theorem numberFrom_bounds (hn : n + t.vars.length ≤ indexCount) {i : Index} (hi : i ∈ t.vars) :
    n ≤ (t.numberFrom n i).toNat ∧ (t.numberFrom n i).toNat < n + t.vars.length := by
  have := List.idxOf_lt_length_of_mem hi
  rw [toNat_numberFrom hn hi]
  omega

theorem lt_of_mem_rename_numberFrom {u : Ty} (hn : n + t.vars.length ≤ indexCount)
    (hu : ∀ i ∈ u.vars, i ∈ t.vars) {j : Index} (hj : j ∈ (u.rename (t.numberFrom n)).occurrences) :
    j.toNat < n + t.vars.length := by
  rw [occurrences_rename] at hj
  obtain ⟨i, hi, rfl⟩ := List.mem_map.mp hj
  exact (numberFrom_bounds hn (hu i (mem_vars.mpr hi))).2

theorem variableAt_numberFrom (hn : n + t.vars.length ≤ indexCount) {i : Index} (hi : i ∈ t.vars) :
    t.variableAt n (t.numberFrom n i) = i := by
  unfold variableAt
  rw [toNat_numberFrom hn hi, Nat.add_sub_cancel_left]
  simp [List.getD_eq_getElem?_getD, hi]

theorem instantiate_renumber (hn : n + t.vars.length ≤ indexCount) {f g : Index → Ty}
    (hg : ∀ j, n ≤ j.toNat → j.toNat < n + t.vars.length → g j = f (t.variableAt n j)) :
    (t.renumber n).instantiate g = t.instantiate f := by
  rw [renumber, instantiate_rename]
  apply instantiate_congr
  intro i hi
  have hmem := mem_vars.mpr hi
  have hnumber := toNat_numberFrom hn hmem
  have := List.idxOf_lt_length_of_mem hmem
  rw [hg _ (by omega) (by omega), variableAt_numberFrom hn hmem]

theorem numberFrom_injOn (hn : n + t.vars.length ≤ indexCount) :
    ∀ i ∈ t.vars, ∀ j ∈ t.vars, t.numberFrom n i = t.numberFrom n j → i = j := by
  intro i hi j hj hij
  rw [← variableAt_numberFrom hn hi, hij, variableAt_numberFrom hn hj]

theorem vars_renumber (hn : n + t.vars.length ≤ indexCount) :
    (t.renumber n).vars = (List.range' n t.vars.length).map UInt32.ofNat := by
  rw [renumber, vars_rename (numberFrom_injOn hn)]
  apply List.ext_getElem
  · simp
  · intro k hk _
    simp [numberFrom, t.nodup_vars.idxOf_getElem]

theorem vars_normalize (t : Ty) :
    t.normalize.vars = (List.range t.vars.length).map UInt32.ofNat := by
  rw [normalize_eq_renumber, vars_renumber (by simpa using t.length_vars_le), List.range_eq_range']

end Ty

end Prenex
