/-!
# Counting without repetition

`distinctCount l` is the number of different members of `l`. It grows with the set of members, and
strictly if the larger list has a member that the smaller one lacks.
-/

namespace Prenex

variable {α : Type} [BEq α]

def distinctCount (l : List α) : Nat := l.eraseDups.length

theorem distinctCount_cons (a : α) (l : List α) :
    distinctCount (a :: l) = distinctCount (l.filter fun b => !b == a) + 1 := by
  simp [distinctCount, List.eraseDups_cons]

variable [LawfulBEq α]

theorem filter_not_beq_of_not_mem {a : α} {l : List α} (h : a ∉ l) :
    (l.filter fun b => !b == a) = l := by
  apply List.filter_eq_self.mpr
  intro b hb
  simp only [Bool.not_eq_true', beq_eq_false_iff_ne, ne_eq]
  rintro rfl
  exact h hb

theorem distinctCount_of_mem (a : α) (l : List α) (h : a ∈ l) :
    distinctCount l = distinctCount (l.filter fun b => !b == a) + 1 := by
  match l with
  | b :: rest =>
    by_cases hba : b = a
    · subst hba
      rw [distinctCount_cons, List.filter_cons_of_neg (by simp)]
    · have ha : a ∈ rest.filter fun c => !c == b := by
        rcases List.mem_cons.mp h with rfl | h
        · exact absurd rfl hba
        · exact List.mem_filter.mpr ⟨h, by simp [Ne.symm hba]⟩
      have hlen := List.length_filter_le (fun c => !c == b) rest
      rw [distinctCount_cons, distinctCount_of_mem a _ ha,
        List.filter_cons_of_pos (by simp [hba]), distinctCount_cons, List.filter_filter,
        List.filter_filter]
      simp only [Bool.and_comm]
termination_by l.length
decreasing_by
  rw [List.length_cons]
  omega

theorem distinctCount_le_of_subset (l m : List α) (h : l ⊆ m) :
    distinctCount l ≤ distinctCount m := by
  match l with
  | [] => exact Nat.zero_le _
  | a :: rest =>
    have hlen := List.length_filter_le (fun c => !c == a) rest
    rw [distinctCount_cons, distinctCount_of_mem a m (h List.mem_cons_self)]
    apply Nat.succ_le_succ
    apply distinctCount_le_of_subset
    intro b hb
    obtain ⟨hb, hne⟩ := List.mem_filter.mp hb
    exact List.mem_filter.mpr ⟨h (List.mem_cons_of_mem _ hb), hne⟩
termination_by l.length
decreasing_by
  rw [List.length_cons]
  omega

theorem distinctCount_lt_of_subset {a : α} {l m : List α} (h : l ⊆ m) (hm : a ∈ m) (hl : a ∉ l) :
    distinctCount l < distinctCount m := by
  have : distinctCount (a :: l) = distinctCount l + 1 := by
    rw [distinctCount_cons, filter_not_beq_of_not_mem hl]
  have : distinctCount (a :: l) ≤ distinctCount m :=
    distinctCount_le_of_subset _ _ (List.cons_subset.mpr ⟨hm, h⟩)
  omega

theorem distinctCount_append_of_mem {a : α} {l : List α} (h : a ∈ l) :
    distinctCount (l ++ [a]) = distinctCount l := by
  apply Nat.le_antisymm
  · apply distinctCount_le_of_subset
    simp [h]
  · apply distinctCount_le_of_subset
    simp

theorem distinctCount_append_of_not_mem {a : α} {l : List α} (h : a ∉ l) :
    distinctCount (l ++ [a]) = distinctCount l + 1 := by
  rw [distinctCount_of_mem a (l ++ [a]) (by simp), List.filter_append, filter_not_beq_of_not_mem h]
  simp

end Prenex
