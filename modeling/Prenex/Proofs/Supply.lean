import Prenex.Proofs.Ty.Renumber

/-!
# What a supply hands out

The indices from the next one on, without a gap. Freshening numbers the variables of a type with
them.
-/

namespace Prenex

namespace Supply

theorem eq_of_next_eq {s s' : Supply} (h : s.next = s'.next) : s = s' := by
  cases s
  cases s'
  cases h
  rfl

/-- How many indices there still are. -/
def left (s : Supply) : Nat := indexCount - s.next

theorem fresh?_eq {s : Supply} (h : s.next < indexCount) :
    s.fresh? = some (UInt32.ofNat s.next, ⟨s.next + 1, h⟩) := dif_pos h

theorem fresh?_eq_none {s : Supply} (h : s.next = indexCount) : s.fresh? = none :=
  dif_neg (by omega)

theorem peek?_eq_none_iff (s : Supply) : s.peek? = none ↔ s.next = indexCount := by
  have := s.next_le
  unfold peek?
  simp
  omega

theorem take_spec (s : Supply) (n : Nat) :
    (s.take n).1 = (List.range' s.next (min n s.left)).map UInt32.ofNat ∧
      (s.take n).2.next = s.next + min n s.left := by
  induction n generalizing s with
  | zero => simp [take]
  | succ n ih =>
    rcases Nat.lt_or_eq_of_le s.next_le with hs | hs
    · obtain ⟨hindices, hnext⟩ := ih ⟨s.next + 1, hs⟩
      have hmin : min (n + 1) s.left = min n (left ⟨s.next + 1, hs⟩) + 1 := by
        unfold left
        dsimp only
        omega
      rw [take, fresh?_eq hs, hmin, List.range'_succ, List.map_cons]
      dsimp only
      rw [hindices, hnext]
      exact ⟨rfl, by dsimp only; omega⟩
    · have hleft : s.left = 0 := by
        unfold left
        omega
      simp [take, fresh?_eq_none hs, hleft]

theorem take_eq {s : Supply} {n : Nat} (h : s.next + n ≤ indexCount) :
    s.take n = ((List.range' s.next n).map UInt32.ofNat, ⟨s.next + n, h⟩) := by
  have hmin : min n s.left = n := by
    unfold left
    omega
  obtain ⟨hindices, hnext⟩ := s.take_spec n
  rw [hmin] at hindices hnext
  exact Prod.ext hindices (eq_of_next_eq hnext)

end Supply

theorem map_toNat_ofNat_range' {a k : Nat} (h : a + k ≤ indexCount) :
    ((List.range' a k).map UInt32.ofNat).map UInt32.toNat = List.range' a k := by
  have hsame : ∀ n ∈ List.range' a k, (UInt32.toNat ∘ UInt32.ofNat) n = id n := by
    intro n hn
    have := List.mem_range'_1.mp hn
    exact UInt32.toNat_ofNat_of_lt' (Nat.lt_of_lt_of_le (by omega) h)
  rw [List.map_map, List.map_congr_left hsame, List.map_id]

theorem Ty.byTable_zip {xs ys : List Index} {i : Index} (hi : i ∈ xs)
    (hlen : ys.length = xs.length) :
    byTable (xs.zip ys) i = ys.getD (xs.idxOf i) i := by
  unfold byTable
  induction xs generalizing ys with
  | nil => simp at hi
  | cons x xs ih =>
    rcases ys with _ | ⟨y, ys⟩
    · simp at hlen
    · rw [List.zip_cons_cons, List.lookup_cons]
      by_cases hx : i = x
      · simp [hx]
      · have hmem := (List.mem_cons.mp hi).resolve_left hx
        have hbeq : (i == x) = false := by simp [hx]
        rw [hbeq]
        dsimp only
        rw [ih hmem (by simpa using hlen), List.idxOf_cons_ne xs (Ne.symm hx), List.getD_cons_succ]

theorem Supply.freshen_eq {s : Supply} {t : Ty} (h : s.next + t.vars.length ≤ indexCount) :
    s.freshen t = (some (t.renumber s.next), ⟨s.next + t.vars.length, h⟩) := by
  have hrename :
      t.rename (Ty.byTable (t.vars.zip ((List.range' s.next t.vars.length).map UInt32.ofNat))) =
        t.renumber s.next := by
    apply Ty.rename_congr
    intro i hi
    have := List.idxOf_lt_length_of_mem hi
    rw [Ty.byTable_zip hi (by simp), Ty.numberFrom]
    simp [List.getD_eq_getElem?_getD, this]
  simp [freshen, take_eq h, hrename]

theorem Supply.freshen_of_lt {s : Supply} {t : Ty} (h : indexCount < s.next + t.vars.length) :
    s.freshen t = (none, ⟨indexCount, Nat.le_refl _⟩) := by
  have hs := s.next_le
  have hleft : s.next + s.left = indexCount := by
    unfold left
    omega
  obtain ⟨hindices, hnext⟩ := s.take_spec t.vars.length
  rw [Nat.min_eq_right (by omega)] at hindices hnext
  have hlen : (s.take t.vars.length).1.length ≠ t.vars.length := by
    rw [hindices, List.length_map, List.length_range']
    omega
  have hdry : (s.take t.vars.length).2 = ⟨indexCount, Nat.le_refl _⟩ :=
    eq_of_next_eq (hnext.trans hleft)
  simp [freshen, hlen, hdry]

end Prenex
