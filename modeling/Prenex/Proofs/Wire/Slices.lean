import Prenex.Proofs.Wire.Truncation

/-!
# Which bytes are looked at

The slices of the input that a script takes lie behind one another. None of them goes beyond the
end, not even those that were taken before a fault.
-/

namespace Prenex.Wire

/-- The `length` bytes of the input from `start` on. -/
structure Slice where
  start : Nat
  length : Nat

def Slice.stop (s : Slice) : Nat := s.start + s.length

/-- The first slice starts at `i`, each other one where the last one stops, and the last one stops
at `k`. -/
def Consecutive (i : Nat) (slices : List Slice) (k : Nat) : Prop :=
  match slices with
  | [] => i = k
  | s :: slices => s.start = i ∧ Consecutive s.stop slices k

theorem Consecutive.le {i k : Nat} {slices : List Slice} (h : Consecutive i slices k) : i ≤ k := by
  induction slices generalizing i with
  | nil => exact Nat.le_of_eq h
  | cons s slices ih =>
    obtain ⟨rfl, hrest⟩ := h
    exact Nat.le_trans (Nat.le_add_right _ _) (ih hrest)

theorem Consecutive.stop_le {i k : Nat} {slices : List Slice} (h : Consecutive i slices k)
    {s : Slice} (hs : s ∈ slices) : s.stop ≤ k := by
  induction slices generalizing i with
  | nil => simp at hs
  | cons r slices ih =>
    rcases List.mem_cons.mp hs with rfl | hs
    · exact h.2.le
    · exact ih h.2 hs

namespace Script

variable {α : Type}

/-- The slices that are taken, from the first one up to the end or the fault. -/
def slices : Script α → Cursor → List Slice
  | .done _, _ => []
  | .fault _, _ => []
  | .position next, c => (next c.pos).slices c
  | .take n next, c =>
    match Reader.take n c with
    | .error _ => []
    | .ok (bs, rest) => ⟨c.pos, n⟩ :: (next bs).slices rest

theorem take_cases (n : Nat) (c : Cursor) :
    (∃ e, Reader.take n c = .error e) ∨
    ∃ bs rest, Reader.take n c = .ok (bs, rest) ∧ rest.pos = c.pos + n ∧ rest.total = c.total := by
  unfold Reader.take
  dsimp only
  split
  · rename_i hn
    refine .inr ⟨_, _, rfl, rfl, ?_⟩
    rw [List.length_take] at hn
    unfold Cursor.total
    dsimp only
    rw [List.length_drop]
    omega
  · exact .inl ⟨_, rfl⟩

theorem exists_consecutive_slices (s : Script α) (c : Cursor) :
    ∃ k, Consecutive c.pos (s.slices c) k ∧ k ≤ c.total ∧
      ∀ a rest, s.run c = .ok (a, rest) → rest.pos = k := by
  induction s generalizing c with
  | done a =>
    refine ⟨c.pos, rfl, Nat.le_add_right _ _, ?_⟩
    intro a' rest h
    cases h
    rfl
  | fault e =>
    refine ⟨c.pos, rfl, Nat.le_add_right _ _, ?_⟩
    intro a' rest h
    cases h
  | position next ih => exact ih c.pos c
  | take n next ih =>
    rcases take_cases n c with ⟨e, he⟩ | ⟨bs, rest, hrest, hpos, htotal⟩
    · refine ⟨c.pos, ?_, Nat.le_add_right _ _, ?_⟩
      · rw [slices, he]
        rfl
      · intro a' rest h
        obtain ⟨_, htake, -⟩ := Reader.bind_eq_ok h
        rw [he] at htake
        cases htake
    · obtain ⟨k, hslices, hk, hend⟩ := ih bs rest
      refine ⟨k, ?_, htotal ▸ hk, ?_⟩
      · rw [slices, hrest]
        rw [hpos] at hslices
        exact ⟨rfl, hslices⟩
      · intro a' rest' h
        obtain ⟨_, htake, hnext⟩ := Reader.bind_eq_ok h
        rw [hrest] at htake
        cases htake
        exact hend a' rest' hnext

end Script

end Prenex.Wire
