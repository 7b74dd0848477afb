import Prenex.Proofs.Wire.RoundTrip
import Prenex.Proofs.Wire.Script

/-!
# Inputs that are cut off

A reader does the same on an input and on a longer one that starts with it, until the shorter one
has no more bytes. So cutting an input can change the answer in one way only: to the end of the
input, at the cut. Every other fault has been seen in the bytes before the cut.
-/

namespace Prenex

namespace Wire

variable {α β : Type}

/-! ## Two inputs in step -/

/-- The same place in a longer input. -/
def Cursor.extend (c : Cursor) (more : Bytes) : Cursor := ⟨c.pos, c.rest ++ more⟩

/-- The length of the whole input. -/
def Cursor.total (c : Cursor) : Nat := c.pos + c.rest.length

/-- What is read from an input of `total` bytes, and what is read with `more` behind it. -/
inductive InStep (total : Nat) (more : Bytes) :
    Except Fault (α × Cursor) → Except Fault (α × Cursor) → Prop
  | cut {r : Except Fault (α × Cursor)} : InStep total more (.error (.endOfInput total)) r
  | fault {e : Fault} : InStep total more (.error e) (.error e)
  | read {a : α} {c : Cursor} : c.total = total →
      InStep total more (.ok (a, c)) (.ok (a, c.extend more))

namespace InStep

variable {total : Nat} {more : Bytes} {r : Except Fault (α × Cursor)}

theorem of_error {e : Fault} (h : InStep total more (.error e) r) :
    e = .endOfInput total ∨ r = .error e := by
  rcases h with _ | _
  · exact .inl rfl
  · exact .inr rfl

theorem of_ok {a : α} {c : Cursor} (h : InStep total more (.ok (a, c)) r) :
    c.total = total ∧ r = .ok (a, c.extend more) := by
  rcases h with _ | _ | hc
  exact ⟨hc, rfl⟩

end InStep

/-! ## One node -/

def Extendable (r : Reader α) : Prop := ∀ c more, InStep c.total more (r c) (r (c.extend more))

theorem extendable_bind {r : Reader α} {f : α → Reader β} (hr : Extendable r)
    (hf : ∀ a, Extendable (f a)) :
    Extendable (r >>= f) := by
  intro c more
  have hstep := hr c more
  simp only [bind, StateT.bind, Except.bind]
  rcases hc : r c with e | ⟨a, c'⟩
  · rw [hc] at hstep
    rcases hstep.of_error with rfl | hlonger
    · exact .cut
    · rw [hlonger]
      exact .fault
  · rw [hc] at hstep
    obtain ⟨htotal, hlonger⟩ := hstep.of_ok
    rw [hlonger, ← htotal]
    exact hf a c' more

theorem extendable_take (n : Nat) : Extendable (Reader.take n) := by
  intro c more
  unfold Reader.take Cursor.extend
  by_cases hn : n ≤ c.rest.length
  · have hshort : (c.rest.take n).length = n := by
      rw [List.length_take]
      omega
    rw [List.take_append_of_le_length hn, List.drop_append_of_le_length hn]
    simp only [hshort, if_true]
    refine .read ?_
    unfold Cursor.total
    dsimp only
    rw [List.length_drop]
    omega
  · have hshort : (c.rest.take n).length ≠ n := by
      rw [List.length_take]
      omega
    simp only [hshort, if_false]
    exact .cut

theorem extendable_run (s : Script α) : Extendable s.run := by
  induction s with
  | done a => exact fun _ _ => .read rfl
  | fault e => exact fun _ _ => .fault
  | position next ih => exact fun c more => ih c.pos c more
  | take n next ih => exact extendable_bind (extendable_take n) ih

theorem extendable_node : Extendable Reader.node := by
  rw [← Script.run_node]
  exact extendable_run Script.node

/-! ## The loop -/

theorem extendable_readType (stack : List Frame) : Extendable (readType stack) := by
  intro c more
  have hnode := extendable_node c more
  -- By the rounds of the shorter input. The stack depends on the nodes alone, so it is the same.
  fun_induction readType stack c with
  | case1 stack c e hshort =>
    rw [hshort] at hnode
    rcases hnode.of_error with rfl | hlonger
    · exact .cut
    · rw [readType_of_error hlonger]
      exact .fault
  | case2 stack c h rest hshort t hclose =>
    rw [hshort] at hnode
    obtain ⟨htotal, hlonger⟩ := hnode.of_ok
    rw [readType_of_leaf hlonger, resume, hclose]
    exact .read htotal
  | case3 stack c h rest hshort stack' hclose ih =>
    rw [hshort] at hnode
    obtain ⟨htotal, hlonger⟩ := hnode.of_ok
    rw [readType_of_leaf hlonger, resume, hclose, ← htotal]
    exact ih (extendable_node rest more)
  | case4 stack c h n rest hshort ih =>
    rw [hshort] at hnode
    obtain ⟨htotal, hlonger⟩ := hnode.of_ok
    rw [readType_of_branch hlonger, ← htotal]
    exact ih (extendable_node rest more)

end Wire

namespace Ty

/-! ## Whole inputs -/

theorem decodePrefix_append (b more : Bytes) :
    decodePrefix b = .error (.endOfInput b.length) ∨ decodePrefix (b ++ more) = decodePrefix b := by
  have hstep := Wire.extendable_readType [] ⟨0, b⟩ more
  have htotal : Wire.Cursor.total ⟨0, b⟩ = b.length := Nat.zero_add _
  have hlong : Wire.Cursor.extend ⟨0, b⟩ more = ⟨0, b ++ more⟩ := rfl
  rw [htotal, hlong] at hstep
  unfold decodePrefix
  rcases hshort : Wire.readType [] ⟨0, b⟩ with e | ⟨t, c⟩
  · rw [hshort] at hstep
    rcases hstep.of_error with rfl | hlonger
    · exact .inl rfl
    · rw [hlonger]
      exact .inr rfl
  · rw [hshort] at hstep
    rw [hstep.of_ok.2]
    exact .inr rfl

theorem decodePrefix_take_cases {b : Bytes} {cut : Nat} (hcut : cut ≤ b.length) :
    decodePrefix (b.take cut) = .error (.endOfInput cut) ∨
      decodePrefix (b.take cut) = decodePrefix b := by
  have hcases := decodePrefix_append (b.take cut) (b.drop cut)
  rw [List.take_append_drop, List.length_take, Nat.min_eq_left hcut] at hcases
  exact hcases.imp_right Eq.symm

theorem decodePrefix_take_eq_endOfInput_iff {b : Bytes} {cut n : Nat} {t : Ty}
    (hcut : cut ≤ b.length) (h : decodePrefix b = .ok (t, n)) :
    decodePrefix (b.take cut) = .error (.endOfInput cut) ↔ cut < n := by
  have hwhole := (decodePrefix_eq_ok_iff b t n).mp h
  constructor
  · intro hend
    apply Nat.lt_of_not_le
    intro hn
    -- All the bytes of the type are in front of the cut.
    have hfront : decodePrefix (b.take cut) = .ok (t, n) := by
      rw [decodePrefix_eq_ok_iff, List.length_take, List.take_take, Nat.min_eq_left hn]
      exact ⟨hwhole.1, by omega, hwhole.2.2⟩
    rw [hfront] at hend
    cases hend
  · intro hn
    rcases decodePrefix_take_cases hcut with hend | hsame
    · exact hend
    · rw [h, decodePrefix_eq_ok_iff, List.length_take] at hsame
      omega

/-- A cut changes the answer to the end of the input at the cut, or not at all. If there is a type,
the cut is noticed exactly when it takes one of the type's bytes away, so every beginning of a
written type is too short. A fault of another kind stays, whatever follows. -/
theorem decodePrefix_truncated (b : Bytes) :
    (∀ cut ≤ b.length,
      (decodePrefix (b.take cut) = .error (.endOfInput cut) ∨
        decodePrefix (b.take cut) = decodePrefix b) ∧
      ∀ t n, decodePrefix b = .ok (t, n) →
        (decodePrefix (b.take cut) = .error (.endOfInput cut) ↔ cut < n)) ∧
    (∀ t : Ty, t.Fits → b = t.encode →
      ∀ cut < b.length, decodePrefix (b.take cut) = .error (.endOfInput cut)) ∧
    ∀ e, decodePrefix b = .error e → (∀ n, e ≠ .endOfInput n) →
      ∀ more, decodePrefix (b ++ more) = .error e := by
  refine ⟨fun cut hcut =>
    ⟨decodePrefix_take_cases hcut, fun t n h => decodePrefix_take_eq_endOfInput_iff hcut h⟩,
    ?_, fun e he hother more => ?_⟩
  · rintro t ht rfl cut hcut
    have hwhole : decodePrefix t.encode = .ok (t, t.encode.length) := by
      rw [decodePrefix_eq_ok_iff, List.take_length]
      exact ⟨ht, Nat.le_refl _, rfl⟩
    exact (decodePrefix_take_eq_endOfInput_iff (Nat.le_of_lt hcut) hwhole).mpr hcut
  · rcases decodePrefix_append b more with hend | hsame
    · rw [he] at hend
      exact absurd (Except.error.inj hend) (hother _)
    · rw [hsame, he]

theorem decodePrefix_truncated_argument :
    let t : Ty := .app (.var 7) [.app (.skolem 3) []]
    let b : Bytes := [1, 7, 0, 0, 0, 1, 0, 0, 0, 2, 3, 0, 0, 0, 0, 0, 0, 0, 170]
    let bad : Bytes := [1, 7, 0, 0, 0, 1, 0, 0, 0, 9]
    decodePrefix b = .ok (t, 18) ∧ (decodePrefix (b.take 12) = .error (.endOfInput 12) ↔ 12 < 18) ∧
      decodePrefix (t.encode.take 12) = .error (.endOfInput 12) ∧
      ∀ more, decodePrefix (bad ++ more) = .error (.invalidTag 9 9) := by
  -- The cut goes through the index of the argument, and the tag in `bad` is wrong.
  intro t b bad
  have hread : decodePrefix b = .ok (t, 18) := decodePrefix_applied_var [170]
  have hbad : decodePrefix bad = .error (.invalidTag 9 9) := by
    unfold decodePrefix
    rw [Wire.readType_of_branch rfl, Wire.readType_of_error rfl]
    rfl
  have ht : t.Fits := by
    simp [t, fits_app, Head.Fits, Wire.maxLength]
  have hlong : 12 < t.encode.length := by
    rw [((decodePrefix_eq_ok_iff b t 18).mp hread).2.2]
    decide
  exact ⟨hread, ((decodePrefix_truncated b).1 12 (by decide)).2 t 18 hread,
    (decodePrefix_truncated t.encode).2.1 t ht rfl 12 hlong,
    (decodePrefix_truncated bad).2.2 _ hbad (by simp)⟩

end Ty

end Prenex
