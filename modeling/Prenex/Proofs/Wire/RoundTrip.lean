import Prenex.Proofs.Wire.Descent

/-!
# Reading what was written

A type is read if and only if its bytes stand in front, so each type has one form on the wire. Types
with a name or an argument list that is too long have none: their lengths are cut down in writing,
and reading never gives such a type.
-/

namespace Prenex

namespace Ty

/-- Every length in the type can be written. -/
def Fits (t : Ty) : Prop := ∀ node ∈ t.preorder, node.1.Fits ∧ node.2 ≤ Wire.maxLength

theorem fits_app (h : Head) (ts : List Ty) :
    (Ty.app h ts).Fits ↔ (h.Fits ∧ ts.length ≤ Wire.maxLength) ∧ ∀ t ∈ ts, t.Fits := by
  unfold Fits
  rw [preorder_app, List.forall_mem_cons, List.forall_mem_flatMap]

theorem encode_app (h : Head) (ts : List Ty) :
    (Ty.app h ts).encode = Wire.encodeNode (h, ts.length) ++ ts.flatMap encode := by
  unfold encode
  rw [preorder_app, List.flatMap_cons, List.flatMap_assoc]

end Ty

namespace Wire.Grammar

variable {b : Bytes}

/-- A node is read if and only if it is spelled. -/
def Exact (i : Offset b) : Prop := ∀ t k, node i = .ok (t, k) ↔ t.Fits ∧ Spells i k t.encode

theorem le_of_spells {i k : Offset b} {bs : Bytes} (h : Spells i k bs) : i ≤ k := by
  obtain ⟨-, hk⟩ := h
  rw [Fin.le_def]
  omega

theorem times_eq_ok_iff {i k : Offset b} (hexact : ∀ j, i ≤ j → Exact j) {n : Nat} {ts : List Ty} :
    times n node i = .ok (ts, k) ↔
      ts.length = n ∧ (∀ t ∈ ts, t.Fits) ∧ Spells i k (ts.flatMap Ty.encode) := by
  induction n generalizing i ts with
  | zero =>
    rw [times_zero, Except.ok.injEq, Prod.mk.injEq, List.length_eq_zero_iff]
    constructor
    · rintro ⟨rfl, rfl⟩
      exact ⟨rfl, by simp, spells_nil_iff.mpr rfl⟩
    · rintro ⟨rfl, -, hk⟩
      exact ⟨rfl, spells_nil_iff.mp hk⟩
  | succ n ih =>
    unfold times
    simp only [bind_eq_ok_iff, pure_eq_ok_iff]
    constructor
    · rintro ⟨t, j, ht, ts, _, hts, rfl, rfl⟩
      obtain ⟨hfits, hj⟩ := (hexact i (Fin.le_refl i) t j).mp ht
      obtain ⟨hlen, hall, hk⟩ :=
        (ih fun l hl => hexact l (Fin.le_trans (le_of_spells hj) hl)).mp hts
      refine ⟨by rw [List.length_cons, hlen], List.forall_mem_cons.mpr ⟨hfits, hall⟩, ?_⟩
      rw [List.flatMap_cons]
      exact spells_append_iff.mpr ⟨j, hj, hk⟩
    · rintro ⟨hlen, hall, hk⟩
      obtain ⟨t, ts, rfl⟩ := List.exists_cons_of_length_eq_add_one hlen
      obtain ⟨hfits, hall⟩ := List.forall_mem_cons.mp hall
      rw [List.flatMap_cons] at hk
      obtain ⟨j, hj, hk⟩ := spells_append_iff.mp hk
      refine ⟨t, j, (hexact i (Fin.le_refl i) t j).mpr ⟨hfits, hj⟩, ts, k, ?_, rfl, rfl⟩
      rw [ih fun l hl => hexact l (Fin.le_trans (le_of_spells hj) hl)]
      exact ⟨by simpa using hlen, hall, hk⟩

theorem exact_of_forall_lt {i : Offset b} (ih : ∀ j, i < j → Exact j) : Exact i := by
  have hargs : ∀ j, i < j → ∀ l, j ≤ l → Exact l := fun j hj l hl => ih l (Fin.lt_of_lt_of_le hj hl)
  rintro ⟨h, ts⟩ k
  rw [node_eq]
  simp only [bind_eq_ok_iff, pure_eq_ok_iff, Ty.fits_app, Ty.encode_app,
    spells_append_iff, Ty.app.injEq]
  constructor
  · rintro ⟨⟨_, n⟩, j, hheader, _, _, hts, ⟨rfl, rfl⟩, rfl⟩
    obtain ⟨hfits, hj⟩ := header_eq_ok_iff.mp hheader
    obtain ⟨rfl, hall, hk⟩ := (times_eq_ok_iff (hargs j (lt_of_header hheader))).mp hts
    exact ⟨⟨hfits, hall⟩, j, hj, hk⟩
  · rintro ⟨⟨hfits, hall⟩, j, hj, hk⟩
    have hheader := header_eq_ok_iff.mpr ⟨hfits, hj⟩
    exact ⟨_, j, hheader, ts, k,
      (times_eq_ok_iff (hargs j (lt_of_header hheader))).mpr ⟨rfl, hall, hk⟩, ⟨rfl, rfl⟩, rfl⟩

theorem exact (i : Offset b) : Exact i := by
  induction i using inductionOnOffset with
  | h i ih => exact exact_of_forall_lt ih

end Wire.Grammar

namespace Ty

/-! ## Whole inputs -/

theorem decodePrefix_eq_ok_iff (b : Bytes) (t : Ty) (n : Nat) :
    decodePrefix b = .ok (t, n) ↔ t.Fits ∧ n ≤ b.length ∧ t.encode = b.take n := by
  have hnode : decodePrefix b = .ok (t, n) ↔
      ∃ k : Wire.Grammar.Offset b, Wire.Grammar.node 0 = .ok (t, k) ∧ k.val = n := by
    unfold decodePrefix
    rw [Wire.readType_start]
    rcases Wire.Grammar.node (0 : Wire.Grammar.Offset b) with e | ⟨u, k⟩
    · simp [Except.map]
    · simp [Except.map, Wire.Cursor.at, and_assoc]
  rw [hnode]
  constructor
  · rintro ⟨k, hk, rfl⟩
    obtain ⟨hfits, hbytes, hlen⟩ := (Wire.Grammar.exact 0 t k).mp hk
    rw [Fin.val_zero, List.drop_zero] at hbytes
    rw [Fin.val_zero, Nat.zero_add] at hlen
    refine ⟨hfits, Nat.le_of_lt_succ k.isLt, ?_⟩
    rw [hlen]
    conv => rhs; rw [hbytes]
    rw [List.take_left]
  · rintro ⟨hfits, hn, hencode⟩
    refine ⟨⟨n, Nat.lt_succ_of_le hn⟩, (Wire.Grammar.exact 0 t _).mpr ⟨hfits, ?_, ?_⟩, rfl⟩
    · rw [hencode]
      exact (List.take_append_drop n b).symm
    · simp [hencode, hn]

theorem decode_eq_ok_iff (b : Bytes) (t : Ty) : decode b = .ok t ↔ t.Fits ∧ t.encode = b := by
  have hall : decode b = .ok t ↔ decodePrefix b = .ok (t, b.length) := by
    unfold decode
    rcases hdecode : decodePrefix b with e | ⟨u, n⟩
    · simp
    · obtain ⟨-, hn, -⟩ := (decodePrefix_eq_ok_iff b u n).mp hdecode
      by_cases hlt : n < b.length
      · have hne : n ≠ b.length := by omega
        simp [hlt, hne]
      · have heq : n = b.length := by omega
        simp [heq]
  rw [hall, decodePrefix_eq_ok_iff, List.take_length]
  simp

/-- What was written is read again, whatever comes behind it. -/
theorem decode_encode (t : Ty) (ht : t.Fits) :
    (∀ rest, decodePrefix (t.encode ++ rest) = .ok (t, t.encode.length)) ∧
      decode t.encode = .ok t := by
  constructor
  · intro rest
    rw [decodePrefix_eq_ok_iff, List.take_left]
    exact ⟨ht, by simp, rfl⟩
  · exact (decode_eq_ok_iff t.encode t).mpr ⟨ht, rfl⟩

theorem decode_encode_collision :
    let c := Constructor.of "pkg" "Mod" "9naHVck0ab"
    let d := Constructor.of "pkg" "Mod" "9naHVckpib"
    let t : Ty := .con c [.app (.var 3) [.con d [], .app (.skolem 1) []], .con d [.var 3]]
    c.fingerprint = d.fingerprint ∧ t.Fits ∧
      (∀ rest, decodePrefix (t.encode ++ rest) = .ok (t, t.encode.length)) ∧
        decode t.encode = .ok t := by
  intro c d t
  have hc : c.toQualifiedName.Fits := by
    unfold QualifiedName.Fits
    decide
  have hd : d.toQualifiedName.Fits := by
    unfold QualifiedName.Fits
    decide
  have ht : t.Fits := by
    simp [t, fits_app, con, var, Head.Fits, hc, hd, Wire.maxLength]
  exact ⟨by decide +kernel, ht, decode_encode t ht⟩

/-- Only what can be written is read, so different inputs never give the same type. -/
theorem encode_decode (b : Bytes) :
    (∀ t n, decodePrefix b = .ok (t, n) → n ≤ b.length ∧ t.encode = b.take n) ∧
    (∀ t, decode b = .ok t → t.encode = b) ∧
    (∀ b' t, decode b = .ok t → decode b' = .ok t → b = b') := by
  refine ⟨fun t n h => ((decodePrefix_eq_ok_iff b t n).mp h).2,
    fun t h => ((decode_eq_ok_iff b t).mp h).2, fun b' t h h' => ?_⟩
  rw [← ((decode_eq_ok_iff b t).mp h).2, ((decode_eq_ok_iff b' t).mp h').2]

theorem decodePrefix_applied_var (rest : Bytes) :
    decodePrefix ([1, 7, 0, 0, 0, 1, 0, 0, 0, 2, 3, 0, 0, 0, 0, 0, 0, 0] ++ rest) =
      .ok (.app (.var 7) [.app (.skolem 3) []], 18) := by
  unfold decodePrefix
  rw [Wire.readType_of_branch rfl, Wire.readType_of_leaf rfl]
  rfl

theorem encode_decode_trailing :
    let b : Bytes := [1, 7, 0, 0, 0, 1, 0, 0, 0, 2, 3, 0, 0, 0, 0, 0, 0, 0, 170]
    let t : Ty := .app (.var 7) [.app (.skolem 3) []]
    decodePrefix b = .ok (t, 18) ∧ t.encode = b.take 18 ∧ decode (b.take 18) = .ok t ∧
      ∀ b', decode b' = .ok t → b.take 18 = b' := by
  intro b t
  have hfront : decodePrefix b = .ok (t, 18) := decodePrefix_applied_var [170]
  have hwhole : decode (b.take 18) = .ok t := by
    have hread : decodePrefix (b.take 18) = .ok (t, 18) := decodePrefix_applied_var []
    unfold decode
    rw [hread]
    rfl
  exact ⟨hfront, ((encode_decode b).1 t 18 hfront).2, hwhole,
    fun b' h => (encode_decode (b.take 18)).2.2 b' t hwhole h⟩

end Ty

end Prenex
