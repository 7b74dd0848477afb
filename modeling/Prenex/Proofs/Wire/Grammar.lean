import Prenex.Proofs.Bytes
import Prenex.Wire.Encode
import Prenex.Wire.Fault

/-!
# The grammar of the wire

    node        := tag payload count:u32 node*count
    tag         := 0 (constructor) | 1 (variable) | 2 (skolem)
    payload     := fingerprint package:str module:str name:str (constructor)
                 | index:u32 (variable, skolem)
    fingerprint := hi:u64 lo:u64
    str         := len:u32 utf8-bytes

This is the grammar as a reader by recursive descent. The input stays whole and a place in it moves
forward. What is read between two places is spelled by the bytes that stand there.
-/

namespace Prenex

/-! ## What fits the wire -/

/-- The length of each name can be written. -/
def QualifiedName.Fits (q : QualifiedName) : Prop :=
  ∀ s ∈ [q.package, q.module, q.name], (utf8 s).length ≤ Wire.maxLength

def Head.Fits : Head → Prop
  | .con c => c.toQualifiedName.Fits
  | _ => True

namespace Wire.Grammar

/-- In front of a byte of the input, or behind the last one. -/
abbrev Offset (b : Bytes) := Fin (b.length + 1)

abbrev Parser (b : Bytes) := StateT (Offset b) (Except Fault)

variable {b : Bytes} {α β : Type}

/-! ## Tokens and heads -/

def byte : Parser b UInt8 := fun i =>
  if h : i.val < b.length then .ok (b[i.val], ⟨i + 1, by omega⟩) else .error (.endOfInput b.length)

def bytes (n : Nat) : Parser b Bytes := fun i =>
  if h : i + n ≤ b.length then .ok (b.extract i (i + n), ⟨i + n, by omega⟩)
  else .error (.endOfInput b.length)

def uint (width : Nat) : Parser b Nat := do return ofLittleEndian (← bytes width)

def orFault (a? : Option α) (e : Fault) : Parser b α :=
  match a? with
  | some a => pure a
  | none => throw e

def str : Parser b String := do
  let len ← uint 4
  let start ← get
  orFault (ofUtf8? (← bytes len)) (.invalidUtf8 start)

def fingerprint : Parser b Fingerprint := do return ⟨.ofNat (← uint 8), .ofNat (← uint 8)⟩

def qualifiedName : Parser b QualifiedName := do return ⟨← str, ← str, ← str⟩

def constructor : Parser b Constructor := do
  let encoded ← fingerprint
  let q ← qualifiedName
  orFault (if q.fingerprint = encoded then some (.ofName q) else none)
    (.fingerprintMismatch encoded q.fingerprint)

def index : Parser b Index := do return .ofNat (← uint 4)

/-- What belongs to a head whose tag stands at `offset`. -/
def payload (offset : Nat) (tag : UInt8) : Parser b Head :=
  match tag with
  | 0 => return .con (← constructor)
  | 1 => return .var (← index)
  | 2 => return .skolem (← index)
  | tag => throw (.invalidTag tag offset)

def head : Parser b Head := do
  let offset ← get
  payload offset (← byte)

def header : Parser b (Head × Nat) := do return (← head, ← uint 4)

theorem length_take_drop {n : Nat} {i : Offset b} (h : i + n ≤ b.length) :
    ((b.drop i).take n).length = n := by
  rw [List.length_take, List.length_drop]
  omega

theorem bytes_of_le {n : Nat} {i : Offset b} (h : i + n ≤ b.length) :
    bytes n i = .ok ((b.drop i).take n, ⟨i + n, by omega⟩) := by
  rw [bytes, dif_pos h, List.extract_eq_take_drop, Nat.add_sub_cancel_left]

theorem bytes_of_lt {n : Nat} {i : Offset b} (h : b.length < i + n) :
    bytes n i = .error (.endOfInput b.length) := by
  rw [bytes, dif_neg (by omega)]

/-! ## Running a parser -/

theorem bind_eq_ok_iff {p : Parser b α} {f : α → Parser b β} {i k : Offset b} {c : β} :
    (p >>= f) i = .ok (c, k) ↔ ∃ a j, p i = .ok (a, j) ∧ f a j = .ok (c, k) := by
  simp only [bind, StateT.bind, Except.bind]
  constructor
  · intro h
    split at h
    · cases h
    · exact ⟨_, _, ‹_›, h⟩
  · rintro ⟨a, j, ha, hc⟩
    rw [ha]
    exact hc

theorem pure_eq_ok_iff {a c : α} {i k : Offset b} :
    (pure a : Parser b α) i = .ok (c, k) ↔ a = c ∧ i = k := by
  show Except.ok (a, i) = .ok (c, k) ↔ _
  rw [Except.ok.injEq, Prod.mk.injEq]

theorem get_eq_ok_iff {i j k : Offset b} :
    (get : Parser b (Offset b)) i = .ok (j, k) ↔ i = j ∧ i = k := by
  show Except.ok (i, i) = .ok (j, k) ↔ _
  rw [Except.ok.injEq, Prod.mk.injEq]

theorem orFault_eq_ok_iff {a? : Option α} {e : Fault} {i k : Offset b} {a : α} :
    (orFault a? e : Parser b α) i = .ok (a, k) ↔ a? = some a ∧ i = k := by
  cases a? with
  | none =>
    constructor
    · intro h
      cases h
    · simp
  | some a' =>
    rw [Option.some.injEq]
    exact pure_eq_ok_iff

/-! ## What is spelled -/

/-- The bytes `bs` stand from `i` to `k`. -/
def Spells (i k : Offset b) (bs : Bytes) : Prop := b.drop i = bs ++ b.drop k ∧ k.val = i + bs.length

theorem spells_nil_iff {i k : Offset b} : Spells i k [] ↔ i = k := by
  unfold Spells
  constructor
  · rintro ⟨-, hk⟩
    apply Fin.ext
    simpa using hk.symm
  · rintro rfl
    simp

theorem spells_append_iff {i k : Offset b} {xs ys : Bytes} :
    Spells i k (xs ++ ys) ↔ ∃ j, Spells i j xs ∧ Spells j k ys := by
  unfold Spells
  constructor
  · rintro ⟨hbytes, hk⟩
    rw [List.length_append] at hk
    have hj : b.drop (i + xs.length) = ys ++ b.drop k := by
      rw [← List.drop_drop, hbytes, List.append_assoc, List.drop_left]
    refine ⟨⟨i + xs.length, by omega⟩, ⟨?_, rfl⟩, hj, by dsimp only; omega⟩
    rw [hbytes, hj, List.append_assoc]
  · rintro ⟨j, ⟨hxs, hj⟩, hys, hk⟩
    rw [List.length_append]
    exact ⟨by rw [hxs, hys, List.append_assoc], by omega⟩

theorem spells_cons_iff {i k : Offset b} {x : UInt8} {xs : Bytes} :
    Spells i k (x :: xs) ↔ ∃ j, Spells i j [x] ∧ Spells j k xs := by
  rw [← List.singleton_append, spells_append_iff]

theorem byte_eq_ok_iff {i k : Offset b} {x : UInt8} : byte i = .ok (x, k) ↔ Spells i k [x] := by
  unfold byte Spells
  split
  · rename_i h
    rw [Except.ok.injEq, Prod.mk.injEq, List.drop_eq_getElem_cons h]
    constructor
    · rintro ⟨rfl, rfl⟩
      simp
    · rintro ⟨hbytes, hk⟩
      exact ⟨(List.cons.inj hbytes).1, Fin.ext hk.symm⟩
  · constructor
    · intro h
      cases h
    · rintro ⟨-, hk⟩
      rw [List.length_singleton] at hk
      omega

theorem bytes_eq_ok_iff {n : Nat} {i k : Offset b} {bs : Bytes} :
    bytes n i = .ok (bs, k) ↔ bs.length = n ∧ Spells i k bs := by
  unfold Spells
  by_cases h : i + n ≤ b.length
  · rw [bytes_of_le h, Except.ok.injEq, Prod.mk.injEq]
    constructor
    · rintro ⟨rfl, rfl⟩
      have hlen := length_take_drop h
      refine ⟨hlen, ?_, by simp [hlen]⟩
      rw [← List.drop_drop, List.take_append_drop]
    · rintro ⟨rfl, hbytes, hk⟩
      rw [hbytes, List.take_left]
      exact ⟨rfl, Fin.ext hk.symm⟩
  · rw [bytes_of_lt (by omega)]
    constructor
    · intro h
      cases h
    · rintro ⟨rfl, -, hk⟩
      omega

theorem uint_eq_ok_iff {width n : Nat} {i k : Offset b} :
    uint width i = .ok (n, k) ↔ n < 256 ^ width ∧ Spells i k (littleEndian width n) := by
  unfold uint
  simp only [bind_eq_ok_iff, pure_eq_ok_iff, bytes_eq_ok_iff]
  constructor
  · rintro ⟨bs, _, ⟨hlen, hbs⟩, hvalue, rfl⟩
    obtain ⟨hn, rfl⟩ := (ofLittleEndian_eq_iff hlen).mp hvalue
    exact ⟨hn, hbs⟩
  · rintro ⟨hn, hbs⟩
    exact ⟨_, k, ⟨length_littleEndian _ _, hbs⟩, ofLittleEndian_littleEndian hn, rfl⟩

theorem length_eq_ok_iff {n : Nat} {i k : Offset b} :
    uint 4 i = .ok (n, k) ↔ n ≤ maxLength ∧ Spells i k (encodeLength n) := by
  have hmax : n < 256 ^ 4 ↔ n ≤ maxLength := by
    unfold maxLength
    omega
  rw [uint_eq_ok_iff, hmax]
  apply and_congr_right
  intro hn
  rw [encodeLength, Nat.min_eq_left hn]

theorem str_eq_ok_iff {i k : Offset b} {s : String} :
    str i = .ok (s, k) ↔ (utf8 s).length ≤ maxLength ∧ Spells i k (encodeText s) := by
  unfold str encodeText
  simp only [bind_eq_ok_iff, get_eq_ok_iff, length_eq_ok_iff, bytes_eq_ok_iff, orFault_eq_ok_iff,
    ofUtf8?_eq_some_iff, spells_append_iff]
  constructor
  · rintro ⟨_, j, ⟨hlen, hlength⟩, _, _, ⟨rfl, rfl⟩, _, _, ⟨rfl, hbs⟩, rfl, rfl⟩
    exact ⟨hlen, j, hlength, hbs⟩
  · rintro ⟨hlen, j, hlength, hbs⟩
    exact ⟨_, j, ⟨hlen, hlength⟩, j, j, ⟨rfl, rfl⟩, _, k, ⟨rfl, hbs⟩, rfl, rfl⟩

theorem fingerprint_eq_ok_iff {i k : Offset b} {f : Fingerprint} :
    fingerprint i = .ok (f, k) ↔ Spells i k f.toBytes := by
  unfold fingerprint Fingerprint.toBytes
  simp only [bind_eq_ok_iff, pure_eq_ok_iff, uint_eq_ok_iff, spells_append_iff]
  constructor
  · rintro ⟨hi, j, ⟨hhi, hj⟩, lo, _, ⟨hlo, hk⟩, rfl, rfl⟩
    refine ⟨j, ?_, ?_⟩
    · rwa [UInt64.toNat_ofNat_of_lt' hhi]
    · rwa [UInt64.toNat_ofNat_of_lt' hlo]
  · rintro ⟨j, hj, hk⟩
    refine ⟨_, j, ⟨f.hi.toNat_lt, hj⟩, _, k, ⟨f.lo.toNat_lt, hk⟩, ?_, rfl⟩
    rw [UInt64.ofNat_toNat, UInt64.ofNat_toNat]

theorem qualifiedName_eq_ok_iff {i k : Offset b} {q : QualifiedName} :
    qualifiedName i = .ok (q, k) ↔
      q.Fits ∧ Spells i k (encodeText q.package ++ (encodeText q.module ++ encodeText q.name)) := by
  unfold qualifiedName QualifiedName.Fits
  simp only [bind_eq_ok_iff, pure_eq_ok_iff, str_eq_ok_iff, spells_append_iff, List.forall_mem_cons]
  constructor
  · rintro ⟨package, i₁, ⟨hpackage, hi₁⟩, module, i₂, ⟨hmodule, hi₂⟩, name, _, ⟨hname, hk⟩,
      rfl, rfl⟩
    exact ⟨⟨hpackage, hmodule, hname, by simp⟩, i₁, hi₁, i₂, hi₂, hk⟩
  · rintro ⟨⟨hpackage, hmodule, hname, -⟩, i₁, hi₁, i₂, hi₂, hk⟩
    exact ⟨_, i₁, ⟨hpackage, hi₁⟩, _, i₂, ⟨hmodule, hi₂⟩, _, k, ⟨hname, hk⟩, rfl, rfl⟩

theorem constructor_eq_ok_iff {i k : Offset b} {c : Constructor} :
    constructor i = .ok (c, k) ↔ (Head.con c).Fits ∧ Spells i k (encodeConstructor c) := by
  unfold constructor encodeConstructor
  simp only [bind_eq_ok_iff, fingerprint_eq_ok_iff, qualifiedName_eq_ok_iff, orFault_eq_ok_iff,
    Option.ite_none_right_eq_some, Option.some.injEq, List.append_assoc]
  rw [spells_append_iff]
  constructor
  · rintro ⟨_, j, hj, q, _, ⟨hq, hk⟩, ⟨rfl, rfl⟩, rfl⟩
    exact ⟨hq, j, hj, hk⟩
  · rintro ⟨hc, j, hj, hk⟩
    exact ⟨_, j, hj, _, k, ⟨hc, hk⟩,
      ⟨c.fingerprint_eq.symm, Constructor.eq_of_toQualifiedName_eq rfl⟩, rfl⟩

theorem index_eq_ok_iff {i k : Offset b} {x : Index} :
    index i = .ok (x, k) ↔ Spells i k (encodeIndex x) := by
  unfold index encodeIndex
  simp only [bind_eq_ok_iff, pure_eq_ok_iff, uint_eq_ok_iff]
  constructor
  · rintro ⟨n, _, ⟨hn, hk⟩, rfl, rfl⟩
    rwa [UInt32.toNat_ofNat_of_lt' hn]
  · intro hk
    exact ⟨_, k, ⟨x.toNat_lt, hk⟩, UInt32.ofNat_toNat, rfl⟩

theorem payload_eq_ok_iff {offset : Nat} {tag : UInt8} {i k : Offset b} {h : Head} :
    payload offset tag i = .ok (h, k) ↔
      h.Fits ∧ ∃ rest, encodeHead h = tag :: rest ∧ Spells i k rest := by
  constructor
  · unfold payload
    intro hok
    split at hok
    · simp only [bind_eq_ok_iff, pure_eq_ok_iff, constructor_eq_ok_iff] at hok
      obtain ⟨c, _, ⟨hc, hk⟩, rfl, rfl⟩ := hok
      exact ⟨hc, _, rfl, hk⟩
    · simp only [bind_eq_ok_iff, pure_eq_ok_iff, index_eq_ok_iff] at hok
      obtain ⟨x, _, hk, rfl, rfl⟩ := hok
      exact ⟨trivial, _, rfl, hk⟩
    · simp only [bind_eq_ok_iff, pure_eq_ok_iff, index_eq_ok_iff] at hok
      obtain ⟨x, _, hk, rfl, rfl⟩ := hok
      exact ⟨trivial, _, rfl, hk⟩
    · cases hok
  · rintro ⟨hh, rest, hrest, hk⟩
    cases h with
    | con c =>
      obtain ⟨rfl, rfl⟩ := List.cons.inj hrest
      exact bind_eq_ok_iff.mpr ⟨c, k, constructor_eq_ok_iff.mpr ⟨hh, hk⟩, rfl⟩
    | var x =>
      obtain ⟨rfl, rfl⟩ := List.cons.inj hrest
      exact bind_eq_ok_iff.mpr ⟨x, k, index_eq_ok_iff.mpr hk, rfl⟩
    | skolem x =>
      obtain ⟨rfl, rfl⟩ := List.cons.inj hrest
      exact bind_eq_ok_iff.mpr ⟨x, k, index_eq_ok_iff.mpr hk, rfl⟩

theorem head_eq_ok_iff {i k : Offset b} {h : Head} :
    head i = .ok (h, k) ↔ h.Fits ∧ Spells i k (encodeHead h) := by
  unfold head
  simp only [bind_eq_ok_iff, get_eq_ok_iff, byte_eq_ok_iff, payload_eq_ok_iff]
  constructor
  · rintro ⟨_, _, ⟨rfl, rfl⟩, tag, j, hj, hh, rest, hrest, hk⟩
    refine ⟨hh, ?_⟩
    rw [hrest]
    exact spells_cons_iff.mpr ⟨j, hj, hk⟩
  · rintro ⟨hh, hk⟩
    obtain ⟨tag, rest, hrest⟩ : ∃ tag rest, encodeHead h = tag :: rest := by
      cases h <;> exact ⟨_, _, rfl⟩
    rw [hrest] at hk
    obtain ⟨j, hj, hk⟩ := spells_cons_iff.mp hk
    exact ⟨i, i, ⟨rfl, rfl⟩, tag, j, hj, hh, rest, hrest, hk⟩

theorem header_eq_ok_iff {i k : Offset b} {h : Head} {n : Nat} :
    header i = .ok ((h, n), k) ↔ (h.Fits ∧ n ≤ maxLength) ∧ Spells i k (encodeNode (h, n)) := by
  unfold header encodeNode
  simp only [bind_eq_ok_iff, pure_eq_ok_iff, head_eq_ok_iff, length_eq_ok_iff, spells_append_iff,
    Prod.mk.injEq]
  constructor
  · rintro ⟨_, j, ⟨hh, hj⟩, _, _, ⟨hn, hk⟩, ⟨rfl, rfl⟩, rfl⟩
    exact ⟨⟨hh, hn⟩, j, hj, hk⟩
  · rintro ⟨⟨hh, hn⟩, j, hj, hk⟩
    exact ⟨h, j, ⟨hh, hj⟩, n, k, ⟨hn, hk⟩, ⟨rfl, rfl⟩, rfl⟩

theorem lt_of_header {i k : Offset b} {h : Head} {n : Nat} (hok : header i = .ok ((h, n), k)) :
    i < k := by
  obtain ⟨-, -, hk⟩ := header_eq_ok_iff.mp hok
  have hlen : 0 < (encodeNode (h, n)).length := by
    simp [encodeNode, encodeLength]
  rw [Fin.lt_def]
  omega

/-! ## Nodes -/

theorem ahead_lt {i j : Offset b} (h : i < j) : b.length - j.val < b.length - i.val := by
  have := j.isLt
  rw [Fin.lt_def] at h
  omega

@[elab_as_elim]
theorem inductionOnOffset {P : Offset b → Prop} (i : Offset b) (h : ∀ i, (∀ j, i < j → P j) → P i) :
    P i :=
  h i fun j _ => inductionOnOffset j h
termination_by b.length - i.val
decreasing_by exact ahead_lt ‹_›

mutual

/-- A node. The place behind it is further on, so the descent comes to an end. -/
def nodeFrom (i : Offset b) : Except Fault {r : Ty × Offset b // i < r.2} :=
  match _h : header i with
  | .error e => .error e
  | .ok ((h, n), j) =>
    match nodesFrom n j with
    | .error e => .error e
    | .ok ⟨(ts, k), hk⟩ => .ok ⟨(.app h ts, k), Fin.lt_of_lt_of_le (lt_of_header _h) hk⟩
termination_by (b.length - i.val, 0)
decreasing_by exact .left _ _ (ahead_lt (lt_of_header _h))

/-- Nodes behind each other, `n` of them. -/
def nodesFrom (n : Nat) (i : Offset b) : Except Fault {r : List Ty × Offset b // i ≤ r.2} :=
  match n with
  | 0 => .ok ⟨([], i), Fin.le_refl i⟩
  | n + 1 =>
    match nodeFrom i with
    | .error e => .error e
    | .ok ⟨(t, j), hj⟩ =>
      match nodesFrom n j with
      | .error e => .error e
      | .ok ⟨(ts, k), hk⟩ => .ok ⟨(t :: ts, k), Fin.le_trans (Fin.le_of_lt hj) hk⟩
termination_by (b.length - i.val, 1)
decreasing_by
  · exact .right _ Nat.zero_lt_one
  · exact .left _ _ (ahead_lt hj)

end

def node : Parser b Ty := fun i => (nodeFrom i).map Subtype.val

def times (n : Nat) (p : Parser b α) : Parser b (List α) :=
  match n with
  | 0 => pure []
  | n + 1 => do return (← p) :: (← times n p)

theorem times_zero (p : Parser b α) (i : Offset b) : times 0 p i = .ok ([], i) := rfl

theorem times_succ (n : Nat) (p : Parser b α) (i : Offset b) :
    times (n + 1) p i = p i >>= fun r => times n p r.2 >>= fun s => .ok (r.1 :: s.1, s.2) := rfl

theorem nodesFrom_eq_times (n : Nat) (i : Offset b) :
    (nodesFrom n i).map Subtype.val = times n node i := by
  induction n generalizing i with
  | zero => rw [nodesFrom, times_zero, Except.map]
  | succ n ih =>
    rw [nodesFrom, times_succ]
    simp only [bind, Except.bind, node, ← ih]
    rcases nodeFrom i with e | ⟨⟨t, j⟩, hj⟩
    · rfl
    · dsimp only [Except.map]
      rcases nodesFrom n j with e | ⟨⟨ts, k⟩, hk⟩
      · rfl
      · rfl

theorem node_eq :
    (node : Parser b Ty) = do let (h, n) ← header; return .app h (← times n node) := by
  funext i
  rw [node, nodeFrom]
  simp only [bind, StateT.bind, Except.bind, ← nodesFrom_eq_times]
  split
  · simp only [*, Except.map]
  · rename_i h n j hj
    simp only [hj]
    rcases nodesFrom n j with e | ⟨⟨ts, k⟩, hk⟩
    · rfl
    · rfl

theorem node_apply (i : Offset b) :
    node i = header i >>= fun r => times r.1.2 node r.2 >>= fun s => .ok (.app r.1.1 s.1, s.2) := by
  conv => lhs; rw [node_eq]
  rfl

theorem lt_of_node {i k : Offset b} {t : Ty} (h : node i = .ok (t, k)) : i < k := by
  unfold node at h
  rcases hr : nodeFrom i with e | ⟨r, hlt⟩
  · simp [hr, Except.map] at h
  · simp only [hr, Except.map, Except.ok.injEq] at h
    subst h
    exact hlt

end Wire.Grammar

/-- Reads a type by the grammar. Also gives the number of bytes that it takes. -/
def Ty.parse (b : Bytes) : Except Wire.Fault (Ty × Nat) :=
  match Wire.Grammar.node (0 : Wire.Grammar.Offset b) with
  | .error e => .error e
  | .ok (t, k) => .ok (t, k)

end Prenex
