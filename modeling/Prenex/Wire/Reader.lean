import Prenex.Wire.Encode
import Prenex.Wire.Fault
/-!
# Reading the parts of a node

A cursor stands in front of the bytes that are left. Every reader either takes bytes from the front
or says what is wrong. The first fault ends the reading.
-/

namespace Prenex.Wire

structure Cursor where
  /-- How many bytes have been read. -/
  pos : Nat
  rest : Bytes

abbrev Reader := StateT Cursor (Except Fault)

namespace Reader

def take (n : Nat) : Reader Bytes := fun c =>
  let bs := c.rest.take n
  if bs.length = n then .ok (bs, ⟨c.pos + n, c.rest.drop n⟩)
  else .error (.endOfInput (c.pos + c.rest.length))

def position : Reader Nat := fun c => .ok (c.pos, c)

def fault {α : Type} (e : Fault) : Reader α := fun _ => .error e

def number (width : Nat) : Reader Nat := do return ofLittleEndian (← take width)

def index : Reader Index := do return UInt32.ofNat (← number 4)

def text : Reader String := do
  let len ← number 4
  let offset ← position
  match ofUtf8? (← take len) with
  | some s => return s
  | none => fault (.invalidUtf8 offset)

/-- The names are believed only if they have the fingerprint that stands in front of them. -/
def constructor : Reader Constructor := do
  let encoded := Fingerprint.ofBytes (← take 16)
  let package ← text
  let module ← text
  let name ← text
  let c := Constructor.of package module name
  if c.fingerprint = encoded then return c else fault (.fingerprintMismatch encoded c.fingerprint)

def head : Reader Head := do
  let offset ← position
  let tag := UInt8.ofNat (← number 1)
  if tag = conTag then return .con (← constructor)
  else if tag = varTag then return .var (← index)
  else if tag = skolemTag then return .skolem (← index)
  else fault (.invalidTag tag offset)

def node : Reader (Head × Nat) := do
  let h ← head
  return (h, ← number 4)

/-! ## Reading goes forward -/

theorem bind_eq_ok {α β : Type} {r : Reader α} {f : α → Reader β} {c : Cursor} {b : β × Cursor}
    (h : (r >>= f) c = .ok b) : ∃ a, r c = .ok a ∧ f a.1 a.2 = .ok b := by
  simp only [bind, StateT.bind, Except.bind] at h
  split at h
  · cases h
  · exact ⟨_, ‹_›, h⟩

/-- A successful read leaves at most as many bytes as there were. -/
def Forward {α : Type} (r : Reader α) : Prop :=
  ∀ c a, r c = .ok a → a.2.rest.length ≤ c.rest.length

theorem forward_take (n : Nat) : Forward (take n) := by
  intro c a h
  unfold take at h
  dsimp only at h
  split at h
  · cases h
    simp
  · cases h

theorem forward_position : Forward position := by
  intro c a h
  cases h
  exact Nat.le_refl _

theorem forward_pure {α : Type} (a : α) : Forward (pure a : Reader α) := by
  intro c b h
  cases h
  exact Nat.le_refl _

theorem forward_fault {α : Type} (e : Fault) : Forward (fault e : Reader α) := by
  intro c a h
  cases h

theorem forward_bind {α β : Type} {r : Reader α} {f : α → Reader β} (hr : Forward r)
    (hf : ∀ a, Forward (f a)) : Forward (r >>= f) := by
  intro c b h
  obtain ⟨a, ha, hb⟩ := bind_eq_ok h
  exact Nat.le_trans (hf _ _ _ hb) (hr _ _ ha)

theorem forward_number (width : Nat) : Forward (number width) :=
  forward_bind (forward_take width) fun _ => forward_pure _

theorem forward_index : Forward index :=
  forward_bind (forward_number 4) fun _ => forward_pure _

theorem forward_text : Forward text := by
  refine forward_bind (forward_number 4) fun _ => forward_bind forward_position fun _ =>
    forward_bind (forward_take _) fun _ => ?_
  split
  · exact forward_pure _
  · exact forward_fault _

theorem forward_constructor : Forward constructor := by
  refine forward_bind (forward_take 16) fun _ => forward_bind forward_text fun _ =>
    forward_bind forward_text fun _ => forward_bind forward_text fun _ => ?_
  dsimp only
  split
  · exact forward_pure _
  · exact forward_fault _

theorem forward_head : Forward head := by
  refine forward_bind forward_position fun _ => forward_bind (forward_number 1) fun _ => ?_
  dsimp only
  split
  · exact forward_bind forward_constructor fun _ => forward_pure _
  · split
    · exact forward_bind forward_index fun _ => forward_pure _
    · split
      · exact forward_bind forward_index fun _ => forward_pure _
      · exact forward_fault _

theorem rest_length_of_take {n : Nat} {c : Cursor} {a : Bytes × Cursor} (h : take n c = .ok a) :
    a.2.rest.length + n = c.rest.length := by
  unfold take at h
  dsimp only at h
  split at h
  · cases h
    rename_i hn
    rw [List.length_take] at hn
    rw [List.length_drop]
    omega
  · cases h

theorem rest_length_lt_of_node {c : Cursor} {a : (Head × Nat) × Cursor} (h : node c = .ok a) :
    a.2.rest.length < c.rest.length := by
  obtain ⟨h₁, ha, hb⟩ := bind_eq_ok h
  obtain ⟨n, hn, hb⟩ := bind_eq_ok hb
  obtain ⟨bs, hbs, hn⟩ := bind_eq_ok hn
  have := forward_head _ _ ha
  have := rest_length_of_take hbs
  cases hn
  cases hb
  dsimp only
  omega

end Reader

end Prenex.Wire
