import Prenex.Wire.Reader
/-!
# Types from bytes

Nodes are read one after the other. A node whose arguments are not all there waits on a stack, so
the depth of the nesting does not matter.
-/

namespace Prenex

namespace Wire

/-- A head that waits for an argument. -/
structure Frame where
  head : Head
  /-- The arguments that are there, the last one first. -/
  args : List Ty
  /-- How many arguments come after the awaited one. -/
  later : Nat

/-- Hands a finished type to the frame that waits for it. A frame that becomes complete is a
finished type too. -/
def close (t : Ty) : List Frame → Ty ⊕ List Frame
  | [] => .inl t
  | f :: stack =>
    match f.later with
    | 0 => close (.app f.head (t :: f.args).reverse) stack
    | n + 1 => .inr (⟨f.head, t :: f.args, n⟩ :: stack)

def readType (stack : List Frame) (c : Cursor) : Except Fault (Ty × Cursor) :=
  match _h : Reader.node c with
  | .error e => .error e
  | .ok ((h, 0), rest) =>
    match close (.app h []) stack with
    | .inl t => .ok (t, rest)
    | .inr stack => readType stack rest
  | .ok ((h, n + 1), rest) => readType (⟨h, [], n⟩ :: stack) rest
termination_by c.rest.length
decreasing_by
  · exact Reader.rest_length_lt_of_node _h
  · exact Reader.rest_length_lt_of_node _h

end Wire

/-- Reads a type from the front of `bs`. Also gives the number of bytes that it takes. -/
def Ty.decodePrefix (bs : Bytes) : Except Wire.Fault (Ty × Nat) :=
  match Wire.readType [] ⟨0, bs⟩ with
  | .error e => .error e
  | .ok (t, c) => .ok (t, c.pos)

/-- Reads a type that takes all of `bs`. -/
def Ty.decode (bs : Bytes) : Except Wire.Fault Ty :=
  match decodePrefix bs with
  | .error e => .error e
  | .ok (t, used) => if used < bs.length then .error (.trailingBytes (bs.length - used)) else .ok t

end Prenex
