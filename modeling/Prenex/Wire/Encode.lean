import Prenex.Ty.Preorder
/-!
# Types as bytes

The nodes in preorder. A node is a tag, what belongs to its head, and the number of its arguments.
Numbers are little-endian and have four bytes. A name is its length in bytes and its UTF-8.
-/

namespace Prenex

namespace Wire

def conTag : UInt8 := 0

def varTag : UInt8 := 1

def skolemTag : UInt8 := 2

def encodeIndex (i : Index) : Bytes := littleEndian 4 i.toNat

/-- The largest number that four bytes can hold. -/
def maxLength : Nat := 4294967295

/-- A length that is too large is written as the largest. -/
def encodeLength (n : Nat) : Bytes := littleEndian 4 (min n maxLength)

def encodeText (s : String) : Bytes := encodeLength (utf8 s).length ++ utf8 s

def encodeConstructor (c : Constructor) : Bytes :=
  c.fingerprint.toBytes ++ encodeText c.package ++ encodeText c.module ++ encodeText c.name

def encodeHead : Head → Bytes
  | .con c => conTag :: encodeConstructor c
  | .var i => varTag :: encodeIndex i
  | .skolem i => skolemTag :: encodeIndex i

/-- A head and the number of its arguments. -/
def encodeNode (node : Head × Nat) : Bytes := encodeHead node.1 ++ encodeLength node.2

end Wire

def Ty.encode (t : Ty) : Bytes := t.preorder.flatMap Wire.encodeNode

end Prenex
