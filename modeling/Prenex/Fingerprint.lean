import Prenex.Bytes
import Prenex.Text.Hex
/-!
# Fingerprints

128 bits that stand for a qualified name. Each half hashes the three parts of the name, word by
word: the high half in the order they are written, the low half backwards and behind a seed. A part
is fed as its length in bytes and then its bytes, eight to a word. The hash is not injective, so two
names may share a fingerprint.
-/

namespace Prenex

structure Fingerprint where
  hi : UInt64
  lo : UInt64
deriving DecidableEq, Ord, Hashable

namespace Fingerprint

/-! ## Hashing words -/

def rotateFive (h : UInt64) : UInt64 := h <<< 5 ||| h >>> 59

/-- One step of the hash: take in the word `w`. -/
def mix (h w : UInt64) : UInt64 := (rotateFive h ^^^ w) * 0x517cc1b727220a95

def hashWords (ws : List UInt64) : UInt64 := ws.foldl mix 0

/-! ## Names as words -/

/-- Eight bytes to a word, lowest first. The last word is filled up with zeros. -/
def words : Bytes → List UInt64
  | [] => []
  | b :: bs => UInt64.ofNat (ofLittleEndian (b :: bs.take 7)) :: words (bs.drop 7)
termination_by bs => bs.length
decreasing_by
  rw [List.length_drop, List.length_cons]
  omega

def textWords (s : String) : List UInt64 :=
  UInt64.ofNat (utf8 s).length :: words (utf8 s)

/-- Keeps the two halves from hashing the same words. -/
def lowSeed : UInt64 := 0x9e3779b97f4a7c15

def ofName (package module name : String) : Fingerprint where
  hi := hashWords (textWords package ++ textWords module ++ textWords name)
  lo := hashWords (lowSeed :: (textWords name ++ textWords module ++ textWords package))

/-! ## Bytes and text -/

def toBytes (f : Fingerprint) : Bytes :=
  littleEndian 8 f.hi.toNat ++ littleEndian 8 f.lo.toNat

/-- Reads sixteen bytes. -/
def ofBytes (bs : Bytes) : Fingerprint where
  hi := UInt64.ofNat (ofLittleEndian (bs.take 8))
  lo := UInt64.ofNat (ofLittleEndian (bs.drop 8))

@[simp] theorem length_toBytes (f : Fingerprint) : f.toBytes.length = 16 := by
  simp [toBytes]

def text (f : Fingerprint) : String := Text.hex 16 f.hi.toNat ++ Text.hex 16 f.lo.toNat

end Fingerprint

end Prenex
