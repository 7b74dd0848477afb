import Prenex.Fingerprint
/-!
# What can be wrong with bytes

Offsets count from the first byte of the input.
-/

namespace Prenex.Wire

inductive Fault where
  /-- `offset` is the length of the input. -/
  | endOfInput (offset : Nat)
  | invalidTag (tag : UInt8) (offset : Nat)
  /-- `offset` is the first byte of the text. -/
  | invalidUtf8 (offset : Nat)
  /-- The fingerprint that stands in the input is not that of the names beside it. -/
  | fingerprintMismatch (encoded computed : Fingerprint)
  | trailingBytes (remaining : Nat)
deriving DecidableEq

def Fault.message : Fault → String
  | .endOfInput offset => "unexpected end of input at byte " ++ toString offset
  | .invalidTag tag offset =>
    "invalid node tag 0x" ++ Text.hex 2 tag.toNat ++ " at byte " ++ toString offset
  | .invalidUtf8 offset => "invalid UTF-8 in name at byte " ++ toString offset
  | .fingerprintMismatch encoded computed =>
    "fingerprint mismatch: encoded " ++ encoded.text ++ ", computed " ++ computed.text
  | .trailingBytes remaining => toString remaining ++ " trailing bytes after type"

end Prenex.Wire
