import Prenex.TypeError
import Prenex.Registry
import Prenex.Wire.Fault
/-!
# Errors

Everything that can go wrong, with one text for the user.
-/

namespace Prenex

inductive Error where
  | collision (c : Collision)
  | decode (f : Wire.Fault)
  | type (e : TypeError)

namespace Error

def message : Error → String
  | .collision c => c.message
  | .decode f => "decode error: " ++ f.message
  | .type e => "type error: " ++ e.message

/-- The text of what lies behind the error. A collision has nothing behind it. -/
def cause? : Error → Option String
  | .collision _ => none
  | .decode f => some f.message
  | .type e => some e.message

end Error

end Prenex
