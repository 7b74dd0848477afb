import Prenex.Log.Logger
import Prenex.TypeError
import Prenex.Registry
import Prenex.Wire.Fault
/-!
# Events worth a line in the log

An event holds what happened, not the text about it. The text may be very long, so it is made only
for the events that a logger lets through.
-/

namespace Prenex

open Log

inductive Event where
  /-- A variable was bound while equations were solved. -/
  | bound (x : Index) (t : Ty)
  | unificationFailed (e : TypeError)
  | notInstance (required actual : Ty) (e : TypeError)
  | decodeFailed (f : Wire.Fault)
  | collided (c : Collision)
  | registered (q : QualifiedName)

namespace Event

def level : Event → Level
  | .bound _ _ => .trace
  | .collided _ => .warn
  | _ => .debug

def target : Event → String
  | .bound _ _ | .unificationFailed _ => "polyrep::unify"
  | .notInstance _ _ _ => "polyrep::check"
  | .decodeFailed _ => "polyrep::codec"
  | .collided _ | .registered _ => "polyrep::registry"

def message : Event → String
  | .bound x t => "bind " ++ (Ty.var x).text ++ " := " ++ t.text
  | .unificationFailed e => "unification failed: " ++ e.message
  | .notInstance required actual e =>
    actual.text ++ " is not an instance of " ++ required.text ++ ": " ++ e.message
  | .decodeFailed f => "decode failed: " ++ f.message
  | .collided c =>
    "fingerprint collision: " ++ c.existing.toQualifiedName.text ++ " vs " ++ c.requested.text
  | .registered q => "registered " ++ q.text ++ " as " ++ q.fingerprint.text

def record (e : Event) : Record := ⟨e.level, e.target, e.message⟩

end Event

namespace Log.Logger

/-- What is written of some events. -/
def writeEvents (l : Logger) (es : List Event) : String :=
  String.join ((es.filter fun e => l.enabled e.level).map (·.record.line))

/-- It does not show that events are left out before their text is made. -/
theorem writeEvents_eq_write (l : Logger) (es : List Event) :
    l.writeEvents es = l.write (es.map Event.record) := by
  rw [writeEvents, write, List.filter_map, List.map_map]
  rfl

end Log.Logger

end Prenex
