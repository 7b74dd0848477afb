import Prenex.Text.Blank
/-!
# Log levels
-/

namespace Prenex.Log

/-- From the most severe to the most verbose. -/
inductive Level where
  | error
  | warn
  | info
  | debug
  | trace
deriving DecidableEq

namespace Level

def all : List Level := [.error, .warn, .info, .debug, .trace]

def rank : Level → Nat
  | .error => 0
  | .warn => 1
  | .info => 2
  | .debug => 3
  | .trace => 4

instance : Ord Level := ⟨fun a b => compare a.rank b.rank⟩

def name : Level → String
  | .error => "ERROR"
  | .warn => "WARN"
  | .info => "INFO"
  | .debug => "DEBUG"
  | .trace => "TRACE"

/-- The terminal's colour. -/
def colour : Level → Nat
  | .error => 31
  | .warn => 33
  | .info => 32
  | .debug => 36
  | .trace => 35

/-- Reads a name in upper or lower case, with blanks around it. `warning` is a name too. -/
def parse? (s : String) : Option Level :=
  match String.ofList ((Text.trim s).toList.map Char.toUpper) with
  | "ERROR" => some .error
  | "WARN" | "WARNING" => some .warn
  | "INFO" => some .info
  | "DEBUG" => some .debug
  | "TRACE" => some .trace
  | _ => none

/-- What to say about a text that names no level. -/
def parseMessage (s : String) : String := "invalid log level: " ++ s

end Level

end Prenex.Log
