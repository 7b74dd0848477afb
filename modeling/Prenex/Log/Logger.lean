import Prenex.Log.Level
/-!
# Log records and who lets them through
-/

namespace Prenex.Log

structure Record where
  level : Level
  target : String
  message : String

/-- A coloured level, the target and the message, with the end of the line. -/
def Record.line (r : Record) : String :=
  "\x1b[" ++ toString r.level.colour ++ "m[" ++ r.level.name ++ "]\x1b[0m " ++ r.target ++ ": " ++
    r.message ++ "\n"

/-- Lets records through up to a level. -/
structure Logger where
  level : Level

namespace Logger

def default : Logger := ⟨.warn⟩

/-- The setting may be missing. One that names no level counts as missing. -/
def ofSetting (value : Option String) : Logger :=
  match value.bind Level.parse? with
  | some level => ⟨level⟩
  | none => default

def enabled (l : Logger) (level : Level) : Bool := level.rank ≤ l.level.rank

/-- What is written of some records. -/
def write (l : Logger) (rs : List Record) : String :=
  String.join ((rs.filter fun r => l.enabled r.level).map Record.line)

end Logger

end Prenex.Log
