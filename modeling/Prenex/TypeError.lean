import Prenex.Ty.Printer
/-!
# Why two types do not fit
-/

namespace Prenex

inductive TypeError where
  | mismatch (left right : Ty)
  /-- The variable stands inside the type it should be equal to. -/
  | occursCheck (var : Index) (ty : Ty)

namespace TypeError

def message : TypeError → String
  | .mismatch l r => "cannot unify " ++ l.text ++ " and " ++ r.text
  | .occursCheck x t =>
    "occurs check: cannot construct infinite type " ++ (Ty.var x).text ++ " ~ " ++ t.text

def description : TypeError → String
  | .mismatch .. => "type mismatch"
  | .occursCheck .. => "infinite type"

end TypeError

end Prenex
