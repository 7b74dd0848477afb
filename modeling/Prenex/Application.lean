import Prenex.Supply
import Prenex.Unify.Problem
/-!
# Applying a function

What a function of one type gives for an argument of another. Both types have their own variables,
so they are renamed apart first. The result is in normal form.
-/

namespace Prenex

inductive ApplicationError where
  | type (e : TypeError)
  /-- There are not enough indices to rename the types apart. -/
  | supplyExhausted

def ApplicationError.message : ApplicationError → String
  | .type e => e.message
  | .supplyExhausted => "variable supply exhausted"

/-- A function and its argument with no variable in common, and a variable for the result. -/
structure Application where
  function : Ty
  argument : Ty
  result : Index

namespace Application

/-- Fails only if the two types have more variables than there are indices. -/
def of? (f a : Ty) : Option Application :=
  match Supply.new.freshen f with
  | (none, _) => none
  | (some f, s) =>
    match s.freshen a with
    | (none, _) => none
    | (some a, s) =>
      match s.fresh? with
      | none => none
      | some (r, _) => some ⟨f, a, r⟩

def problem (apart : Application) : Problem :=
  Problem.empty.push apart.function (.fn apart.argument (.var apart.result))

/-- What a solution of the problem, or an error in it, says about the application. -/
def outcome (apart : Application) : Except TypeError Substitution → Except ApplicationError Ty
  | .error e => .error (.type e)
  | .ok s => .ok (s.apply (.var apart.result)).normalize

end Application

def Ty.resultType (f a : Ty) : Except ApplicationError Ty :=
  match Application.of? f a with
  | none => .error .supplyExhausted
  | some apart => apart.outcome apart.problem.solve

end Prenex
