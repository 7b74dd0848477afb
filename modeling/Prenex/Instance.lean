import Prenex.Unify.Problem
/-!
# Using one type for another

A term of type `actual` can be used where `required` is asked for if the variables of `actual` can
be chosen so that it becomes `required`. The variables of `required` are not ours to choose, so they
are held rigid.
-/

namespace Prenex.Ty

/-- The problem that decides if `required` is an instance of `actual`. -/
def instanceProblem (required actual : Ty) : Problem := Problem.empty.push required.skolemize actual

def checkInstance (required actual : Ty) : Except TypeError Unit :=
  match (instanceProblem required actual).solve with
  | .ok _ => .ok ()
  | .error e => .error e

end Prenex.Ty
