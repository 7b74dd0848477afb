import Prenex.Log.Logged
import Prenex.Journal.Event
import Prenex.Instance
import Prenex.Application
import Prenex.Wire.Decode
/-!
# What the operations log

Each operation again, with its events. They never change the result.
-/

namespace Prenex.Journal

open Log

abbrev Journaled := Logged Event

/-! ## Unification -/

def solve (p : Problem) : Journaled (Except TypeError Substitution) :=
  let (made, result) := p.run
  let failed :=
    match result with
    | .ok _ => []
    | .error e => [.unificationFailed e]
  ⟨result, made.map (fun b => .bound b.1 b.2) ++ failed⟩

def unify (l r : Ty) : Journaled (Except TypeError Substitution) := solve (Problem.empty.push l r)

def checkInstance (required actual : Ty) : Journaled (Except TypeError Unit) := do
  match ← solve (required.instanceProblem actual) with
  | .ok _ => return .ok ()
  | .error e =>
    note (.notInstance required actual e)
    return .error e

def resultType (f a : Ty) : Journaled (Except ApplicationError Ty) :=
  match Application.of? f a with
  | none => return .error .supplyExhausted
  | some apart => return apart.outcome (← solve apart.problem)

/-! ## Bytes -/

def decodePrefix (bs : Bytes) : Journaled (Except Wire.Fault (Ty × Nat)) := do
  let result := Ty.decodePrefix bs
  if let .error e := result then
    note (.decodeFailed e)
  return result

def decode (bs : Bytes) : Journaled (Except Wire.Fault Ty) := do
  let result := Ty.decode bs
  if let .error e := result then
    note (.decodeFailed e)
  return result

/-! ## The registry -/

def register (r : Registry) (q : QualifiedName) :
    Journaled (Except Collision Constructor × Registry) := do
  match r.owner? q with
  | .error c => note (.collided c)
  | .ok (some _) => pure ()
  | .ok none => note (.registered q)
  return r.register q

def lookup (r : Registry) (q : QualifiedName) : Journaled (Option Constructor) := do
  if let .error c := r.owner? q then
    note (.collided c)
  return r.lookup q

def contains (r : Registry) (q : QualifiedName) : Journaled Bool := do
  return (← lookup r q).isSome

/-! ## The results are the same -/

theorem value_solve (p : Problem) : (solve p).value = p.solve := p.run_snd

theorem value_unify (l r : Ty) : (unify l r).value = l.unify r := value_solve _

theorem value_checkInstance (required actual : Ty) :
    (checkInstance required actual).value = required.checkInstance actual := by
  unfold checkInstance Ty.checkInstance
  rw [value_bind, value_solve]
  cases (required.instanceProblem actual).solve <;> rfl

theorem value_resultType (f a : Ty) : (resultType f a).value = f.resultType a := by
  unfold resultType Ty.resultType
  cases Application.of? f a with
  | none => rfl
  | some apart => rw [value_bind, value_solve, value_pure]

theorem value_decodePrefix (bs : Bytes) : (decodePrefix bs).value = Ty.decodePrefix bs := by
  unfold decodePrefix
  dsimp only
  split <;> simp

theorem value_decode (bs : Bytes) : (decode bs).value = Ty.decode bs := by
  unfold decode
  dsimp only
  split <;> simp

theorem value_register (r : Registry) (q : QualifiedName) :
    (register r q).value = r.register q := by
  unfold register
  split <;> simp

theorem value_lookup (r : Registry) (q : QualifiedName) : (lookup r q).value = r.lookup q := by
  unfold lookup
  split <;> simp

theorem value_contains (r : Registry) (q : QualifiedName) :
    (contains r q).value = r.contains q := by
  unfold contains Registry.contains
  rw [value_bind, value_lookup, value_pure]

end Prenex.Journal
