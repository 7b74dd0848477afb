import Prenex.Ty.Basic
/-!
# A type as a flat list

The nodes of a type from left to right, each head before its arguments and with their number. Types
may be nested deeper than the machine's stack is tall, so the list is made from a worklist, without
recursion into the tree.
-/

namespace Prenex.Ty

theorem totalSize_args_append_lt (h : Head) (ts rest : List Ty) :
    totalSize (ts ++ rest) < totalSize (.app h ts :: rest) := by
  rw [totalSize_append, totalSize, size_app]
  omega

/-- Adds the nodes of the types in `work` to `done`, which is held backwards. -/
def preorderOnto (done : List (Head × Nat)) : (work : List Ty) → List (Head × Nat)
  | [] => done.reverse
  | .app h ts :: rest => preorderOnto ((h, ts.length) :: done) (ts ++ rest)
termination_by work => totalSize work
decreasing_by exact totalSize_args_append_lt h ts rest

def preorder (t : Ty) : List (Head × Nat) := preorderOnto [] [t]

/-! ## The same list by recursion into the tree -/

theorem preorderOnto_cons (done : List (Head × Nat)) (h : Head) (ts rest : List Ty) :
    preorderOnto done (.app h ts :: rest) = preorderOnto ((h, ts.length) :: done) (ts ++ rest) := by
  rw [preorderOnto]

theorem preorderOnto_eq_append (done : List (Head × Nat)) (work : List Ty) :
    preorderOnto done work = done.reverse ++ preorderOnto [] work := by
  match work with
  | [] => simp [preorderOnto]
  | .app h ts :: rest =>
    rw [preorderOnto_cons, preorderOnto_cons, preorderOnto_eq_append (_ :: done),
      preorderOnto_eq_append [_]]
    simp
termination_by totalSize work
decreasing_by
  · exact totalSize_args_append_lt h ts rest
  · exact totalSize_args_append_lt h ts rest

theorem preorderOnto_append (ts us : List Ty) :
    preorderOnto [] (ts ++ us) = preorderOnto [] ts ++ preorderOnto [] us := by
  match ts with
  | [] => simp [preorderOnto]
  | .app h args :: rest =>
    rw [List.cons_append, preorderOnto_cons, preorderOnto_cons, preorderOnto_eq_append [_],
      preorderOnto_eq_append [_], ← List.append_assoc args, preorderOnto_append (args ++ rest),
      List.append_assoc]
termination_by totalSize ts
decreasing_by exact totalSize_args_append_lt h args rest

theorem preorderOnto_eq_flatMap (ts : List Ty) : preorderOnto [] ts = ts.flatMap preorder := by
  induction ts with
  | nil => simp [preorderOnto]
  | cons t ts ih =>
    rw [List.flatMap_cons, ← ih, preorder, ← preorderOnto_append]
    rfl

@[simp] theorem preorder_app (h : Head) (ts : List Ty) :
    preorder (.app h ts) = (h, ts.length) :: ts.flatMap preorder := by
  rw [preorder, preorderOnto_cons, List.append_nil, preorderOnto_eq_append, preorderOnto_eq_flatMap]
  rfl

end Prenex.Ty
