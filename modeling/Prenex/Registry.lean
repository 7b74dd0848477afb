import Std.Data.HashMap
import Prenex.Builtin
/-!
# The registry

A table of constructors by fingerprint. The first name that is registered owns its fingerprint:
another name with the same one is turned away.
-/

namespace Prenex

structure Registry where
  table : Std.HashMap Fingerprint Constructor

/-- Two names with one fingerprint. -/
structure Collision where
  existing : Constructor
  requested : QualifiedName

def Collision.message (c : Collision) : String :=
  "fingerprint " ++ c.existing.fingerprint.text ++ " of " ++ c.requested.text ++
    " already belongs to " ++ c.existing.toQualifiedName.text

namespace Registry

def empty : Registry := ⟨∅⟩

def size (r : Registry) : Nat := r.table.size

def find? (r : Registry) (f : Fingerprint) : Option Constructor := r.table[f]?

/-- Who owns the fingerprint of `q`, if that is `q` itself or nobody. -/
def owner? (r : Registry) (q : QualifiedName) : Except Collision (Option Constructor) :=
  match r.find? q.fingerprint with
  | none => .ok none
  | some c => if c.toQualifiedName = q then .ok (some c) else .error ⟨c, q⟩

def insert (r : Registry) (c : Constructor) : Registry := ⟨r.table.insert c.fingerprint c⟩

def register (r : Registry) (q : QualifiedName) : Except Collision Constructor × Registry :=
  match r.owner? q with
  | .error e => (.error e, r)
  | .ok (some c) => (.ok c, r)
  | .ok none =>
    let c := Constructor.ofName q
    (.ok c, r.insert c)

def lookup (r : Registry) (q : QualifiedName) : Option Constructor :=
  match r.owner? q with
  | .ok found => found
  | .error _ => none

def contains (r : Registry) (q : QualifiedName) : Bool := (r.lookup q).isSome

/-- A builtin whose fingerprint has an owner is left out. -/
def insertBuiltin (r : Registry) (c : Constructor) : Registry :=
  match r.find? c.fingerprint with
  | some _ => r
  | none => r.insert c

/-- The registry that every program starts with. -/
def builtin : Registry := Builtin.all.foldl insertBuiltin empty

/-- One line for a developer's eyes. -/
def inspect (r : Registry) : String := "Registry \x7b len: " ++ toString r.size ++ " \x7d"

end Registry

end Prenex
