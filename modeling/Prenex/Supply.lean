import Prenex.Ty.Instantiate
/-!
# Fresh variables

A supply hands out indices in ascending order and each of them once. After the last index it is dry
for ever.
-/

namespace Prenex

structure Supply where
  /-- The next index, or one past the last if the supply is dry. -/
  next : Nat
  next_le : next ≤ indexCount

namespace Supply

def startingAt (i : Index) : Supply := ⟨i.toNat, Nat.le_of_lt i.toNat_lt⟩

def new : Supply := startingAt 0

def peek? (s : Supply) : Option Index :=
  if s.next < indexCount then some (UInt32.ofNat s.next) else none

def fresh? (s : Supply) : Option (Index × Supply) :=
  if h : s.next < indexCount then some (UInt32.ofNat s.next, ⟨s.next + 1, h⟩) else none

/-- Hands out `n` indices, or as many as there are. -/
def take (s : Supply) : (n : Nat) → List Index × Supply
  | 0 => ([], s)
  | n + 1 =>
    match s.fresh? with
    | none => ([], s)
    | some (i, s) =>
      let (is, s) := s.take n
      (i :: is, s)

/-- Gives each variable of `t` a fresh index, in the order in which they first occur. There is no
type if the supply runs dry on the way. -/
def freshen (s : Supply) (t : Ty) : Option Ty × Supply :=
  let vars := t.vars
  let (fresh, s) := s.take vars.length
  (if fresh.length = vars.length then some (t.rename (Ty.byTable (vars.zip fresh))) else none, s)

end Supply

end Prenex
