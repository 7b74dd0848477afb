import Prenex.Ty.Basic
/-!
# Types as text

`Int -> [Bool]`, `(ANY -> ANY1) -> ANY1`, `Option (ANY1 Int)`. The arrow, the list and the tuples
have a layout of their own, as long as they have the right number of arguments. Everything else is a
head with its arguments behind it.
-/

namespace Prenex

/-- Where a type is written, which decides if it needs parentheses. -/
inductive Place where
  /-- On its own, right of an arrow, or inside brackets. -/
  | top
  /-- Left of an arrow. -/
  | parameter
  /-- Behind a head. -/
  | argument
deriving DecidableEq

inductive Layout where
  | arrow
  | brackets
  | tuple
  | applied
deriving DecidableEq

namespace Layout

/-- The layout of a head with `n` arguments. -/
def of : Head → (n : Nat) → Layout
  | .con c, n =>
    if n == 2 && c == Builtin.fn then .arrow
    else if n == 1 && c == Builtin.list then .brackets
    else if c.tupleArity == some n then .tuple
    else .applied
  | _, _ => .applied

/-- Where the first argument stands. -/
def first : Layout → Place
  | .arrow => .parameter
  | .brackets | .tuple => .top
  | .applied => .argument

/-- Where the arguments after the first stand. -/
def later : Layout → Place
  | .arrow | .brackets | .tuple => .top
  | .applied => .argument

end Layout

/-- Index 0 is not written. -/
def indexText (i : Index) : String := if i = 0 then "" else toString i.toNat

def Head.text : Head → String
  | .con c => c.name
  | .var i => "ANY" ++ indexText i
  | .skolem i => "SKOLEM" ++ indexText i

namespace Ty

def inParens (needed : Bool) (s : String) : String := if needed then "(" ++ s ++ ")" else s

/-- Puts a type together from the texts of its arguments. -/
def assemble (place : Place) (layout : Layout) (h : Head) (texts : List String) : String :=
  match layout with
  | .arrow => inParens (place != .top) (" -> ".intercalate texts)
  | .brackets => "[" ++ String.join texts ++ "]"
  | .tuple => "(" ++ ",".intercalate texts ++ ")"
  | .applied => inParens (place == .argument && !texts.isEmpty) (" ".intercalate (h.text :: texts))

/-- Writes each type at its place: the head of the list at `p`, the others at `q`. -/
def textsAt (p q : Place) : List (Place → String) → List String
  | [] => []
  | w :: ws => w p :: ws.map (· q)

def textAt (t : Ty) (place : Place) : String :=
  t.fold (fun h writers place =>
    let layout := Layout.of h writers.length
    assemble place layout h (textsAt layout.first layout.later writers)) place

def text (t : Ty) : String := t.textAt .top

/-- One line for a developer's eyes. -/
def inspect (t : Ty) : String := "TypeRep(" ++ t.text ++ ")"

theorem textAt_app (h : Head) (ts : List Ty) (place : Place) :
    textAt (.app h ts) place =
      assemble place (.of h ts.length) h
        (textsAt (Layout.of h ts.length).first (Layout.of h ts.length).later (ts.map textAt)) := by
  simp only [textAt, fold_app, List.length_map]
  rfl

end Ty

end Prenex
