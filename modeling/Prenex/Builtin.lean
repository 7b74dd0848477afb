import Prenex.Constructor
/-!
# Builtin constructors

The type formers that every program knows. They live in one module of one package.
-/

namespace Prenex.Builtin

def package : String := "polyrep"

def module : String := "Builtin"

def named (name : String) : Constructor := .of package module name

def fn : Constructor := named "->"

def list : Constructor := named "[]"

def unit : Constructor := named "()"

/-- The formers with a name of their own. -/
def names : List String :=
  ["->", "[]", "()", "Int", "Int8", "Int16", "Int32", "Word", "Word8", "Word16", "Word32", "Float",
    "Double", "Bool", "Char", "String", "Option", "Result"]

def find? (name : String) : Option Constructor :=
  if names.contains name then some (named name) else none

/-! ## Tuples -/

def tupleName (n : Nat) : String := String.ofList ('(' :: List.replicate (n - 1) ',' ++ [')'])

/-- There is no tuple of fewer than two elements. -/
def tuple? (n : Nat) : Option Constructor :=
  if n < 2 then none else some (named (tupleName n))

/-- The constructors that are registered from the start. -/
def all : List Constructor :=
  names.map named ++ [2, 3, 4, 5, 6].map fun n => named (tupleName n)

end Prenex.Builtin
