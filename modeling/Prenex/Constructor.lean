import Prenex.Fingerprint
import Prenex.Text.Quoted
/-!
# Type constructors

A constructor is a qualified name with its fingerprint. Only the fingerprint counts when two of them
are compared: `==` may hold of constructors whose names differ.
-/

namespace Prenex

structure QualifiedName where
  package : String
  module : String
  name : String
deriving DecidableEq

namespace QualifiedName

def text (q : QualifiedName) : String := q.package ++ ":" ++ q.module ++ "." ++ q.name

def fingerprint (q : QualifiedName) : Fingerprint := .ofName q.package q.module q.name

end QualifiedName

/-- The fingerprint is stored, so that comparing does not hash again. -/
structure Constructor extends QualifiedName where
  fingerprint : Fingerprint
  fingerprint_eq : fingerprint = toQualifiedName.fingerprint

namespace Constructor

def ofName (q : QualifiedName) : Constructor := ⟨q, q.fingerprint, rfl⟩

def of (package module name : String) : Constructor := ofName ⟨package, module, name⟩

instance : BEq Constructor := ⟨fun c d => c.fingerprint == d.fingerprint⟩

instance : Ord Constructor := ⟨fun c d => compare c.fingerprint d.fingerprint⟩

theorem eq_of_toQualifiedName_eq {c d : Constructor} (h : c.toQualifiedName = d.toQualifiedName) :
    c = d := by
  obtain ⟨q, f, hf⟩ := c
  obtain ⟨r, g, hg⟩ := d
  obtain rfl : q = r := h
  obtain rfl : f = g := hf.trans hg.symm
  rfl

/-- A name made of parentheses around `n` commas is a tuple of `n + 1` elements. `()` is none. -/
def tupleArity (c : Constructor) : Option Nat :=
  match c.name.toList with
  | '(' :: rest =>
    match rest.reverse with
    | ')' :: commas =>
      if !commas.isEmpty && commas.all (· == ',') then some (commas.length + 1) else none
    | _ => none
  | _ => none

/-- One line for a developer's eyes. -/
def inspect (c : Constructor) : String :=
  "TyCon \x7b name: " ++ Text.quoted c.toQualifiedName.text ++ ", fingerprint: " ++
    c.fingerprint.text ++ " \x7d"

end Constructor

end Prenex
