import Prenex.Ty.Basic
/-!
# Types of the host program

How the types of values in a program are seen as types here. Pointers do not show, every sequence is
a list, and a function of several parameters is curried. A marker stands for a type variable, so a
polymorphic type can be written down like any other.
-/

namespace Prenex

/-- How many bits a number has. A pointer has 64. -/
inductive Width where
  | bits8
  | bits16
  | bits32
  | bits64
  | pointer

inductive HostType where
  | signed (w : Width)
  | unsigned (w : Width)
  | float32
  | float64
  | bool
  | char
  | text
  | unit
  | pointer (target : HostType)
  | sequence (element : HostType)
  | option (value : HostType)
  | result (value error : HostType)
  | tuple (elements : List HostType)
  | function (parameters : List HostType) (result : HostType)
  | marker (i : Fin 10)

namespace HostType

def signedName : Width → String
  | .bits8 => "Int8"
  | .bits16 => "Int16"
  | .bits32 => "Int32"
  | .bits64 | .pointer => "Int"

def unsignedName : Width → String
  | .bits8 => "Word8"
  | .bits16 => "Word16"
  | .bits32 => "Word32"
  | .bits64 | .pointer => "Word"

def builtin (name : String) (ts : List Ty) : Ty := .con (Builtin.named name) ts

mutual

def ty : HostType → Ty
  | .signed w => builtin (signedName w) []
  | .unsigned w => builtin (unsignedName w) []
  | .float32 => builtin "Float" []
  | .float64 => builtin "Double" []
  | .bool => builtin "Bool" []
  | .char => builtin "Char" []
  | .text => builtin "String" []
  | .unit => .tuple []
  | .pointer t => ty t
  | .sequence t => .list (ty t)
  | .option t => builtin "Option" [ty t]
  | .result t e => builtin "Result" [ty t, ty e]
  | .tuple ts => .tuple (tys ts)
  | .function ps r => (tys ps).foldr .fn (ty r)
  | .marker i => .var (UInt32.ofNat i)

def tys : List HostType → List Ty
  | [] => []
  | t :: ts => ty t :: tys ts

end

end HostType

end Prenex
