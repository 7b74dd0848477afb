/-!
# Hexadecimal text

Lower-case digits, filled up with zeros on the left.
-/

namespace Prenex.Text

/-- At least `width` digits. -/
def hex (width n : Nat) : String :=
  let digits := Nat.toDigits 16 n
  String.ofList (List.replicate (width - digits.length) '0' ++ digits)

end Prenex.Text
