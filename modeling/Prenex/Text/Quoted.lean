import Prenex.Text.Hex
/-!
# Quoted text

Text between double quotes, on one line. The text is ASCII: a quote and a backslash get a backslash
in front, four control characters have a letter, and every other one is written by its number.
-/

namespace Prenex.Text

def quotedChar (c : Char) : String :=
  match c with
  | '"' => "\\\""
  | '\\' => "\\\\"
  | '\n' => "\\n"
  | '\t' => "\\t"
  | '\r' => "\\r"
  | '\x00' => "\\0"
  | c =>
    if c.toNat < 0x20 || c.toNat == 0x7f then "\\u\x7b" ++ hex 1 c.toNat ++ "\x7d" else c.toString

def quoted (s : String) : String :=
  "\"" ++ String.join (s.toList.map quotedChar) ++ "\""

end Prenex.Text
