import Striping.Text.Combining
import Striping.Text.Invisible

/-!
# Quoted text

Text members of a record are shown in double quotes, on one line, with every
character that would not show written as an escape.

* `Text.escape`: how one character is written.
* `Text.quote`: the quoted text.
-/

namespace Striping.Text

/-- Membership of a code point in a table of ranges. -/
def covers (table : List (Nat × Nat)) (code : Nat) : Bool :=
  table.any fun (low, high) => low ≤ code && code ≤ high

/-- Holds of the characters that are written as themselves. -/
def isPlain (c : Char) : Bool := !covers combining c.toNat && !covers invisible c.toNat

/-- The code point in hexadecimal, between braces. -/
def hexEscape (c : Char) : String :=
  String.ofList (['\\', 'u', '\x7b'] ++ Nat.toDigits 16 c.toNat ++ ['\x7d'])

/-- How one character is written between the quotes. -/
def escape (c : Char) : String :=
  if c = '\x00' then "\\0"
  else if c = '\t' then "\\t"
  else if c = '\r' then "\\r"
  else if c = '\n' then "\\n"
  else if c = '\\' then "\\\\"
  else if c = '"' then "\\\""
  else if isPlain c then c.toString
  else hexEscape c

/-- The text in double quotes. -/
def quote (s : String) : String := "\"" ++ String.join (s.toList.map escape) ++ "\""

end Striping.Text
