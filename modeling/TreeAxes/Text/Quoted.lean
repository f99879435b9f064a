import TreeAxes.Text.Hidden

/-!
# Quoted text

Diagnostic texts show a string between double quotes. Quotes, backslashes and the usual
control characters are written with a backslash, all other hidden characters as their
hexadecimal code point.
-/

namespace TreeAxes.Text

/-- Hexadecimal digits in lower case. -/
def hex (n : Nat) : String := String.ofList (Nat.toDigits 16 n)

/-- How one character is written between double quotes. -/
def escapeChar (c : Char) : String :=
  if c = '"' then "\\\""
  else if c = '\\' then "\\\\"
  else if c = '\n' then "\\n"
  else if c = '\r' then "\\r"
  else if c = '\t' then "\\t"
  else if c = '\x00' then "\\0"
  else if isHidden c then "\\u\x7b" ++ hex c.toNat ++ "\x7d"
  else c.toString

def quoted (s : String) : String :=
  "\"" ++ String.join (s.toList.map escapeChar) ++ "\""

end TreeAxes.Text
