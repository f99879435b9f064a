import TreeAxes.Markup.Reference

/-!
# Escaped values

References in a value stand for one character each: one of five that have a name, or the one with
the code point that is written. Such a number has no sign and is not zero.
-/

namespace TreeAxes.Markup

/-- The characters that have a name. -/
def predefined? (name : List Char) : Option Char :=
  match String.ofList name with
  | "lt" => some '<'
  | "gt" => some '>'
  | "amp" => some '&'
  | "apos" => some '\''
  | "quot" => some '"'
  | _ => none

/-- The character that a reference in a value stands for. -/
def attributeReference? : List Char → Option Char
  | '#' :: code =>
    ((number? (numeric code).1 (numeric code).2).filter (· ≠ 0)).bind scalar?
  | name => predefined? name

/-- Replaces the references in a value. `pending` holds the name, read backwards, of a reference
that has begun. -/
def unescapeFrom : Option (List Char) → List Char → Except Fault (List Char)
  | none, [] => .ok []
  | some _, [] => .error .unclosedReference
  | none, c :: cs =>
    if c = '&' then unescapeFrom (some []) cs
    else (unescapeFrom none cs).map (c :: ·)
  | some name, c :: cs =>
    if c = ';' then
      match attributeReference? name.reverse with
      | some d => (unescapeFrom none cs).map (d :: ·)
      | none => .error (.invalidReference (.ofList name.reverse))
    else if c = '&' then .error .unclosedReference
    else unescapeFrom (some (c :: name)) cs

def unescape (cs : List Char) : Except Fault (List Char) := unescapeFrom none cs

end TreeAxes.Markup
