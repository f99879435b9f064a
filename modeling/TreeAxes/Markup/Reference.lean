import TreeAxes.Markup.Event

/-!
# References in text

A reference stands for character data: a name for what the reader says, a number for the character
with this code point. Numbers are written in decimal or, after an `x`, in hexadecimal digits. A
plus sign may stand in front of the digits, and the number may be zero.
-/

namespace TreeAxes.Markup

/-- Value of a digit in a base up to sixteen. -/
def digit? (base : Nat) (c : Char) : Option Nat :=
  let value :=
    if '0' ≤ c ∧ c ≤ '9' then c.toNat - '0'.toNat
    else if 'a' ≤ c ∧ c ≤ 'f' then c.toNat - 'a'.toNat + 10
    else if 'A' ≤ c ∧ c ≤ 'F' then c.toNat - 'A'.toNat + 10
    else base
  if value < base then some value else none

/-- Reads further digits behind a value. -/
def digitsFrom? (base value : Nat) : List Char → Option Nat
  | [] => some value
  | c :: cs =>
    match digit? base c with
    | some d => digitsFrom? base (value * base + d) cs
    | none => none

/-- A number of at least one digit that fits into 32 bits. -/
def number? (base : Nat) (cs : List Char) : Option Nat :=
  if cs.isEmpty then none else (digitsFrom? base 0 cs).filter (· < UInt32.size)

/-- The character with a code point, unless it is a surrogate or out of range. -/
def scalar? (code : Nat) : Option Char :=
  if h : code.isValidChar then some (Char.ofNatAux code h) else none

/-- The base and the digits of a numeric reference. -/
def numeric : List Char → Nat × List Char
  | 'x' :: digits => (16, digits)
  | digits => (10, digits)

/-- A number that may have a plus sign in front. -/
def signedNumber? (base : Nat) : List Char → Option Nat
  | '+' :: digits => number? base digits
  | digits => number? base digits

/-- The character data that a reference in text stands for. -/
def Reader.reference? (r : Reader) : List Char → Option (List Char)
  | '#' :: code =>
    ((signedNumber? (numeric code).1 (numeric code).2).bind scalar?).map ([·])
  | name => r.predefined? name

end TreeAxes.Markup
