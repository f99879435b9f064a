import TreeAxes.Markup.Error

/-!
# Readers of markup

A reader takes markup apart: a text into events, what stands in a tag into attributes, and a value
into characters. It goes on to the end or to the first fault. Whether tags match and which
references stand for what are questions for the reader; what is made of the answers is not.
-/

namespace TreeAxes.Markup

/-- The space characters of markup. -/
def isSpace (c : Char) : Bool := c = ' ' || c = '\t' || c = '\n' || c = '\r'

/-- An attribute as it is written. -/
structure RawAttribute where
  key : List Char
  value : List Char
deriving DecidableEq, Repr

inductive Event where
  /-- A start tag: name and attribute list as written. -/
  | start (name attributes : List Char)
  /-- A tag that opens and closes an element. -/
  | empty (name attributes : List Char)
  | stop (name : List Char)
  /-- Character data without references. -/
  | text (data : List Char)
  /-- A reference in character data, by what stands between `&` and `;`. -/
  | reference (name : List Char)
  | cdata (data : List Char)
  | comment (data : List Char)
  /-- An instruction, a document type or a declaration of the format. -/
  | declaration
deriving DecidableEq, Repr

structure Reader where
  /-- The events of a text, and the fault that ends them if there is one. -/
  events : String → List Event × Option Fault
  /-- The attributes in a tag, and the fault that ends them if there is one. -/
  attributes : List Char → List RawAttribute × Option Fault
  /-- Replaces the references in a value. -/
  unescape : List Char → Except Fault (List Char)
  /-- The character data that a name stands for without being a number. -/
  predefined? : List Char → Option (List Char)

end TreeAxes.Markup
