/-!
# Qualified names

Two names agree when their local parts and namespaces do. The label before the colon only
says how a name was written.
-/

namespace TreeAxes

structure QName where
  localPart : String
  space : Option String := none
  label : Option String := none
deriving Repr

namespace QName

/-- A name without a namespace. -/
def ofLocal (localPart : String) : QName := { localPart }

def agrees (a b : QName) : Bool := a.localPart = b.localPart && a.space = b.space

/-- The text of a name: with its label if it has one, else with its namespace in braces. -/
def text (name : QName) : String :=
  match name.label, name.space with
  | some label, _ => label ++ ":" ++ name.localPart
  | none, some space => "Q\x7b" ++ space ++ "\x7d" ++ name.localPart
  | none, none => name.localPart

/-- The names of a list, without those that agree with an earlier one. -/
def distinct (names : List QName) : List QName := names.eraseDupsBy agrees

end QName

end TreeAxes
