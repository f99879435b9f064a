/-!
# Errors in markup

A text fails to describe a tree because its markup is malformed or because the elements in
it do not form one tree. What is wrong with malformed markup is up to who reads it.
-/

namespace TreeAxes.Markup

/-- Why markup is malformed. -/
inductive Fault where
  | unclosedTag
  | unknownDeclaration
  | unclosedComment
  | unclosedCData
  | unclosedDoctype
  | unnamedDoctype
  | unclosedInstruction
  | unclosedReference
  | unmatchedEndTag (name : String)
  | mismatchedEndTag (expected found : String)
  | missingEquals (key : String)
  | missingValue (key : String)
  | unquotedValue (key : String)
  | unclosedValue (key : String)
  | duplicateAttribute (key : String)
  | invalidReference (name : String)
deriving DecidableEq, Repr

inductive Error where
  | malformed (fault : Fault)
  | unbalancedEndTag
  | unclosedElement
  | unknownEntity (name : String)
  | noRoot
  | multipleRoots
deriving DecidableEq, Repr

namespace Error

/-- The text of an error. Malformed markup is reported without a text. -/
def message? : Error → Option String
  | malformed _ => none
  | unbalancedEndTag => some "XML parsing failed: unbalanced end tag"
  | unclosedElement => some "XML parsing failed: unclosed element"
  | unknownEntity name => some s!"XML parsing failed: unknown entity &{name};"
  | noRoot => some "document has no root element"
  | multipleRoots => some "document has more than one root element"

end Error

end TreeAxes.Markup
