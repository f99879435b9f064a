import TreeAxes.Markup.Attributes
import TreeAxes.Markup.Builder
import TreeAxes.Markup.Escape

/-!
# Trees of texts

Texts are read by scanning them.
-/

namespace TreeAxes.Markup

def scanner : Reader where
  events text :=
    let (events, fault) := eventsOf (dropMark text.toList)
    matchTags [] fault events
  attributes := readAttributes []
  unescape := unescape
  predefined? name := (predefined? name).map ([·])

/-- The tree that a text describes. -/
def parse (text : String) : Except Error Tree := scanner.parse text

end TreeAxes.Markup
