import TreeAxes.Markup.Reference
import TreeAxes.Text.Blank
import TreeAxes.Tree

/-!
# From events to trees

A builder takes the events of a reader one by one. It keeps the elements that are open, the
character data that is not yet a text node, and the finished root. Character data becomes a text
node when any other event follows, unless it is blank; outside the root it is dropped, as comments
are. Instructions and document types are dropped everywhere, declarations of namespaces are not
attributes. An end tag closes the innermost open element, whatever its name.
-/

namespace TreeAxes.Markup

/-- An element whose end tag has not come yet. -/
structure OpenElement where
  name : List Char
  attributes : List Attribute
  children : List Tree

namespace OpenElement

def withChild (e : OpenElement) (child : Tree) : OpenElement :=
  { e with children := e.children ++ [child] }

def toTree (e : OpenElement) : Tree :=
  .node (.element (.ofList e.name)) e.attributes e.children

end OpenElement

/-- The state of building a tree; the innermost open element comes first. -/
structure Builder where
  openElements : List OpenElement
  root : Option Tree
  pending : List Char

namespace Builder

def empty : Builder := ⟨[], none, []⟩

/-- Puts a tree below the innermost open element. -/
def addChild (b : Builder) (tree : Tree) : Builder :=
  match b.openElements with
  | [] => b
  | e :: es => { b with openElements := e.withChild tree :: es }

/-- Turns pending character data into a text node. -/
def flush (b : Builder) : Builder :=
  let cleared := { b with pending := [] }
  if b.pending.all Text.isBlank then cleared
  else cleared.addChild (.leaf (.text (.ofList b.pending)))

def appendText (b : Builder) (data : List Char) : Builder :=
  { b with pending := b.pending ++ data }

/-- Puts a finished element below the innermost open one, or makes it the root. -/
def attach (b : Builder) (tree : Tree) : Except Error Builder :=
  match b.openElements, b.root with
  | _ :: _, _ => .ok (b.addChild tree)
  | [], some _ => .error .multipleRoots
  | [], none => .ok { b with root := some tree }

/-- Closes the innermost open element. -/
def close (b : Builder) : Except Error Builder :=
  match b.openElements with
  | [] => .error .unbalancedEndTag
  | e :: es => { b with openElements := es }.attach e.toTree

/-- The finished tree: there must be a root and no open element. -/
def finish (b : Builder) : Except Error Tree :=
  if b.openElements.isEmpty then
    match b.root with
    | some root => .ok root
    | none => .error .noRoot
  else .error .unclosedElement

/-- Whether an attribute declares a namespace. -/
def isNamespaceDeclaration (key : List Char) : Bool :=
  key = "xmlns".toList || "xmlns:".toList.isPrefixOf key

variable (r : Reader)

/-- The attributes of an element, without declarations of namespaces. -/
def unescapeAll : List RawAttribute → Except Fault (List Attribute)
  | [] => .ok []
  | raw :: raws =>
    if isNamespaceDeclaration raw.key then unescapeAll raws
    else do
      let value ← r.unescape raw.value
      return ⟨.ofList raw.key, .ofList value⟩ :: (← unescapeAll raws)

/-- The element that a tag opens. A fault in a value comes before one in the list behind it. -/
def openElement (name attributes : List Char) : Except Error OpenElement :=
  match unescapeAll r (r.attributes attributes).1, (r.attributes attributes).2 with
  | .ok attributes, none => .ok ⟨name, attributes, []⟩
  | .ok _, some fault => .error (.malformed fault)
  | .error fault, _ => .error (.malformed fault)

def take (b : Builder) : Event → Except Error Builder
  | .text data =>
    match r.unescape data with
    | .ok value => .ok (b.appendText value)
    | .error fault => .error (.malformed fault)
  | .cdata data => .ok (b.appendText data)
  | .reference name =>
    match r.reference? name with
    | some data => .ok (b.appendText data)
    | none => .error (.unknownEntity (.ofList name))
  | .comment data => .ok (b.flush.addChild (.leaf (.comment (.ofList (Text.trim data)))))
  | .declaration => .ok b.flush
  | .start name attributes => do
    let e ← openElement r name attributes
    let flushed := b.flush
    return { flushed with openElements := e :: flushed.openElements }
  | .empty name attributes => do
    let e ← openElement r name attributes
    b.flush.attach e.toTree
  | .stop _ => b.flush.close

def takeAll : Builder → List Event → Except Error Builder
  | b, [] => .ok b
  | b, event :: events => do takeAll (← take r b event) events

/-- The tree that a builder comes to over the events that are left. An error in an event comes
before the fault behind it. -/
def readOn (b : Builder) (events : List Event) (fault : Option Fault) : Except Error Tree := do
  let b ← b.takeAll r events
  match fault with
  | some fault => .error (.malformed fault)
  | none => b.finish

end Builder

namespace Reader

/-- The tree that a sequence of events describes. -/
def treeOfEvents (r : Reader) (events : List Event) : Except Error Tree :=
  Builder.empty.readOn r events none

/-- The tree that a text describes. -/
def parse (r : Reader) (text : String) : Except Error Tree :=
  Builder.empty.readOn r (r.events text).1 (r.events text).2

end Reader

end TreeAxes.Markup
