import TreeAxes.Node.Ref

/-!
# Cursors

A cursor walks over the nodes of several lists, one list after the other, and can skip
whole lists without visiting their nodes.
-/

namespace TreeAxes

/-- What is left of the current list, the lists after it, and how many nodes that is. -/
structure Cursor where
  current : List NodeRef
  later : List (List NodeRef)
  remaining : Nat

namespace Cursor

def ofLists (lists : List (List NodeRef)) : Cursor :=
  ⟨[], lists, lists.foldr (fun nodes count => nodes.length + count) 0⟩

/-- A cursor over one node. -/
def ofNode (node : NodeRef) : Cursor := ofLists [[node]]

/-- The nodes that are still to come. -/
def rest (c : Cursor) : List NodeRef := c.current ++ c.later.flatten

/-- Steps to the next node. -/
def next (c : Cursor) : Option NodeRef × Cursor :=
  match c.current with
  | node :: nodes => (some node, ⟨nodes, c.later, c.remaining - 1⟩)
  | [] => enter c.later
where
  /-- Steps to the first node of the given lists. -/
  enter : List (List NodeRef) → Option NodeRef × Cursor
    | [] => (none, ⟨[], [], c.remaining⟩)
    | [] :: lists => enter lists
    | (node :: nodes) :: lists => (some node, ⟨nodes, lists, c.remaining - 1⟩)

/-- Leaves out `n` nodes, which must be there. -/
def advance (n : Nat) (current : List NodeRef) :
    List (List NodeRef) → List NodeRef × List (List NodeRef)
  | [] => (current.drop n, [])
  | list :: lists =>
    if n < current.length then (current.drop n, list :: lists)
    else advance (n - current.length) list lists

/-- Skips up to `n` nodes and says how many it skipped. -/
def skip (c : Cursor) (n : Nat) : Nat × Cursor :=
  let skipped := min n c.remaining
  let (current, later) := advance skipped c.current c.later
  (skipped, ⟨current, later, c.remaining - skipped⟩)

end Cursor

end TreeAxes
