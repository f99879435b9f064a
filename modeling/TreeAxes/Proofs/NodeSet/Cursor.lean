import TreeAxes.NodeSet.Query

/-!
# Walking with a cursor

A cursor that is stepped until it ends visits the nodes it has left, each once and in
order. The lists it was made from, and the empty ones among them, do not show.
-/

namespace TreeAxes

namespace Cursor

variable {c : Cursor} {node : NodeRef} {nodes : List NodeRef}

theorem enter_eq (c : Cursor) (lists : List (List NodeRef)) :
    (next.enter c lists).1 = lists.flatten.head? ∧
      (next.enter c lists).2.rest = lists.flatten.tail := by
  induction lists with
  | nil => exact ⟨rfl, rfl⟩
  | cons list lists ih =>
    cases list with
    | nil => exact ih
    | cons node nodes => exact ⟨rfl, rfl⟩

/-- A step gives the first of the nodes that are left and keeps the others. -/
theorem next_eq (c : Cursor) : c.next.1 = c.rest.head? ∧ c.next.2.rest = c.rest.tail := by
  rw [next, rest]
  cases c.current with
  | nil => exact enter_eq c c.later
  | cons node nodes => exact ⟨rfl, rfl⟩

/-- What stepping visits until no node is left. -/
def visits (c : Cursor) : List NodeRef :=
  match _ : c.next with
  | (some node, later) => node :: later.visits
  | (none, _) => []
termination_by c.rest.length
decreasing_by
  obtain ⟨hhead, htail⟩ := c.next_eq
  cases hrest : c.rest <;> simp_all

theorem visits_eq_rest (c : Cursor) : c.visits = c.rest := by
  fun_induction visits c with
  | case1 c node later h ih =>
    obtain ⟨hhead, htail⟩ := c.next_eq
    rw [h] at hhead htail
    obtain ⟨nodes, hrest⟩ := List.head?_eq_some_iff.mp hhead.symm
    rw [ih, htail, hrest, List.tail_cons]
  | case2 c later h =>
    obtain ⟨hhead, -⟩ := c.next_eq
    rw [h] at hhead
    exact (List.head?_eq_none_iff.mp hhead.symm).symm

@[simp] theorem rest_ofLists (lists : List (List NodeRef)) :
    (ofLists lists).rest = lists.flatten := rfl

end Cursor

namespace NodeSet

/-- The cursor of a set visits its entries. -/
@[simp] theorem visits_cursor (s : NodeSet) : s.cursor.visits = s.nodes := by
  rw [Cursor.visits_eq_rest, cursor, Cursor.rest_ofLists, nodes, List.flatMap_def]

end NodeSet

end TreeAxes
