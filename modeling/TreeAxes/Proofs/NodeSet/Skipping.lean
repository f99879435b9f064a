import TreeAxes.Proofs.NodeSet.FiniteSet
import TreeAxes.Proofs.Numbering.Words

/-!
# Stepping and skipping

A cursor moves on by two rules of its own: a step visits lists until one has a node left, a skip
passes whole lists. Both have to agree on what is left, however they are mixed and wherever lists
end. The main statement, `NodeSet.skipsAsSteps`, says that a cursor over a set in either order
answers like a place in the list of its distinct nodes. So does a cursor that numbers lists and
places and whose lookups and differences are checked: it never asks for a list that is not there,
and never counts below zero.
-/

namespace TreeAxes

/-- What a cursor is asked. -/
inductive Move where
  | next
  | skip (count : Nat)
deriving DecidableEq, Repr

/-- What it answers. -/
inductive Answer where
  | node (found : Option NodeRef)
  | skipped (count : Nat)

/-! ## Places in a list -/

namespace Move

/-- The answer at a place in a list: the node there, or how many nodes can be skipped. -/
def answerAt (nodes : List NodeRef) (place : Nat) : Move → Answer
  | .next => .node nodes[place]?
  | .skip count => .skipped (min count (nodes.length - place))

/-- The place after a move, which is never behind the end. -/
def placeAfter (nodes : List NodeRef) (place : Nat) : Move → Nat
  | .next => place + min 1 (nodes.length - place)
  | .skip count => place + min count (nodes.length - place)

/-- The answers to some moves, each with how many nodes are left after it. -/
def repliesAt (nodes : List NodeRef) (place : Nat) : List Move → List (Answer × Nat)
  | [] => []
  | move :: moves =>
    (move.answerAt nodes place, nodes.length - move.placeAfter nodes place) ::
      repliesAt nodes (move.placeAfter nodes place) moves

end Move

/-- What is left at a place in a list, and a count that agrees with it. -/
structure LeftAt (nodes : List NodeRef) (place : Nat) (rest : List NodeRef) (count : Nat) :
    Prop where
  le : place ≤ nodes.length
  rest_eq : rest = nodes.drop place
  count_eq : count = nodes.length - place

namespace LeftAt

variable {nodes rest : List NodeRef} {place count : Nat}

theorem start (nodes : List NodeRef) : LeftAt nodes 0 nodes nodes.length :=
  ⟨Nat.zero_le _, rfl, rfl⟩

theorem length_eq (h : LeftAt nodes place rest count) : rest.length = count := by
  rw [h.rest_eq, h.count_eq, List.length_drop]

theorem head?_eq (h : LeftAt nodes place rest count) : rest.head? = nodes[place]? := by
  rw [h.rest_eq, List.head?_drop]

/-- Nothing is left behind the end, so passing more than is left comes to the same. -/
theorem pass (h : LeftAt nodes place rest count) (n : Nat) :
    LeftAt nodes (place + min n (nodes.length - place)) (rest.drop (min n count))
      (count - min n count) := by
  have hle := h.le
  refine ⟨by omega, ?_, ?_⟩
  · rw [h.rest_eq, h.count_eq, List.drop_drop]
  · rw [h.count_eq]
    omega

theorem next (h : LeftAt nodes place rest count) :
    LeftAt nodes (Move.next.placeAfter nodes place) rest.tail (count - min 1 count) := by
  have hpass := h.pass 1
  have hdrop : rest.drop (min 1 count) = rest.tail := by
    rw [← h.length_eq]
    cases rest with
    | nil => rfl
    | cons node nodes => rw [List.length_cons, Nat.min_eq_left (by omega), List.drop_one]
  rwa [hdrop] at hpass

end LeftAt

/-! ## Cursors -/

namespace Cursor

variable {c : Cursor} {nodes : List NodeRef} {place : Nat}

def move (c : Cursor) : Move → Answer × Cursor
  | .next => (.node c.next.1, c.next.2)
  | .skip count => (.skipped (c.skip count).1, (c.skip count).2)

/-- The answers to some moves, each with how many nodes the cursor says are left after it. -/
def replies (c : Cursor) : List Move → List (Answer × Nat)
  | [] => []
  | move :: moves =>
    ((c.move move).1, (c.move move).2.remaining) :: (c.move move).2.replies moves

theorem remaining_ofLists (lists : List (List NodeRef)) :
    (ofLists lists).remaining = lists.flatten.length := by
  rw [List.length_flatten, List.sum, List.foldr_map]
  rfl

theorem remaining_enter (c : Cursor) (lists : List (List NodeRef)) :
    (next.enter c lists).2.remaining = c.remaining - min 1 lists.flatten.length := by
  induction lists with
  | nil => rfl
  | cons list lists ih =>
    cases list with
    | nil => exact ih
    | cons node nodes =>
      rw [List.flatten_cons, List.cons_append, List.length_cons, Nat.min_eq_left (by omega)]
      rfl

theorem remaining_next (c : Cursor) :
    c.next.2.remaining = c.remaining - min 1 c.rest.length := by
  rw [next, rest]
  cases c.current with
  | nil => exact remaining_enter c c.later
  | cons node nodes => rw [List.cons_append, List.length_cons, Nat.min_eq_left (by omega)]

/-- Passing whole lists leaves what passing their nodes leaves. -/
theorem advance_eq_drop (n : Nat) (current : List NodeRef) (lists : List (List NodeRef)) :
    (advance n current lists).1 ++ (advance n current lists).2.flatten =
      (current ++ lists.flatten).drop n := by
  induction lists generalizing n current with
  | nil => simp [advance]
  | cons list lists ih =>
    rw [advance]
    split
    · next hlt => rw [List.drop_append_of_le_length (Nat.le_of_lt hlt)]
    · next hge =>
      have hall : current.drop n = [] := List.drop_eq_nil_of_le (Nat.le_of_not_lt hge)
      rw [ih, List.flatten_cons, @List.drop_append _ current, hall, List.nil_append]

theorem rest_skip (c : Cursor) (count : Nat) :
    (c.skip count).2.rest = c.rest.drop (min count c.remaining) :=
  advance_eq_drop _ _ _

/-- A move answers as its place does, and goes to the place after it. -/
theorem leftAt_move (h : LeftAt nodes place c.rest c.remaining) (move : Move) :
    (c.move move).1 = move.answerAt nodes place ∧
      LeftAt nodes (move.placeAfter nodes place) (c.move move).2.rest
        (c.move move).2.remaining := by
  cases move with
  | next =>
    obtain ⟨hhead, htail⟩ := c.next_eq
    refine ⟨congrArg Answer.node (hhead.trans h.head?_eq), ?_⟩
    rw [Cursor.move, htail, remaining_next, h.length_eq]
    exact h.next
  | skip count =>
    refine ⟨congrArg (fun left => Answer.skipped (min count left)) h.count_eq, ?_⟩
    rw [Cursor.move, rest_skip]
    exact h.pass count

theorem replies_eq (h : LeftAt nodes place c.rest c.remaining) (moves : List Move) :
    c.replies moves = Move.repliesAt nodes place moves := by
  induction moves generalizing c place with
  | nil => rfl
  | cons move moves ih =>
    obtain ⟨hanswer, hleft⟩ := leftAt_move h move
    rw [replies, Move.repliesAt, hanswer, hleft.count_eq, ih hleft]

end Cursor

/-! ## Numbered lists and places -/

/-- A cursor that keeps all lists: the number of the list that it is in, its place in that list,
and how many nodes are left. -/
structure IndexedCursor where
  lists : List (List NodeRef)
  list : Nat
  place : Nat
  remaining : Nat

namespace IndexedCursor

def ofLists (lists : List (List NodeRef)) : IndexedCursor :=
  ⟨lists, 0, 0, lists.foldr (fun nodes count => nodes.length + count) 0⟩

def enterNext (c : IndexedCursor) : IndexedCursor := { c with list := c.list + 1, place := 0 }

/-- Steps to the next node. Nothing results if that cannot be counted down. -/
def next? (c : IndexedCursor) : Option (Option NodeRef × IndexedCursor) :=
  match _ : c.lists[c.list]? with
  | none => some (none, c)
  | some nodes =>
    match nodes[c.place]? with
    | some node =>
      (Word.sub? c.remaining 1).map fun remaining =>
        (some node, { c with place := c.place + 1, remaining })
    | none => c.enterNext.next?
termination_by c.lists.length - c.list
decreasing_by
  have hlt := (List.getElem?_eq_some_iff.mp ‹c.lists[c.list]? = _›).1
  simp only [enterNext]
  omega

/-- Passes some nodes. Nothing results if there is no list to pass, or if the place is behind the
end of its list. -/
def pass? (c : IndexedCursor) (left : Nat) : Option IndexedCursor :=
  if left = 0 then some c
  else
    match _ : c.lists[c.list]? with
    | none => none
    | some nodes =>
      (Word.sub? nodes.length c.place).bind fun available =>
        if left < available then some { c with place := c.place + left }
        else c.enterNext.pass? (left - available)
termination_by c.lists.length - c.list
decreasing_by
  have hlt := (List.getElem?_eq_some_iff.mp ‹c.lists[c.list]? = _›).1
  simp only [enterNext]
  omega

/-- Skips up to `count` nodes and says how many it skipped. -/
def skip? (c : IndexedCursor) (count : Nat) : Option (Nat × IndexedCursor) :=
  (c.pass? (min count c.remaining)).bind fun passed =>
    (Word.sub? passed.remaining (min count c.remaining)).map fun remaining =>
      (min count c.remaining, { passed with remaining })

def move? (c : IndexedCursor) : Move → Option (Answer × IndexedCursor)
  | .next => c.next?.map fun moved => (.node moved.1, moved.2)
  | .skip count => (c.skip? count).map fun moved => (.skipped moved.1, moved.2)

/-- The answers to some moves, each with how many nodes the cursor says are left after it, and the
cursor after all of them. -/
def replies? (c : IndexedCursor) : List Move → Option (List (Answer × Nat) × IndexedCursor)
  | [] => some ([], c)
  | move :: moves =>
    (c.move? move).bind fun moved =>
      (moved.2.replies? moves).map fun later =>
        ((moved.1, moved.2.remaining) :: later.1, later.2)

/-- The place is one of the list that the cursor is in, or the cursor is behind all lists. -/
structure InBounds (c : IndexedCursor) : Prop where
  list_le : c.list ≤ c.lists.length
  place_le : c.place ≤ (c.lists[c.list]?.getD []).length

/-- The nodes that are still to come. -/
def rest (c : IndexedCursor) : List NodeRef := (c.lists.drop c.list).flatten.drop c.place

variable {c : IndexedCursor} {nodes current : List NodeRef} {place : Nat}

theorem rest_of_none (h : c.lists[c.list]? = none) : c.rest = [] := by
  rw [rest, List.drop_eq_nil_of_le (List.getElem?_eq_none_iff.mp h)]
  exact List.drop_nil

/-- What is left begins with what is left of the current list. -/
theorem rest_of_some (hb : c.InBounds) (h : c.lists[c.list]? = some current) :
    c.place ≤ current.length ∧ c.rest = current.drop c.place ++ c.enterNext.rest := by
  obtain ⟨hlt, hget⟩ := List.getElem?_eq_some_iff.mp h
  have hplace : c.place ≤ current.length := by simpa [h] using hb.place_le
  refine ⟨hplace, ?_⟩
  rw [rest, List.drop_eq_getElem_cons hlt, hget, List.flatten_cons,
    List.drop_append_of_le_length hplace]
  rfl

theorem inBounds_enterNext (h : c.lists[c.list]? = some current) : c.enterNext.InBounds :=
  ⟨(List.getElem?_eq_some_iff.mp h).1, Nat.zero_le _⟩

/-- With a node left, the count can be lowered; without one, the next list is entered. -/
theorem next?_eq (hb : c.InBounds) (hcount : c.rest.length = c.remaining) :
    ∃ later, c.next? = some (c.rest.head?, later) ∧ later.InBounds ∧
      later.rest = c.rest.tail ∧ later.remaining = c.remaining - min 1 c.remaining := by
  fun_induction next? c with
  | case1 c hnone =>
    rw [rest_of_none hnone] at hcount ⊢
    exact ⟨c, rfl, hb, rest_of_none hnone, by rw [← hcount]; rfl⟩
  | case2 c current hcurrent node hnode =>
    obtain ⟨hplace, hrest⟩ := rest_of_some hb hcurrent
    obtain ⟨hlt, hget⟩ := List.getElem?_eq_some_iff.mp hnode
    rw [List.drop_eq_getElem_cons hlt, hget, List.cons_append] at hrest
    have hpos : 1 ≤ c.remaining := by
      rw [← hcount, hrest, List.length_cons]
      omega
    have hbounds : InBounds { c with place := c.place + 1, remaining := c.remaining - 1 } :=
      ⟨hb.list_le, by simpa [hcurrent] using Nat.succ_le_of_lt hlt⟩
    refine ⟨_, by rw [Word.sub?_eq hpos, hrest]; rfl, hbounds, ?_, by rw [Nat.min_eq_left hpos]⟩
    rw [(rest_of_some hbounds hcurrent).2, hrest]
    rfl
  | case3 c current hcurrent hnone ih =>
    have hend := List.drop_eq_nil_of_le (List.getElem?_eq_none_iff.mp hnone)
    have hrest : c.rest = c.enterNext.rest := by
      rw [(rest_of_some hb hcurrent).2, hend, List.nil_append]
    rw [hrest] at hcount ⊢
    exact ih (inBounds_enterNext hcurrent) hcount

/-- As many nodes can be passed as are left. -/
theorem pass?_eq (hb : c.InBounds) {left : Nat} (hleft : left ≤ c.rest.length) :
    ∃ passed, c.pass? left = some passed ∧ passed.InBounds ∧ passed.rest = c.rest.drop left ∧
      passed.remaining = c.remaining := by
  fun_induction pass? c left with
  | case1 c => exact ⟨c, rfl, hb, rfl, rfl⟩
  | case2 c left hpos hnone =>
    rw [rest_of_none hnone] at hleft
    exact absurd (Nat.le_zero.mp hleft) hpos
  | case3 c left hpos current hcurrent ih =>
    obtain ⟨hplace, hrest⟩ := rest_of_some hb hcurrent
    rw [Word.sub?_eq hplace, Option.bind_some]
    split
    · next hlt =>
      have hbounds : InBounds { c with place := c.place + left } :=
        ⟨hb.list_le, by simp [hcurrent]; omega⟩
      refine ⟨_, rfl, hbounds, ?_, rfl⟩
      rw [rest, rest, List.drop_drop]
    · next hge =>
      -- All that is left of the list is passed, and the rest of the nodes in the lists behind it.
      have hlength : (current.drop c.place).length = current.length - c.place := List.length_drop
      rw [hrest, List.length_append] at hleft
      obtain ⟨passed, hpassed, hbounds, hdrop, hremaining⟩ :=
        ih (current.length - c.place) (inBounds_enterNext hcurrent) (by omega)
      refine ⟨passed, hpassed, hbounds, ?_, hremaining⟩
      have hall : (current.drop c.place).drop left = [] := List.drop_eq_nil_of_le (by omega)
      rw [hdrop, hrest, List.drop_append, hall, List.nil_append, hlength]

/-- A move finds what it looks up, answers as its place does, and goes to the place after it. -/
theorem leftAt_move? (hb : c.InBounds) (h : LeftAt nodes place c.rest c.remaining) (move : Move) :
    ∃ later, c.move? move = some (move.answerAt nodes place, later) ∧ later.InBounds ∧
      LeftAt nodes (move.placeAfter nodes place) later.rest later.remaining := by
  cases move with
  | next =>
    obtain ⟨later, hnext, hbounds, hrest, hremaining⟩ := next?_eq hb h.length_eq
    refine ⟨later, ?_, hbounds, ?_⟩
    · rw [move?, hnext, h.head?_eq]
      rfl
    · rw [hrest, hremaining]
      exact h.next
  | skip count =>
    have hle : min count c.remaining ≤ c.remaining := Nat.min_le_right _ _
    obtain ⟨passed, hpass, hbounds, hrest, hremaining⟩ :=
      pass?_eq hb (hle.trans_eq h.length_eq.symm)
    refine ⟨{ passed with remaining := c.remaining - min count c.remaining }, ?_,
      ⟨hbounds.list_le, hbounds.place_le⟩, ?_⟩
    · rw [move?, skip?, hpass, Option.bind_some, hremaining, Word.sub?_eq hle, Move.answerAt,
        ← h.count_eq]
      rfl
    · have hpassed := h.pass count
      rwa [← hrest] at hpassed

theorem replies?_eq (hb : c.InBounds) (h : LeftAt nodes place c.rest c.remaining)
    (moves : List Move) : ∃ last, last.InBounds ∧
      c.replies? moves = some (Move.repliesAt nodes place moves, last) := by
  induction moves generalizing c place with
  | nil => exact ⟨c, hb, rfl⟩
  | cons move moves ih =>
    obtain ⟨later, hmove, hbounds, hleft⟩ := leftAt_move? hb h move
    obtain ⟨last, hlast, hreplies⟩ := ih hbounds hleft
    refine ⟨last, hlast, ?_⟩
    rw [replies?, hmove, Option.bind_some, hreplies, Move.repliesAt, ← hleft.count_eq]
    rfl

end IndexedCursor

/-! ## Cursors over sets -/

namespace NodeSet

/-- Over a set in a strict order, a cursor answers like a place in the list of the distinct nodes,
and so does one that numbers partitions. -/
structure SkipsAsSteps (s : NodeSet) (walk : Cursor × NodeSet)
    (before : NodeRef → NodeRef → Prop) : Prop where
  enumerates : Enumerates walk.2.nodes (s.nodes.map (·.key)).toFinset before
  remaining_eq : walk.1.remaining = walk.2.nodes.length
  replies_eq : ∀ moves, walk.1.replies moves = Move.repliesAt walk.2.nodes 0 moves
  replies?_eq : ∀ moves, ∃ last, last.InBounds ∧
    (IndexedCursor.ofLists (walk.2.parts.map (·.nodes))).replies? moves =
      some (walk.1.replies moves, last)

variable {s : NodeSet} {before : NodeRef → NodeRef → Prop}

/-- A set holds its keys, at its revision. -/
theorem tracks_keys (s : NodeSet) :
    s.Tracks ⟨(s.nodes.map (·.key)).toFinset, s.revision.toNat⟩ where
  mem_iff key := by rw [List.mem_toFinset, mem_map_key_nodes]
  revision_eq := UInt32.ofNat_toNat.symm

theorem SkipsAsSteps.of_cursor (ordered : NodeSet)
    (h : Enumerates ordered.nodes (s.nodes.map (·.key)).toFinset before) :
    s.SkipsAsSteps (ordered.cursor, ordered) before := by
  have hnodes : (ordered.parts.map (·.nodes)).flatten = ordered.nodes := List.flatMap_def.symm
  have hremaining : ordered.cursor.remaining = ordered.nodes.length := by
    rw [cursor, Cursor.remaining_ofLists, hnodes]
  have hcursor : LeftAt ordered.nodes 0 ordered.cursor.rest ordered.cursor.remaining := by
    rw [hremaining, cursor, Cursor.rest_ofLists, hnodes]
    exact .start _
  have hindexed : LeftAt ordered.nodes 0
      (IndexedCursor.ofLists (ordered.parts.map (·.nodes))).rest
      (IndexedCursor.ofLists (ordered.parts.map (·.nodes))).remaining := by
    show LeftAt ordered.nodes 0 (ordered.parts.map (·.nodes)).flatten ordered.cursor.remaining
    rw [hremaining, hnodes]
    exact .start _
  refine ⟨h, hremaining, Cursor.replies_eq hcursor, fun moves => ?_⟩
  rw [Cursor.replies_eq hcursor]
  exact IndexedCursor.replies?_eq ⟨Nat.zero_le _, Nat.zero_le _⟩ hindexed moves

/-- A cursor over a set, by identifier or in document order, answers any steps and skips like a
place in the list of the distinct nodes. -/
theorem skipsAsSteps (s : NodeSet) :
    s.SkipsAsSteps s.iterate (ByDocument (·.id < ·.id)) ∧
      s.SkipsAsSteps s.iterateInDocumentOrder (ByDocument s.PrecedesInPart) :=
  ⟨.of_cursor _ s.tracks_keys.enumerates_sort,
    .of_cursor _ s.tracks_keys.enumerates_sortInDocumentOrder⟩

end NodeSet

end TreeAxes
