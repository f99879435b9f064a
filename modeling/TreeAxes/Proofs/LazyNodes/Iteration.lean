import TreeAxes.Proofs.Step.Found

/-!
# Iterating lazy results

An iteration visits the roots one after the other. Of a root that it visits it keeps the slots to
be given out and a stack of slots to be opened, and every turn of its loop gives out a slot or
passes over it, opens one, or goes on to the next root. Slots that are opened stand ever deeper,
so there are finitely many turns, however many slots a source takes for nodes. What the turns give
out is the list that the library enumerates.
-/

namespace TreeAxes

namespace NodeSource

variable {source : NodeSource} {doc : Document} {node : Slot}

theorem attributesWithin_eq (source : NodeSource) (doc : Document) (node : Slot) :
    source.attributesWithin doc node =
      source.attributes doc node ++
        (source.contents doc node).flatMap (source.attributesWithin doc) := by
  rw [attributesWithin, List.flatMap_subtype (g := source.attributesWithin doc) fun _ _ => rfl,
    List.unattach_attach]

/-- Only elements have attributes, their own or those of elements below them. -/
theorem attributesWithin_of_ne_element (h : node.kind ≠ .element) :
    source.attributesWithin doc node = [] := by
  rw [attributesWithin_eq, attributes, contents, if_neg h, if_neg h]
  rfl

theorem flatMap_attributesWithin_filter (slots : List Slot) :
    (slots.filter (·.kind = .element)).flatMap (source.attributesWithin doc) =
      slots.flatMap (source.attributesWithin doc) := by
  induction slots with
  | nil => rfl
  | cons slot slots ih =>
    rw [List.filter_cons, List.flatMap_cons, ← ih]
    split
    · rw [List.flatMap_cons]
    · next hkind =>
      rw [attributesWithin_of_ne_element fun h => hkind (decide_eq_true h), List.nil_append]

end NodeSource

/-- The costs of all items. -/
def tally {α : Type} (cost : α → Nat) (items : List α) : Nat :=
  items.foldr (fun item total => cost item + total) 0

section tally

variable {α : Type} {cost : α → Nat}

@[simp] theorem tally_nil (cost : α → Nat) : tally cost [] = 0 := rfl

@[simp] theorem tally_cons (cost : α → Nat) (item : α) (items : List α) :
    tally cost (item :: items) = cost item + tally cost items := rfl

theorem tally_append (cost : α → Nat) (xs ys : List α) :
    tally cost (xs ++ ys) = tally cost xs + tally cost ys := by
  induction xs with
  | nil => exact (Nat.zero_add _).symm
  | cons x xs ih => rw [List.cons_append, tally_cons, tally_cons, ih, Nat.add_assoc]

theorem tally_filter_le (cost : α → Nat) (keep : α → Bool) (items : List α) :
    tally cost (items.filter keep) ≤ tally cost items := by
  induction items with
  | nil => exact Nat.le_refl _
  | cons item items ih =>
    rw [List.filter_cons, tally_cons]
    split
    · rw [tally_cons]
      exact Nat.add_le_add_left ih _
    · exact Nat.le_add_left_of_le ih

theorem length_le_tally (h : ∀ item, 0 < cost item) (items : List α) :
    items.length ≤ tally cost items := by
  induction items with
  | nil => exact Nat.le_refl _
  | cons item items ih =>
    have := h item
    rw [List.length_cons, tally_cons]
    omega

end tally

namespace LazyNodes

variable {v : LazyNodes} {source : NodeSource} {key : DocumentId × Nat}

/-- The visit of a root: what is to be given out, then what is to be opened, nearest first. -/
structure Visit where
  root : NodeRef
  pending : List Slot
  stack : List Slot

/-- The root that is visited, if any was yet, and the roots that are still to come. -/
structure Iteration where
  visit : Option Visit
  roots : List NodeRef

/-- What one turn of the loop comes to. -/
inductive Turn where
  | ended
  | moved (later : Iteration)
  | gave (node : NodeRef) (later : Iteration)

def Turn.later? : Turn → Option Iteration
  | .ended => none
  | .moved later | .gave _ later => some later

/-- Before the first root. -/
def iteration (v : LazyNodes) : Iteration := ⟨none, v.roots⟩

/-- The beginning of the visit of a root. -/
def enter (v : LazyNodes) (source : NodeSource) (root : NodeRef) : Visit :=
  let slot : Slot := ⟨root.id, root.kind⟩
  match v.axis with
  | .self => ⟨root, [slot], []⟩
  | .child => ⟨root, source.contents root.doc slot, []⟩
  | .attribute => ⟨root, source.attributes root.doc slot, []⟩
  | .descendant => ⟨root, [], source.contents root.doc slot⟩
  | .descendantOrSelf => ⟨root, [slot], source.contents root.doc slot⟩
  | .descendantAttribute => ⟨root, [], [slot]⟩
  | _ => ⟨root, [], []⟩

/-- Opens a slot: what it gives comes first, what is below it goes on top of the stack. -/
def expand (v : LazyNodes) (source : NodeSource) (root : NodeRef) (slot : Slot)
    (stack : List Slot) : Visit :=
  if v.axis = .descendantAttribute then
    ⟨root, source.attributes root.doc slot,
      (source.contents root.doc slot).filter (·.kind = .element) ++ stack⟩
  else ⟨root, [slot], source.contents root.doc slot ++ stack⟩

def turn (v : LazyNodes) (source : NodeSource) : Iteration → Turn
  | ⟨some ⟨root, slot :: pending, stack⟩, roots⟩ =>
    if v.test.matchesKind slot.kind then
      .gave (v.makeRef root slot) ⟨some ⟨root, pending, stack⟩, roots⟩
    else .moved ⟨some ⟨root, pending, stack⟩, roots⟩
  | ⟨some ⟨root, [], slot :: stack⟩, roots⟩ =>
    .moved ⟨some (v.expand source root slot stack), roots⟩
  | ⟨none, root :: roots⟩ | ⟨some ⟨_, [], []⟩, root :: roots⟩ =>
    .moved ⟨some (v.enter source root), roots⟩
  | ⟨none, []⟩ | ⟨some ⟨_, [], []⟩, []⟩ => .ended

/-- The iteration after some turns, if it has not ended by then. -/
def after (v : LazyNodes) (source : NodeSource) : Nat → Iteration → Option Iteration
  | 0, i => some i
  | turns + 1, i => (v.turn source i).later?.bind (v.after source turns)

/-! ## The turns that are left -/

/-- How many turns a slot may take on the stack, those for all below it included: one to open it,
and one for each slot that this makes pending. -/
def toil (source : NodeSource) (doc : Document) (slot : Slot) : Nat :=
  2 * (source.subtree doc slot).length + (source.attributesWithin doc slot).length

theorem tally_toil (source : NodeSource) (doc : Document) (slots : List Slot) :
    tally (toil source doc) slots =
      2 * (slots.flatMap (source.subtree doc)).length +
        (slots.flatMap (source.attributesWithin doc)).length := by
  induction slots with
  | nil => rfl
  | cons slot slots ih =>
    rw [tally_cons, ih, toil, List.flatMap_cons, List.flatMap_cons, List.length_append,
      List.length_append]
    omega

theorem toil_eq (source : NodeSource) (doc : Document) (slot : Slot) :
    toil source doc slot =
      2 + (source.attributes doc slot).length +
        tally (toil source doc) (source.contents doc slot) := by
  rw [tally_toil, toil, NodeSource.subtree_eq, NodeSource.attributesWithin_eq, List.length_cons,
    List.length_append]
  omega

theorem toil_pos (source : NodeSource) (doc : Document) (slot : Slot) :
    0 < toil source doc slot := by
  rw [toil_eq]
  omega

def Visit.effort (source : NodeSource) (visit : Visit) : Nat :=
  visit.pending.length + tally (toil source visit.root.doc) visit.stack

/-- A bound for the turns that are left. -/
def Iteration.effort (source : NodeSource) (i : Iteration) : Nat :=
  i.visit.elim 0 (Visit.effort source) +
    tally (fun root => 1 + toil source root.doc ⟨root.id, root.kind⟩) i.roots

theorem effort_enter_le (v : LazyNodes) (source : NodeSource) (root : NodeRef) :
    (v.enter source root).effort source ≤ toil source root.doc ⟨root.id, root.kind⟩ := by
  have htoil := toil_eq source root.doc ⟨root.id, root.kind⟩
  have hothers := length_le_tally (toil_pos source root.doc)
    (source.contents root.doc ⟨root.id, root.kind⟩)
  rw [enter]
  cases v.axis <;> simp only [Visit.effort, List.length_cons, List.length_nil, tally_cons,
    tally_nil] <;> omega

theorem effort_expand_lt (v : LazyNodes) (source : NodeSource) (root : NodeRef) (slot : Slot)
    (stack : List Slot) :
    (v.expand source root slot stack).effort source <
      toil source root.doc slot + tally (toil source root.doc) stack := by
  have htoil := toil_eq source root.doc slot
  have helements := tally_filter_le (toil source root.doc) (·.kind = .element)
    (source.contents root.doc slot)
  rw [expand]
  split <;> simp only [Visit.effort, tally_append, List.length_cons, List.length_nil] <;> omega

/-- Every turn leaves less to do. -/
theorem effort_lt_of_turn {i later : Iteration} (h : (v.turn source i).later? = some later) :
    later.effort source < i.effort source := by
  revert h
  fun_cases turn v source i with
  | case1 root slot pending stack roots | case2 root slot pending stack roots =>
    rintro ⟨⟩
    simp only [Iteration.effort, Visit.effort, Option.elim_some, List.length_cons]
    omega
  | case3 root slot stack roots =>
    rintro ⟨⟩
    have hopened := effort_expand_lt v source root slot stack
    simp only [Iteration.effort, Visit.effort, Option.elim_some, List.length_nil, tally_cons] at *
    omega
  | case4 root roots | case5 _ root roots =>
    rintro ⟨⟩
    have hentered := effort_enter_le v source root
    simp only [Iteration.effort, Visit.effort, Option.elim_some, Option.elim_none, tally_cons,
      List.length_nil, tally_nil] at *
    omega
  | case6 | case7 => rintro ⟨⟩

/-- After that many turns, the iteration has ended. -/
theorem after_eq_none {turns : Nat} {i : Iteration} (h : i.effort source < turns) :
    v.after source turns i = none := by
  induction turns generalizing i with
  | zero => exact absurd h (Nat.not_lt_zero _)
  | succ turns ih =>
    rw [after]
    cases hlater : (v.turn source i).later? with
    | none => rfl
    | some later =>
      have hless := effort_lt_of_turn hlater
      exact ih (by omega)

/-! ## Calls -/

/-- The next node, if there is one, and where the iteration stands then. -/
def next (v : LazyNodes) (source : NodeSource) (i : Iteration) : Option NodeRef × Iteration :=
  match _h : v.turn source i with
  | .ended => (none, i)
  | .moved later => v.next source later
  | .gave node later => (some node, later)
termination_by i.effort source
decreasing_by exact effort_lt_of_turn (by rw [_h, Turn.later?])

/-- The answer of a call for the next node after some earlier calls. -/
def answer (v : LazyNodes) (source : NodeSource) : Nat → Iteration → Option NodeRef
  | 0, i => (v.next source i).1
  | calls + 1, i => v.answer source calls (v.next source i).2

/-- Slots that pass the test, as nodes that were reached from a root. -/
def passed (v : LazyNodes) (root : NodeRef) (slots : List Slot) : List NodeRef :=
  (slots.filter (v.test.matchesKind ·.kind)).map (v.makeRef root)

/-- The slots that come of a slot on the stack. -/
def opened (v : LazyNodes) (source : NodeSource) (doc : Document) : Slot → List Slot :=
  if v.axis = .descendantAttribute then source.attributesWithin doc else source.subtree doc

/-- What the enumeration has from one root. -/
def fromRoot (v : LazyNodes) (source : NodeSource) (root : NodeRef) : List NodeRef :=
  v.passed root (v.reach source root)

def Visit.rest (v : LazyNodes) (source : NodeSource) (visit : Visit) : List NodeRef :=
  v.passed visit.root (visit.pending ++ visit.stack.flatMap (v.opened source visit.root.doc))

theorem Visit.rest_idle (v : LazyNodes) (source : NodeSource) (root : NodeRef) :
    Visit.rest v source ⟨root, [], []⟩ = [] := rfl

/-- The nodes that are still to come. -/
def Iteration.rest (v : LazyNodes) (source : NodeSource) (i : Iteration) : List NodeRef :=
  i.visit.elim [] (Visit.rest v source) ++ i.roots.flatMap (v.fromRoot source)

def Turn.rest (v : LazyNodes) (source : NodeSource) : Turn → List NodeRef
  | .ended => []
  | .moved later => later.rest v source
  | .gave node later => node :: later.rest v source

theorem rest_enter (v : LazyNodes) (source : NodeSource) (root : NodeRef) :
    (v.enter source root).rest v source = v.fromRoot source root := by
  rw [enter, fromRoot, reach]
  cases haxis : v.axis <;>
    simp [Visit.rest, opened, haxis, NodeSource.subtree_eq source root.doc ⟨root.id, root.kind⟩]

theorem rest_expand (v : LazyNodes) (source : NodeSource) (root : NodeRef) (slot : Slot)
    (stack : List Slot) :
    (v.expand source root slot stack).rest v source =
      Visit.rest v source ⟨root, [], slot :: stack⟩ := by
  rw [expand]
  split
  · next haxis =>
    simp only [Visit.rest, opened, if_pos haxis, List.flatMap_append, List.flatMap_cons,
      NodeSource.flatMap_attributesWithin_filter, List.nil_append, List.append_assoc,
      NodeSource.attributesWithin_eq source root.doc slot]
  · next haxis =>
    simp only [Visit.rest, opened, if_neg haxis, List.flatMap_append, List.flatMap_cons,
      List.nil_append, List.cons_append, NodeSource.subtree_eq source root.doc slot]

/-- A turn takes away at most the first of the nodes that are still to come. -/
theorem rest_turn (v : LazyNodes) (source : NodeSource) (i : Iteration) :
    (v.turn source i).rest v source = i.rest v source := by
  fun_cases turn v source i with
  | case1 root slot pending stack roots hmatches | case2 root slot pending stack roots hmatches =>
    simp [Turn.rest, Iteration.rest, Visit.rest, passed, hmatches]
  | case3 root slot stack roots =>
    simp only [Turn.rest, Iteration.rest, Option.elim_some, rest_expand]
  | case4 root roots | case5 _ root roots =>
    simp only [Turn.rest, Iteration.rest, Option.elim_some, Option.elim_none, rest_enter,
      Visit.rest_idle, List.flatMap_cons, List.nil_append]
  | case6 | case7 => rfl

/-- A call answers with the first node that is still to come, and leaves the others. -/
theorem next_eq (v : LazyNodes) (source : NodeSource) (i : Iteration) :
    (v.next source i).1 = (i.rest v source).head? ∧
      (v.next source i).2.rest v source = (i.rest v source).tail := by
  fun_induction next v source i with
  | case1 i hturn =>
    have hrest := v.rest_turn source i
    rw [hturn, Turn.rest] at hrest
    rw [← hrest]
    exact ⟨rfl, rfl⟩
  | case2 i later hturn ih =>
    have hrest := v.rest_turn source i
    rw [hturn, Turn.rest] at hrest
    rw [← hrest]
    exact ih
  | case3 i node later hturn =>
    have hrest := v.rest_turn source i
    rw [hturn, Turn.rest] at hrest
    rw [← hrest]
    exact ⟨rfl, rfl⟩

/-- Calls answer with the nodes that are still to come, one by one, and then with none. -/
theorem answer_eq (v : LazyNodes) (source : NodeSource) (calls : Nat) (i : Iteration) :
    v.answer source calls i = (i.rest v source)[calls]? := by
  induction calls generalizing i with
  | zero => rw [answer, (v.next_eq source i).1, List.head?_eq_getElem?]
  | succ calls ih => rw [answer, ih, (v.next_eq source i).2, List.getElem?_tail]

theorem enumerate_eq_flatMap (v : LazyNodes) (source : NodeSource) :
    v.enumerate source = v.roots.flatMap (v.fromRoot source) := rfl

/-- A new iteration answers with what is enumerated. -/
theorem answer_iteration (v : LazyNodes) (source : NodeSource) (calls : Nat) :
    v.answer source calls v.iteration = (v.enumerate source)[calls]? := by
  rw [answer_eq, Iteration.rest, iteration, Option.elim_none, List.nil_append,
    enumerate_eq_flatMap]

/-- Whether a new iteration comes to a node of the given key. -/
def Yields (v : LazyNodes) (source : NodeSource) (key : DocumentId × Nat) : Prop :=
  ∃ calls node, v.answer source calls v.iteration = some node ∧ node.key = key

theorem yields_iff : v.Yields source key ↔ ∃ node ∈ v.enumerate source, node.key = key := by
  simp only [Yields, answer_iteration, List.mem_iff_getElem?]
  constructor
  · rintro ⟨calls, node, hnode, hkey⟩
    exact ⟨node, ⟨calls, hnode⟩, hkey⟩
  · rintro ⟨node, ⟨calls, hnode⟩, hkey⟩
    exact ⟨calls, node, hnode, hkey⟩

end LazyNodes

end TreeAxes
