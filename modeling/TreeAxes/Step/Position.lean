import Std.Data.HashMap
import TreeAxes.Axis
import TreeAxes.Node.Ref

/-!
# Positions

Nodes are counted for their anchors: each context node that a node was reached from, or
none at all. Going through nodes in document order, or backwards on a reverse axis, a node
is at a position when one of its anchors is met for the time of that number.

The main statement, `select_eq_filter`, says that these are the nodes that stand at the
position in the group of one of their anchors.
-/

namespace TreeAxes.Position

/-- What a node is counted for: every context node, or all nodes together if it has none. -/
def anchorsOf (node : NodeRef) : List (Option ContextNode) :=
  if node.context.isEmpty then [none] else node.context.map some

/-- How often each anchor was met. -/
abbrev Counts := Std.HashMap (Option ContextNode) Nat

/-- Counts anchors and says whether one of them is met for the `n`-th time. -/
def meet (n : Nat) (counts : Counts) : List (Option ContextNode) → Bool × Counts
  | [] => (false, counts)
  | anchor :: anchors =>
    let met := counts.getD anchor 0 + 1
    let (found, counts) := meet n (counts.insert anchor met) anchors
    (met = n || found, counts)

/-- The nodes at which one of their anchors is met for the `n`-th time. -/
def selectFrom (n : Nat) (counts : Counts) : List NodeRef → List NodeRef
  | [] => []
  | node :: nodes =>
    let (found, counts) := meet n counts (anchorsOf node)
    if found then node :: selectFrom n counts nodes else selectFrom n counts nodes

/-- The nodes at a position, counted from one, out of nodes in document order. -/
def select (axis : Axis) (n : Nat) (nodes : List NodeRef) : List NodeRef :=
  if axis.isReverse then (selectFrom n ∅ nodes.reverse).reverse else selectFrom n ∅ nodes

/-- The nodes counted for an anchor, once for each time the anchor occurs. -/
def group (nodes : List NodeRef) (anchor : Option ContextNode) : List NodeRef :=
  nodes.flatMap fun node => List.replicate ((anchorsOf node).count anchor) node

/-- The node at a position, from the end on a reverse axis. -/
def pick? (reverse : Bool) (n : Nat) (nodes : List NodeRef) : Option NodeRef :=
  if n = 0 then none
  else if reverse then nodes.reverse[n - 1]?
  else nodes[n - 1]?

theorem getD_meet (n : Nat) (counts : Counts) (anchors : List (Option ContextNode))
    (anchor : Option ContextNode) :
    (meet n counts anchors).2.getD anchor 0 = counts.getD anchor 0 + anchors.count anchor := by
  induction anchors generalizing counts with
  | nil => simp [meet]
  | cons first anchors ih =>
    rw [meet, ih, Std.HashMap.getD_insert, List.count_cons]
    by_cases h : first = anchor
    · simp [h]
      omega
    · simp [h]

/-- The `n`-th time that an anchor is met lies behind the times it was met before. -/
theorem meet_fst_iff (n : Nat) (counts : Counts) (anchors : List (Option ContextNode)) :
    (meet n counts anchors).1 ↔
      ∃ anchor ∈ anchors, counts.getD anchor 0 < n ∧
        n ≤ counts.getD anchor 0 + anchors.count anchor := by
  induction anchors generalizing counts with
  | nil => simp [meet]
  | cons first anchors ih =>
    simp only [meet, Bool.or_eq_true, decide_eq_true_eq, ih, Std.HashMap.getD_insert,
      List.count_cons, List.mem_cons, beq_iff_eq]
    constructor
    · rintro (h | ⟨anchor, hm, h⟩)
      · exact ⟨first, .inl rfl, by simp; omega⟩
      · refine ⟨anchor, .inr hm, ?_⟩
        by_cases heq : first = anchor
        · simp only [heq, if_true] at h ⊢
          omega
        · simpa [heq] using h
    · rintro ⟨anchor, hm, h⟩
      by_cases heq : first = anchor
      · subst heq
        simp only [if_true] at h
        by_cases hn : counts.getD first 0 + 1 = n
        · exact .inl hn
        · refine .inr ⟨first, List.count_pos_iff.1 (by omega), ?_⟩
          simp only [if_true]
          omega
      · refine .inr ⟨anchor, hm.resolve_left (Ne.symm heq), ?_⟩
        simpa [heq] using h

theorem group_append (xs ys : List NodeRef) (anchor : Option ContextNode) :
    group (xs ++ ys) anchor = group xs anchor ++ group ys anchor := by simp [group]

theorem group_cons (node : NodeRef) (nodes : List NodeRef) (anchor : Option ContextNode) :
    group (node :: nodes) anchor =
      List.replicate ((anchorsOf node).count anchor) node ++ group nodes anchor := by
  simp [group]

theorem group_reverse (nodes : List NodeRef) (anchor : Option ContextNode) :
    group nodes.reverse anchor = (group nodes anchor).reverse := by
  simp [group, List.reverse_flatMap, Function.comp_def]

theorem mem_of_mem_group {node : NodeRef} {nodes : List NodeRef} {anchor : Option ContextNode}
    (h : node ∈ group nodes anchor) : node ∈ nodes := by
  obtain ⟨a, ha, h⟩ := List.mem_flatMap.1 h
  rwa [List.eq_of_mem_replicate h]

/-- Among nodes of different keys, a node stands at a place of a group exactly between the
members before and after it. -/
theorem any_getElem?_group {before after : List NodeRef} {node : NodeRef}
    (h : (before ++ node :: after).Pairwise (·.key ≠ ·.key)) (anchor : Option ContextNode)
    (i : Nat) :
    (group (before ++ node :: after) anchor)[i]?.any (·.key = node.key) ↔
      (group before anchor).length ≤ i ∧
        i < (group before anchor).length + (anchorsOf node).count anchor := by
  obtain ⟨-, hafter, hbefore⟩ := List.pairwise_append.1 h
  rw [group_append, group_cons]
  rcases Nat.lt_or_ge i (group before anchor).length with hi | hi
  · rw [List.getElem?_append_left hi, List.getElem?_eq_getElem hi]
    have hne := hbefore _ (mem_of_mem_group (List.getElem_mem hi)) node (by simp)
    simp [hne]
    omega
  · rw [List.getElem?_append_right hi]
    rcases Nat.lt_or_ge (i - (group before anchor).length) ((anchorsOf node).count anchor)
      with hj | hj
    · rw [List.getElem?_append_left (by simpa using hj)]
      simp [hj]
      omega
    · rw [List.getElem?_append_right (by simpa using hj)]
      simp only [Option.any_eq_true, decide_eq_true_eq]
      constructor
      · rintro ⟨other, ho, hkey⟩
        have := (List.pairwise_cons.1 hafter).1 other
          (mem_of_mem_group (List.mem_of_getElem? ho))
        exact absurd hkey.symm this
      · omega

theorem selectFrom_eq_filter {n : Nat} (before : List NodeRef) {nodes : List NodeRef}
    {counts : Counts}
    (h : (before ++ nodes).Pairwise (·.key ≠ ·.key))
    (hc : ∀ anchor, counts.getD anchor 0 = (group before anchor).length) :
    selectFrom (n + 1) counts nodes =
      nodes.filter fun node => (anchorsOf node).any fun anchor =>
        (group (before ++ nodes) anchor)[n]?.any (·.key = node.key) := by
  induction nodes generalizing before counts with
  | nil => rfl
  | cons node nodes ih =>
    have hstep : before ++ node :: nodes = (before ++ [node]) ++ nodes := by simp
    have hcounts : ∀ anchor, (meet (n + 1) counts (anchorsOf node)).2.getD anchor 0 =
        (group (before ++ [node]) anchor).length := by
      intro anchor
      rw [getD_meet, hc, group_append]
      simp [group]
    have hfound : (meet (n + 1) counts (anchorsOf node)).1 =
        (anchorsOf node).any fun anchor =>
          (group (before ++ node :: nodes) anchor)[n]?.any (·.key = node.key) := by
      rw [Bool.eq_iff_iff, meet_fst_iff, List.any_eq_true]
      simp only [any_getElem?_group h, hc]
      grind
    rw [selectFrom, List.filter_cons, ← hfound]
    simp only [hstep] at h ⊢
    rw [ih _ h hcounts]

theorem selectFrom_zero (counts : Counts) (nodes : List NodeRef) :
    selectFrom 0 counts nodes = [] := by
  induction nodes generalizing counts with
  | nil => rfl
  | cons node nodes ih =>
    have : (meet 0 counts (anchorsOf node)).1 = false := by
      rw [Bool.eq_false_iff, ne_eq, meet_fst_iff]
      simp
    rw [selectFrom]
    simp [this, ih]

/-- Selected are the nodes that stand at the position in the group of one of their
anchors. -/
theorem select_eq_filter (axis : Axis) (n : Nat) {nodes : List NodeRef}
    (h : nodes.Pairwise (·.key ≠ ·.key)) :
    select axis n nodes =
      nodes.filter fun node => (anchorsOf node).any fun anchor =>
        (pick? axis.isReverse n (group nodes anchor)).any (·.key = node.key) := by
  cases n with
  | zero => simp [select, selectFrom_zero, pick?]
  | succ n =>
    have hselect (nodes : List NodeRef) (h : nodes.Pairwise (·.key ≠ ·.key)) :=
      @selectFrom_eq_filter n [] nodes ∅ h (by simp [group])
    unfold select
    split
    · next hr =>
      rw [hselect nodes.reverse (List.pairwise_reverse.2 (h.imp Ne.symm)), ← List.filter_reverse,
        List.reverse_reverse]
      simp [group_reverse, pick?, hr]
    · next hr =>
      rw [hselect nodes h]
      simp [pick?, hr]

end TreeAxes.Position
