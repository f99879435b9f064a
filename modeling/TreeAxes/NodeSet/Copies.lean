import Std.Data.HashMap
import Std.Data.HashSet
import TreeAxes.NodeSet.Partition

/-!
# Copies of a node

An unsorted partition may hold many copies of a node, each with contexts of its own. They
are gathered by identifier in one pass and merged at once, so that only distinct
identifiers are sorted and no context is searched through for every copy.

The main statement, `mergeCopies_eq`, says that this comes to sorting the partition and
collapsing its duplicates.
-/

namespace TreeAxes

namespace NodeRef

/-- A context under construction, latest first, beside the set of what is in it. -/
structure Gathered where
  latest : List ContextNode
  seen : Std.HashSet ContextNode
  contains_seen : ∀ c, seen.contains c ↔ c ∈ latest

namespace Gathered

def empty : Gathered where
  latest := []
  seen := ∅
  contains_seen := by simp

def push (gathered : Gathered) (c : ContextNode) : Gathered where
  latest := c :: gathered.latest
  seen := gathered.seen.insert c
  contains_seen := by
    intro d
    rw [Std.HashSet.contains_insert, Bool.or_eq_true, gathered.contains_seen, beq_iff_eq,
      List.mem_cons, eq_comm]

def ofContext (context : List ContextNode) : Gathered := context.foldl push empty

/-- Adds a context node, unless it is there already. -/
def add (gathered : Gathered) (c : ContextNode) : Gathered :=
  if gathered.seen.contains c then gathered else gathered.push c

def toContext (gathered : Gathered) : List ContextNode := gathered.latest.reverse

@[simp] theorem toContext_push (gathered : Gathered) (c : ContextNode) :
    (gathered.push c).toContext = gathered.toContext ++ [c] := List.reverse_cons

@[simp] theorem toContext_ofContext (context : List ContextNode) :
    (ofContext context).toContext = context := by
  have h (gathered : Gathered) :
      (context.foldl push gathered).toContext = gathered.toContext ++ context := by
    induction context generalizing gathered with
    | nil => simp
    | cons c cs ih => simp [ih]
  exact h empty

@[simp] theorem toContext_add (gathered : Gathered) (c : ContextNode) :
    (gathered.add c).toContext = addNew gathered.toContext c := by
  have h : c ∈ gathered.toContext ↔ gathered.seen.contains c := by
    rw [gathered.contains_seen, toContext, List.mem_reverse]
  simp only [add, addNew, h]
  split
  · rfl
  · exact gathered.toContext_push c

/-- Adds the context of a reference. -/
def addContext (gathered : Gathered) (node : NodeRef) : Gathered := node.context.foldl add gathered

@[simp] theorem toContext_addContext (gathered : Gathered) (node : NodeRef) :
    (gathered.addContext node).toContext = node.context.foldl addNew gathered.toContext := by
  unfold addContext
  induction node.context generalizing gathered with
  | nil => rfl
  | cons c cs ih => simp [ih]

end Gathered

/-- Adds the context nodes of other references that are not there already. -/
def mergeContexts (node : NodeRef) (others : List NodeRef) : NodeRef :=
  { node with
    context := (others.foldl Gathered.addContext (Gathered.ofContext node.context)).toContext }

/-- Merging at once is merging one after the other. -/
theorem mergeContexts_eq_foldl (node : NodeRef) (others : List NodeRef) :
    node.mergeContexts others = others.foldl mergeContext node := by
  have h (others : List NodeRef) (node : NodeRef) (gathered : Gathered)
      (hg : gathered.toContext = node.context) :
      { node with context := (others.foldl Gathered.addContext gathered).toContext } =
        others.foldl mergeContext node := by
    induction others generalizing node gathered with
    | nil => rw [List.foldl_nil, hg, List.foldl_nil]
    | cons other others ih =>
      exact ih (node.mergeContext other) _ (by rw [Gathered.toContext_addContext, hg, mergeContext])
  exact h others node _ (Gathered.toContext_ofContext node.context)

end NodeRef

namespace Partition

/-- Nodes gathered by identifier, the copies of each latest first. -/
structure Copies where
  ids : List Nat
  byId : Std.HashMap Nat (List NodeRef)
  nodup : ids.Nodup
  mem_ids : ∀ id, id ∈ ids ↔ byId.getD id [] ≠ []

namespace Copies

def empty : Copies where
  ids := []
  byId := ∅
  nodup := List.nodup_nil
  mem_ids := by simp

def add (copies : Copies) (node : NodeRef) : Copies :=
  let others := copies.byId.getD node.id []
  { ids := if others.isEmpty then node.id :: copies.ids else copies.ids
    byId := copies.byId.insert node.id (node :: others)
    nodup := by
      split
      · next h => simpa [copies.mem_ids, others] using ⟨List.isEmpty_iff.1 h, copies.nodup⟩
      · exact copies.nodup
    mem_ids := by
      intro id
      have h := copies.mem_ids id
      rw [Std.HashMap.getD_insert]
      by_cases hid : node.id = id
      · subst hid
        split
        · simp
        · next ho => simpa [h, others] using ho
      · simp only [beq_iff_eq, if_neg hid, ← h]
        split <;> simp [Ne.symm hid] }

def ofNodes (nodes : List NodeRef) : Copies := nodes.foldl add empty

/-- The copies of a node, in their order. -/
def get (copies : Copies) (id : Nat) : List NodeRef := (copies.byId.getD id []).reverse

theorem get_ofNodes (nodes : List NodeRef) (id : Nat) :
    (ofNodes nodes).get id = nodes.filter (·.id = id) := by
  have h (copies : Copies) : (nodes.foldl add copies).get id =
      copies.get id ++ nodes.filter (·.id = id) := by
    induction nodes generalizing copies with
    | nil => simp
    | cons node nodes ih =>
      rw [List.foldl_cons, ih, get, get, add, Std.HashMap.getD_insert, List.filter_cons]
      by_cases hid : node.id = id <;> simp [hid]
  rw [ofNodes, h]
  simp [get, empty]

theorem mem_ids_ofNodes (nodes : List NodeRef) (id : Nat) :
    id ∈ (ofNodes nodes).ids ↔ nodes.filter (·.id = id) ≠ [] := by
  rw [(ofNodes nodes).mem_ids, ← get_ofNodes, get, ne_eq, ne_eq, List.reverse_eq_nil_iff]

end Copies

/-- All copies of a node in one: the first, with the contexts of the others. -/
def merged? : List NodeRef → Option NodeRef
  | [] => none
  | first :: others => some (first.mergeContexts others)

/-- Sorts by identifier and merges duplicates. -/
def mergeCopies (p : Partition) : Partition :=
  let copies := Copies.ofNodes p.nodes
  let ids := copies.ids.mergeSort fun a b => a ≤ b
  { p with entries := (ids.filterMap fun id => merged? (copies.get id)).toArray }

theorem nodes_mergeCopies (p : Partition) :
    p.mergeCopies.nodes =
      ((Copies.ofNodes p.nodes).ids.mergeSort fun a b => a ≤ b).filterMap
        fun id => merged? (p.nodes.filter (·.id = id)) := by
  simp only [← Copies.get_ofNodes]
  rfl

theorem merged?_singleton (node : NodeRef) : merged? [node] = some node := by
  simp [merged?, NodeRef.mergeContexts_eq_foldl]

theorem merged?_cons_cons (first second : NodeRef) (others : List NodeRef) :
    merged? (first :: second :: others) = merged? (first.mergeContext second :: others) := by
  simp [merged?, NodeRef.mergeContexts_eq_foldl]

theorem id_eq_of_merged? {nodes : List NodeRef} {id : Nat} {node : NodeRef}
    (h : merged? (nodes.filter (·.id = id)) = some node) : node.id = id := by
  have hids : ∀ a ∈ nodes.filter (·.id = id), a.id = id := by simp
  revert h hids
  cases nodes.filter (·.id = id) with
  | nil => simp [merged?]
  | cons first others =>
    intro h hids
    cases h
    exact hids first (by simp)

/-- What collapsing leaves of a sorted list: of each node, its copies in one. -/
theorem mem_collapseFrom_iff {kept : NodeRef} {nodes : List NodeRef}
    (h : (kept :: nodes).Pairwise (·.id ≤ ·.id)) {node : NodeRef} :
    node ∈ collapseFrom kept nodes ↔
      merged? ((kept :: nodes).filter (·.id = node.id)) = some node := by
  induction nodes generalizing kept with
  | nil =>
    rw [collapseFrom, List.mem_singleton, List.filter_cons, List.filter_nil]
    split
    · rw [merged?_singleton, Option.some_inj, eq_comm]
    · next hid => simpa [merged?] using fun heq : node = kept => hid (by simp [heq])
  | cons other nodes ih =>
    obtain ⟨hk, hn⟩ := List.pairwise_cons.1 h
    obtain ⟨hother, hnodes⟩ := List.pairwise_cons.1 hn
    unfold collapseFrom
    split
    · next heq =>
      have hkept : (kept.mergeContext other :: nodes).Pairwise (·.id ≤ ·.id) :=
        List.pairwise_cons.2 ⟨fun a ha => hk a (by simp [ha]), hnodes⟩
      rw [ih hkept]
      by_cases hid : kept.id = node.id
      · simp [hid, heq, merged?_cons_cons]
      · simp [hid, heq]
    · next hne =>
      rw [List.mem_cons, ih hn]
      by_cases hid : kept.id = node.id
      · have hnil : (other :: nodes).filter (·.id = node.id) = [] := by
          rw [List.filter_eq_nil_iff]
          intro a ha
          have hle := hk other (by simp)
          have hlt : other.id ≤ a.id := by
            rcases List.mem_cons.1 ha with rfl | ha
            · exact Nat.le_refl _
            · exact hother a ha
          simp
          omega
        rw [hnil, List.filter_cons_of_pos (by simpa using hid), hnil, merged?_singleton]
        simp [merged?, eq_comm]
      · have hkept : (kept :: other :: nodes).filter (·.id = node.id) =
            (other :: nodes).filter (·.id = node.id) :=
          List.filter_cons_of_neg (by simpa using hid)
        rw [hkept, or_iff_right]
        rintro rfl
        exact hid rfl

theorem mem_collapse_iff {nodes : List NodeRef} (h : nodes.Pairwise (·.id ≤ ·.id))
    {node : NodeRef} :
    node ∈ collapse nodes ↔ merged? (nodes.filter (·.id = node.id)) = some node := by
  cases nodes with
  | nil => simp [collapse, merged?]
  | cons kept nodes => exact mem_collapseFrom_iff h

/-- Sorting leaves the copies of a node in their order. -/
theorem filter_sortById (p : Partition) (id : Nat) :
    p.sortById.nodes.filter (·.id = id) = p.nodes.filter (·.id = id) := by
  have hsame : (p.nodes.filter (·.id = id)).Pairwise fun a b => decide (a.id ≤ b.id) = true := by
    rw [List.pairwise_iff_forall_sublist]
    intro a b hab
    have hid (c : NodeRef) (hc : c ∈ [a, b]) : c.id = id :=
      of_decide_eq_true (List.mem_filter.1 (hab.subset hc)).2
    simp [hid a (by simp), hid b (by simp)]
  have hsub := (List.sublist_mergeSort (by intro a b c; simp; omega) (by intro a b; simp; omega)
    hsame List.filter_sublist).filter (·.id = id)
  rw [List.filter_filter] at hsub
  simp only [Bool.and_self] at hsub
  exact (hsub.eq_of_length ((p.perm_sortById.filter _).length_eq).symm).symm

/-- Two lists that ascend strictly are equal if they have the same members. -/
theorem eq_of_ascending {xs ys : List NodeRef} (hx : xs.Pairwise (·.id < ·.id))
    (hy : ys.Pairwise (·.id < ·.id)) (h : ∀ node, node ∈ xs ↔ node ∈ ys) : xs = ys := by
  induction xs generalizing ys with
  | nil =>
    cases ys with
    | nil => rfl
    | cons y ys => simpa using h y
  | cons x xs ih =>
    cases ys with
    | nil => simpa using h x
    | cons y ys =>
      obtain ⟨hx, hxs⟩ := List.pairwise_cons.1 hx
      obtain ⟨hy, hys⟩ := List.pairwise_cons.1 hy
      have hxy : x = y := by
        have hx' := (h x).1 (by simp)
        have hy' := (h y).2 (by simp)
        grind
      subst hxy
      congr 1
      apply ih hxs hys
      grind

theorem mem_mergeCopies_iff {p : Partition} {node : NodeRef} :
    node ∈ p.mergeCopies.nodes ↔ merged? (p.nodes.filter (·.id = node.id)) = some node := by
  simp only [nodes_mergeCopies, List.mem_filterMap, List.mem_mergeSort, Copies.mem_ids_ofNodes]
  constructor
  · rintro ⟨id, -, hnode⟩
    rwa [id_eq_of_merged? hnode]
  · intro hnode
    refine ⟨node.id, ?_, hnode⟩
    intro hnil
    rw [hnil] at hnode
    cases hnode

theorem pairwise_mergeCopies (p : Partition) : p.mergeCopies.nodes.Pairwise (·.id < ·.id) := by
  let ids := (Copies.ofNodes p.nodes).ids
  have hle : (ids.mergeSort fun a b => a ≤ b).Pairwise fun a b => decide (a ≤ b) = true :=
    List.pairwise_mergeSort (by intro a b c; simp; omega) (by intro a b; simp; omega) ids
  have hne : (ids.mergeSort fun a b => a ≤ b).Nodup :=
    (List.mergeSort_perm ids _).nodup_iff.2 (Copies.ofNodes p.nodes).nodup
  rw [nodes_mergeCopies, List.pairwise_filterMap]
  refine (hle.and hne).imp ?_
  intro a b h x hx y hy
  rw [id_eq_of_merged? hx, id_eq_of_merged? hy]
  have := of_decide_eq_true h.1
  omega

theorem mergeCopies_eq (p : Partition) : p.mergeCopies = p.sortById.removeDuplicates := by
  have h : p.mergeCopies.nodes = p.sortById.removeDuplicates.nodes := by
    rw [nodes_removeDuplicates]
    apply eq_of_ascending p.pairwise_mergeCopies (pairwise_collapse p.pairwise_sortById)
    intro node
    rw [mem_mergeCopies_iff, mem_collapse_iff p.pairwise_sortById, filter_sortById]
  exact congrArg (Partition.mk p.doc) (Array.toList_inj.1 h)

end Partition

end TreeAxes
