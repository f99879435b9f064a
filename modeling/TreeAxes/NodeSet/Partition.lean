import TreeAxes.Axis
import TreeAxes.Bisection
import TreeAxes.Node.Ref

/-!
# Partitions of a node set

A partition lists node references of one document. Lookups read it as sorted by
identifier; what they answer follows from the numbering of the document: children lie in a
window, descendants in one block on every level, ancestors on the climb to the root.

A partition is seen as the list of its nodes: each operation has a lemma that says what it
does to them. Of a sorted partition, `find?_eq_some_iff` and `range_eq` say what lookups
find.
-/

namespace TreeAxes

structure Partition where
  doc : Document
  entries : Array NodeRef := #[]

namespace Partition

/-- The entries in storage order. -/
def nodes (p : Partition) : List NodeRef := p.entries.toList

def size (p : Partition) : Nat := p.entries.size

/-- Appends a node, unless it repeats the last one: then their contexts are merged. -/
def push (entries : Array NodeRef) (node : NodeRef) : Array NodeRef :=
  match entries.back? with
  | some last =>
    if last.id = node.id then entries.pop.push (last.mergeContext node) else entries.push node
  | none => entries.push node

def add (p : Partition) (node : NodeRef) : Partition :=
  { p with entries := push p.entries node }

/-- Whether adding the node makes the partition longer. -/
def extendsWith (p : Partition) (node : NodeRef) : Bool :=
  p.entries.back?.all (·.id ≠ node.id)

def sortById (p : Partition) : Partition :=
  { p with entries := (p.nodes.mergeSort fun a b => a.id ≤ b.id).toArray }

def sortInDocumentOrder (p : Partition) : Partition :=
  { p with
    entries := (p.nodes.mergeSort fun a b => p.doc.numbering.notAfter a.id b.id).toArray }

/-- Collapses the duplicates that sorting has put side by side. -/
def removeDuplicates (p : Partition) : Partition :=
  { p with entries := p.entries.foldl push #[] }

/-- Where the last entry up to an identifier stands. -/
def place (p : Partition) (id : Nat) : Nat := Bisection.last (·.id ≤ id) p.entries

/-- The entry of an identifier; of several, the last. -/
def find? (p : Partition) (id : Nat) : Option NodeRef :=
  p.entries[p.place id]?.filter (·.id = id)

def contains (p : Partition) (id : Nat) : Bool := (p.find? id).isSome

/-- Removes the entry that `find?` finds. -/
def erase (p : Partition) (id : Nat) : Partition :=
  if p.contains id then { p with entries := p.entries.eraseIdxIfInBounds (p.place id) } else p

/-- Entries with identifiers from `lower` to `upper`. -/
def range (p : Partition) (lower upper : Nat) : List NodeRef :=
  (p.entries.extract (Bisection.count (·.id < lower) p.entries)
    (Bisection.count (·.id ≤ upper) p.entries)).toList

/-- Entries that are children or attributes of `parent`. -/
def children (p : Partition) (parent : Nat) : List NodeRef :=
  match p.doc.numbering.window? parent with
  | some window => p.range window.first window.last
  | none => []

/-- Climbs from an identifier on `level` to the first entry above it. -/
def climbToEntry (p : Partition) (directOnly : Bool) : Nat → Nat → Option NodeRef
  | 0, _ => none
  | level + 1, id =>
    let parent := p.doc.numbering.parentAt id (level + 1)
    if parent = noNode then none
    else
      match p.find? parent with
      | some node => some node
      | none => if directOnly then none else p.climbToEntry directOnly level parent

/-- The nearest entry above an identifier, or only its parent, or the identifier's own
entry before all. The level of the identifier is computed unless it is given. -/
def nearest (p : Partition) (id : Nat) (directOnly includeSelf : Bool)
    (level : Option Nat := none) : Option NodeRef :=
  match if includeSelf then p.find? id else none with
  | some node => some node
  | none => p.climbToEntry directOnly (level.getD (p.doc.numbering.levelOf id)) id

/-- All entries on the climb from an identifier on `level`, nearest first. -/
def entriesAbove (p : Partition) : Nat → Nat → List NodeRef
  | 0, _ => []
  | level + 1, id =>
    let parent := p.doc.numbering.parentAt id (level + 1)
    (p.find? parent).toList ++ p.entriesAbove level parent

/-- Entries that are ancestors of an identifier, or the identifier itself, nearest first. -/
def ancestors (p : Partition) (id : Nat) (includeSelf : Bool) : List NodeRef :=
  (if includeSelf then (p.find? id).toList else []) ++
    p.entriesAbove (p.doc.numbering.levelOf id) id

/-- The blocks of identifiers below `ancestor` that begin no later than the last entry. -/
def blocks (p : Partition) (ancestor : Nat) : List Window :=
  match p.entries.back? with
  | some last =>
    (p.doc.numbering.blocksBelow ancestor ancestor).takeWhile (·.first ≤ last.id)
  | none => []

/-- Entries below `ancestor`, or `ancestor` itself, gathered level by level. -/
def descendants (p : Partition) (ancestor : Nat) (includeSelf : Bool) : List NodeRef :=
  (if includeSelf then (p.find? ancestor).toList else []) ++
    (p.blocks ancestor).flatMap fun block => p.range block.first block.last

def hasDescendant (p : Partition) (ancestor : Nat) : Bool :=
  (p.blocks ancestor).any fun block => !(p.range block.first block.last).isEmpty

/-- Whether an identifier lies on the given side of another. -/
def liesOn (direction : Direction) (pivot id : Nat) : Bool :=
  match direction with
  | .following => pivot < id
  | .preceding => id < pivot

/-- Entries on one side of a node that share its parent. Attributes neither have siblings
nor are any. -/
def siblings (p : Partition) (node : NodeRef) (direction : Direction) : List NodeRef :=
  if node.parent = noNode ∨ node.kind = .attribute then []
  else
    (p.children node.parent).filter fun candidate =>
      candidate.kind ≠ .attribute && liesOn direction node.id candidate.id

/-- Makes every node its own context node. -/
def setSelfAsContext (p : Partition) : Partition :=
  { p with entries := p.entries.map fun node => node.pushContext node.asContext }

/-! ## The view as a list -/

/-- A list with a node appended, or merged into the last one. -/
def append : List NodeRef → NodeRef → List NodeRef
  | [], node => [node]
  | [last], node => if last.id = node.id then [last.mergeContext node] else [last, node]
  | first :: second :: rest, node => first :: append (second :: rest) node

/-- Collapses every run of one identifier that begins with `kept`. -/
def collapseFrom (kept : NodeRef) : List NodeRef → List NodeRef
  | [] => [kept]
  | node :: nodes =>
    if node.id = kept.id then collapseFrom (kept.mergeContext node) nodes
    else kept :: collapseFrom node nodes

/-- Collapses every run of one identifier into its first node, with merged contexts. -/
def collapse : List NodeRef → List NodeRef
  | [] => []
  | node :: nodes => collapseFrom node nodes

theorem append_concat (nodes : List NodeRef) (last node : NodeRef) :
    append (nodes ++ [last]) node =
      if last.id = node.id then nodes ++ [last.mergeContext node] else nodes ++ [last, node] := by
  induction nodes with
  | nil => simp [append]
  | cons first nodes ih =>
    cases nodes with
    | nil => simp only [List.cons_append, List.nil_append, append]; split <;> rfl
    | cons second nodes =>
      simp only [List.cons_append] at ih ⊢
      rw [append, ih]
      split <;> rfl

theorem toList_push (entries : Array NodeRef) (node : NodeRef) :
    (push entries node).toList = append entries.toList node := by
  unfold push
  rw [← Array.getLast?_toList]
  rcases List.eq_nil_or_concat entries.toList with h | ⟨nodes, last, h⟩
  · simp [h, append]
  · rw [List.concat_eq_append] at h
    rw [h, append_concat, List.getLast?_concat]
    dsimp only
    split <;> simp [h]

theorem foldl_append (nodes rest : List NodeRef) (kept : NodeRef) :
    rest.foldl append (nodes ++ [kept]) = nodes ++ collapseFrom kept rest := by
  induction rest generalizing nodes kept with
  | nil => rfl
  | cons node rest ih =>
    rw [List.foldl_cons, append_concat, collapseFrom]
    by_cases h : kept.id = node.id
    · simp only [h, if_true, ih]
    · rw [if_neg h, if_neg (Ne.symm h), show nodes ++ [kept, node] = (nodes ++ [kept]) ++ [node] by
        simp, ih]
      simp

@[simp] theorem nodes_add (p : Partition) (node : NodeRef) :
    (p.add node).nodes = append p.nodes node := toList_push p.entries node

@[simp] theorem nodes_sortById (p : Partition) :
    p.sortById.nodes = p.nodes.mergeSort fun a b => a.id ≤ b.id := rfl

@[simp] theorem nodes_sortInDocumentOrder (p : Partition) :
    p.sortInDocumentOrder.nodes =
      p.nodes.mergeSort fun a b => p.doc.numbering.notAfter a.id b.id := rfl

@[simp] theorem nodes_removeDuplicates (p : Partition) :
    p.removeDuplicates.nodes = collapse p.nodes := by
  have h : ∀ (rest : List NodeRef) (entries : Array NodeRef),
      (rest.foldl push entries).toList = rest.foldl append entries.toList := by
    intro rest
    induction rest with
    | nil => simp
    | cons node rest ih => simp [ih, toList_push]
  rw [nodes, nodes, removeDuplicates, ← Array.foldl_toList, h]
  cases p.entries.toList with
  | nil => rfl
  | cons node rest => exact foldl_append [] rest node

@[simp] theorem nodes_setSelfAsContext (p : Partition) :
    p.setSelfAsContext.nodes = p.nodes.map fun node => node.pushContext node.asContext := by
  simp [nodes, setSelfAsContext]

@[simp] theorem length_nodes (p : Partition) : p.nodes.length = p.size := rfl

/-! ## Identifiers of the entries -/

@[simp] theorem append_ne_nil (nodes : List NodeRef) (node : NodeRef) :
    append nodes node ≠ [] := by
  unfold append
  split <;> try split
  all_goals simp

theorem forall_mem_append {P : NodeRef → Prop} {nodes : List NodeRef} {node : NodeRef}
    (hm : ∀ a b : NodeRef, P a → P (a.mergeContext b)) (h : ∀ a ∈ nodes, P a) (hn : P node) :
    ∀ a ∈ append nodes node, P a := by
  fun_induction append nodes node with
  | case1 => simpa using hn
  | case2 last node => simpa using hm last node (h last (by simp))
  | case3 last node => simpa using ⟨h last (by simp), hn⟩
  | case4 first second rest node ih =>
    intro a ha
    rcases List.mem_cons.1 ha with rfl | ha
    · exact h _ (by simp)
    · exact ih (fun b hb => h b (by simp [hb])) hn a ha

theorem forall_mem_collapseFrom {P : NodeRef → Prop} {nodes : List NodeRef} {kept : NodeRef}
    (hm : ∀ a b : NodeRef, P a → P (a.mergeContext b)) (hk : P kept) (h : ∀ a ∈ nodes, P a) :
    ∀ a ∈ collapseFrom kept nodes, P a := by
  induction nodes generalizing kept with
  | nil => simpa [collapseFrom] using hk
  | cons node nodes ih =>
    unfold collapseFrom
    split
    · exact ih (hm kept node hk) (fun a ha => h a (by simp [ha]))
    · intro a ha
      rcases List.mem_cons.1 ha with rfl | ha
      · exact hk
      · exact ih (h node (by simp)) (fun b hb => h b (by simp [hb])) a ha

theorem forall_mem_collapse {P : NodeRef → Prop} {nodes : List NodeRef}
    (hm : ∀ a b : NodeRef, P a → P (a.mergeContext b)) (h : ∀ a ∈ nodes, P a) :
    ∀ a ∈ collapse nodes, P a := by
  cases nodes with
  | nil => simp [collapse]
  | cons node nodes =>
    exact forall_mem_collapseFrom hm (h node (by simp)) (fun a ha => h a (by simp [ha]))

theorem collapseFrom_ne_nil (kept : NodeRef) (nodes : List NodeRef) :
    collapseFrom kept nodes ≠ [] := by
  induction nodes generalizing kept with
  | nil => simp [collapseFrom]
  | cons node nodes ih =>
    unfold collapseFrom
    split
    · exact ih _
    · simp

theorem collapse_ne_nil {nodes : List NodeRef} (h : nodes ≠ []) : collapse nodes ≠ [] := by
  cases nodes with
  | nil => exact absurd rfl h
  | cons node nodes => exact collapseFrom_ne_nil node nodes

/-- After collapsing, sorted identifiers ascend strictly. -/
theorem pairwise_collapseFrom {kept : NodeRef} {nodes : List NodeRef}
    (h : (kept :: nodes).Pairwise (·.id ≤ ·.id)) :
    (collapseFrom kept nodes).Pairwise (·.id < ·.id) := by
  induction nodes generalizing kept with
  | nil => simp [collapseFrom]
  | cons node nodes ih =>
    obtain ⟨hk, hn⟩ := List.pairwise_cons.1 h
    obtain ⟨hn', hns⟩ := List.pairwise_cons.1 hn
    unfold collapseFrom
    split
    · exact ih (List.pairwise_cons.2 ⟨fun a ha => hk a (by simp [ha]), hns⟩)
    · next hne =>
      refine List.pairwise_cons.2 ⟨?_, ih hn⟩
      have hlt : kept.id < node.id := by
        have := hk node (by simp)
        omega
      apply forall_mem_collapseFrom (P := fun a => kept.id < a.id) (fun a b h => h) hlt
      intro a ha
      have := hn' a ha
      omega

theorem pairwise_collapse {nodes : List NodeRef} (h : nodes.Pairwise (·.id ≤ ·.id)) :
    (collapse nodes).Pairwise (·.id < ·.id) := by
  cases nodes with
  | nil => simp [collapse]
  | cons node nodes => exact pairwise_collapseFrom h

theorem pairwise_sortById (p : Partition) : p.sortById.nodes.Pairwise (·.id ≤ ·.id) := by
  have h : p.sortById.nodes.Pairwise fun a b => decide (a.id ≤ b.id) = true :=
    List.pairwise_mergeSort (by intro a b c; simp; omega) (by intro a b; simp; omega) p.nodes
  exact h.imp (by simp)

theorem perm_sortById (p : Partition) : p.sortById.nodes.Perm p.nodes := List.mergeSort_perm _ _

theorem perm_sortInDocumentOrder (p : Partition) : p.sortInDocumentOrder.nodes.Perm p.nodes :=
  List.mergeSort_perm _ _

/-- Entries of different identifiers come out strictly ascending in document order. -/
theorem pairwise_sortInDocumentOrder (p : Partition)
    (h : p.nodes.Pairwise (·.id ≠ ·.id)) :
    p.sortInDocumentOrder.nodes.Pairwise fun a b =>
      p.doc.numbering.compareDocumentOrder a.id b.id = .lt := by
  have hs : p.sortInDocumentOrder.nodes.Pairwise fun a b =>
      p.doc.numbering.notAfter a.id b.id = true :=
    List.pairwise_mergeSort (fun a b c => p.doc.numbering.notAfter_trans a.id b.id c.id)
      (fun a b => p.doc.numbering.notAfter_total a.id b.id) p.nodes
  have hne : p.sortInDocumentOrder.nodes.Pairwise (·.id ≠ ·.id) :=
    (p.perm_sortInDocumentOrder.pairwise_iff (fun h => h.symm)).2 h
  exact (hs.and hne).imp fun h => Numbering.lt_of_notAfter h.1 h.2

theorem erase_sublist (p : Partition) (id : Nat) : (p.erase id).nodes.Sublist p.nodes := by
  unfold erase
  split
  · rw [nodes, Array.toList_eraseIdxIfInBounds]
    exact List.eraseIdx_sublist _ _
  · exact List.Sublist.refl _

@[simp] theorem erase_doc (p : Partition) (id : Nat) : (p.erase id).doc = p.doc := by
  unfold erase
  split <;> rfl

/-! ## Lookups in sorted partitions -/

theorem ledBy_le {nodes : List NodeRef} (h : nodes.Pairwise (·.id ≤ ·.id)) (id : Nat) :
    LedBy (·.id ≤ id) nodes :=
  h.imp fun hle => by simpa using Nat.le_trans hle

theorem ledBy_lt {nodes : List NodeRef} (h : nodes.Pairwise (·.id ≤ ·.id)) (id : Nat) :
    LedBy (·.id < id) nodes :=
  h.imp fun hle => by simpa using Nat.lt_of_le_of_lt hle

/-- The place of an identifier is where its node stands. -/
theorem place_eq {p : Partition} (h : p.nodes.Pairwise (·.id < ·.id)) {i : Nat} {node : NodeRef}
    (hi : p.nodes[i]? = some node) : p.place node.id = i := by
  have hled := ledBy_le (h.imp Nat.le_of_lt) node.id
  have hpass := (Bisection.any_getElem?_iff hled i).1 (by simp [hi])
  have hnext := Bisection.any_getElem?_iff hled (i + 1)
  have hfail : ¬ p.nodes[i + 1]?.any (·.id ≤ node.id) := by
    simp only [Option.any_eq_true, decide_eq_true_eq, not_exists, not_and]
    intro next hn
    obtain ⟨hi', rfl⟩ := List.getElem?_eq_some_iff.1 hi
    obtain ⟨hn', rfl⟩ := List.getElem?_eq_some_iff.1 hn
    have := List.pairwise_iff_getElem.1 h i (i + 1) hi' hn' (Nat.lt_succ_self i)
    omega
  have := mt hnext.2 hfail
  have hlast : p.place node.id = (p.nodes.takeWhile (·.id ≤ node.id)).length - 1 :=
    Bisection.last_eq hled
  omega

/-- A lookup finds the entry of the identifier. -/
theorem find?_eq_some_iff {p : Partition} (h : p.nodes.Pairwise (·.id < ·.id)) {id : Nat}
    {node : NodeRef} : p.find? id = some node ↔ node ∈ p.nodes ∧ node.id = id := by
  rw [find?, ← Array.getElem?_toList, Option.filter_eq_some_iff]
  constructor
  · rintro ⟨hn, hid⟩
    exact ⟨List.mem_of_getElem? hn, by simpa using hid⟩
  · rintro ⟨hn, rfl⟩
    obtain ⟨i, hi⟩ := List.mem_iff_getElem?.1 hn
    exact ⟨by rw [place_eq h hi]; exact hi, by simp⟩

theorem extract_eq_filter {nodes : List NodeRef} (h : nodes.Pairwise (·.id ≤ ·.id))
    (lower upper : Nat) :
    (nodes.take (nodes.takeWhile (·.id ≤ upper)).length).drop
        (nodes.takeWhile (·.id < lower)).length =
      nodes.filter fun node => lower ≤ node.id ∧ node.id ≤ upper := by
  induction nodes with
  | nil => rfl
  | cons node nodes ih =>
    obtain ⟨hn, hns⟩ := List.pairwise_cons.1 h
    by_cases hu : node.id ≤ upper
    · by_cases hl : node.id < lower
      · simp [hu, hl, ih hns]
      · have := ih hns
        have hnil : nodes.takeWhile (·.id < lower) = [] := by
          cases nodes with
          | nil => rfl
          | cons next nodes =>
            have := hn next (by simp)
            exact List.takeWhile_cons_of_neg (by simp; omega)
        simp only [hnil, List.length_nil, List.drop_zero] at this
        simp [hu, hl, this, Nat.not_lt.1 hl]
    · have hnone : nodes.filter (fun node => decide (lower ≤ node.id ∧ node.id ≤ upper)) = [] := by
        rw [List.filter_eq_nil_iff]
        intro next hnext
        have := hn next hnext
        simp
        omega
      rw [List.filter_cons_of_neg (by simp [hu]), hnone,
        List.takeWhile_cons_of_neg (p := fun node : NodeRef => decide (node.id ≤ upper))
          (by simpa using hu)]
      simp

/-- A range holds the entries whose identifiers lie in it. -/
theorem range_eq {p : Partition} (h : p.nodes.Pairwise (·.id ≤ ·.id)) (lower upper : Nat) :
    p.range lower upper = p.nodes.filter fun node => lower ≤ node.id ∧ node.id ≤ upper := by
  rw [range, Bisection.count_eq (ledBy_lt h lower), Bisection.count_eq (ledBy_le h upper),
    Array.toList_extract, List.extract_eq_drop_take', ← extract_eq_filter h]
  rfl

theorem eraseIdx_eq_filter {nodes : List NodeRef} (h : nodes.Pairwise (·.id < ·.id)) {i : Nat}
    {node : NodeRef} (hi : nodes[i]? = some node) :
    nodes.eraseIdx i = nodes.filter (·.id ≠ node.id) := by
  induction nodes generalizing i with
  | nil => simp at hi
  | cons first nodes ih =>
    obtain ⟨hf, hns⟩ := List.pairwise_cons.1 h
    cases i with
    | zero =>
      obtain rfl : first = node := by simpa using hi
      rw [List.eraseIdx_cons_zero, List.filter_cons_of_neg (by simp), eq_comm,
        List.filter_eq_self]
      intro next hn
      simpa using Nat.ne_of_gt (hf next hn)
    | succ i =>
      have hi : nodes[i]? = some node := by simpa using hi
      have hne := Nat.ne_of_lt (hf node (List.mem_of_getElem? hi))
      rw [List.eraseIdx_cons_succ, ih hns hi, List.filter_cons_of_pos (by simpa using hne)]

/-- A removal leaves the entries of all other identifiers. -/
theorem nodes_erase {p : Partition} (h : p.nodes.Pairwise (·.id < ·.id)) (id : Nat) :
    (p.erase id).nodes = p.nodes.filter (·.id ≠ id) := by
  unfold erase
  split
  · next hc =>
    obtain ⟨node, hfound⟩ := Option.isSome_iff_exists.1 hc
    obtain ⟨hn, rfl⟩ := (find?_eq_some_iff h).1 hfound
    obtain ⟨i, hi⟩ := List.mem_iff_getElem?.1 hn
    rw [nodes, Array.toList_eraseIdxIfInBounds, place_eq h hi]
    exact eraseIdx_eq_filter h hi
  · next hc =>
    rw [eq_comm, List.filter_eq_self]
    intro node hn
    have : node.id ≠ id := fun hid => hc (by simp [contains, (find?_eq_some_iff h).2 ⟨hn, hid⟩])
    simpa using this

end Partition

end TreeAxes
