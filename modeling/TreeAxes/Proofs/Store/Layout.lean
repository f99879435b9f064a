import TreeAxes.Proofs.Store.Laid
import TreeAxes.Store.Scan

/-!
# How trees are laid out

A tree is stored by numbering its outline: every node gets a slot in the window of its parent, for
which the widths of the levels leave room. So the stored nodes are the preorder of a tree that is
laid out, whatever nodes it has.

Where only elements have attributes and children, a store of such trees is `Nested`: the nodes of
its documents have stored elements as their parents, and the attributes of an element come before
its children. It stays so under every change that stores such trees.
-/

namespace TreeAxes

/-- Only elements have attributes and children. -/
inductive Tree.Nests : Tree → Prop where
  | node {content : Content} {attributes : List Attribute} {children : List Tree}
      (bears : content.kind = .element ∨ attributes = [] ∧ children = [])
      (below : ∀ child ∈ children, child.Nests) : (Tree.node content attributes children).Nests

/-- The nodes of a tree whose root has the identifier `top`, as they are stored. -/
structure Subtree (n : Numbering) (top : Nat) (nodes : List StoredNode) : Prop where
  parent : ∀ node ∈ nodes, node.id ≠ top →
    ∃ parent ∈ nodes, parent.id = n.parentOf node.id ∧ parent.kind = .element
  attributesFirst : ∀ a ∈ nodes, ∀ b ∈ nodes, a.id ≠ top → b.id ≠ top →
    n.parentOf a.id = n.parentOf b.id → a.kind = .attribute → b.kind ≠ .attribute → a.id < b.id

namespace Numbering

variable {n : Numbering} {id i slots : Nat} {l : Level} {window : Window}

theorem slots_below (above : Level) (fanOut : List Nat) :
    (above.below fanOut).map (·.slots) = fanOut := by
  induction fanOut generalizing above with
  | nil => rfl
  | cons slots rest ih => exact congrArg (slots :: ·) (ih _)

/-- The slots of a level are the fan-out that it was made for. -/
theorem slots_eq (hl : n.levels[i + 1]? = some l) : n.fanOut[i]? = some l.slots := by
  rw [getElem?_levels, List.getElem?_cons_succ] at hl
  rw [← slots_below Level.root n.fanOut, List.getElem?_map, hl]
  rfl

/-- A node with a fan-out below its level has a window of as many slots. -/
theorem exists_window (hid : n.Uses id) (hslots : n.fanOut[n.levelOf id]? = some slots) :
    ∃ window, n.window? id = some window ∧ window.slots = slots := by
  have hdepth : n.levelOf id + 1 < n.depth := by
    have := (List.getElem?_eq_some_iff.mp hslots).1
    rw [depth_eq]
    omega
  obtain ⟨window, hwindow⟩ := exists_window_of_lt hid hdepth
  obtain ⟨own, lower, -, hlower, -, rfl⟩ := exists_of_window? hwindow
  have hlowerslots := slots_eq hlower
  rw [hslots, Option.some_inj] at hlowerslots
  exact ⟨_, hwindow, hlowerslots.symm⟩

/-- The slots of a window are those of the children of its owner. -/
theorem slot_spec (hid : n.Uses id) (hwindow : n.window? id = some window) (hi : i < window.slots) :
    n.Uses (window.first + i) ∧ n.parentOf (window.first + i) = id ∧
      n.levelOf (window.first + i) = n.levelOf id + 1 := by
  have hbounds : window.first ≤ window.first + i ∧ window.first + i ≤ window.last := by
    rw [Window.last]
    omega
  obtain ⟨huses, hlevel⟩ := levelOf_window hwindow hbounds
  exact ⟨huses, ((mem_window_iff hid hwindow).mp hbounds).2, hlevel⟩

end Numbering

/-! ## Outlines -/

/-- What a stored node says, apart from its identifier. -/
structure NodeLabel where
  kind : NodeKind
  name : Option QName
  value : Option String

def StoredNode.label (node : StoredNode) : NodeLabel := ⟨node.kind, node.name, node.value⟩

namespace NodeLabel

def stored (label : NodeLabel) (id : Nat) : StoredNode := ⟨id, label.kind, label.name, label.value⟩

def ofContent (content : Content) : NodeLabel :=
  ⟨content.kind, content.name?.map QName.ofLocal, content.value?⟩

def ofAttribute (a : Attribute) : NodeLabel :=
  ⟨.attribute, some (.ofLocal a.name), some a.value⟩

end NodeLabel

namespace Rose

variable {n : Numbering} {t : Rose NodeLabel} {ts us : List (Rose NodeLabel)} {id level : Nat}

mutual

/-- The tree with identifiers: the children of a node take the first slots of its window. -/
def number (n : Numbering) (id : Nat) : Rose NodeLabel → Rose StoredNode
  | node a ts => node (a.stored id) (numberAll n ((n.window? id).elim noNode (·.first)) ts)

/-- Several trees whose roots take consecutive slots. -/
def numberAll (n : Numbering) (id : Nat) : List (Rose NodeLabel) → List (Rose StoredNode)
  | [] => []
  | t :: ts => t.number n id :: numberAll n (id + 1) ts

end

/-- From a level on, a numbering has a slot for every child. -/
inductive Fits (n : Numbering) : Nat → Rose NodeLabel → Prop where
  | node {level : Nat} {a : NodeLabel} {ts : List (Rose NodeLabel)}
    (room : ts ≠ [] → ∃ slots, n.fanOut[level]? = some slots ∧ ts.length ≤ slots)
    (below : ∀ t ∈ ts, t.Fits n (level + 1)) : (Rose.node a ts).Fits n level

theorem numberAll_eq_mapIdx (n : Numbering) (id : Nat) (ts : List (Rose NodeLabel)) :
    numberAll n id ts = ts.mapIdx fun i t => t.number n (id + i) := by
  induction ts generalizing id with
  | nil => rfl
  | cons t ts ih =>
    rw [numberAll, ih, List.mapIdx_cons]
    simp only [Nat.add_zero, Nat.add_assoc, Nat.add_comm 1]

theorem numberAll_append (n : Numbering) (id : Nat) (ts us : List (Rose NodeLabel)) :
    numberAll n id (ts ++ us) = numberAll n id ts ++ numberAll n (id + ts.length) us := by
  simp only [numberAll_eq_mapIdx, List.mapIdx_append, Nat.add_assoc, Nat.add_comm ts.length]

theorem id_number (n : Numbering) (id : Nat) (t : Rose NodeLabel) :
    (t.number n id).label.id = id := by
  cases t
  rfl

/-- Without its identifiers, a numbered tree is the same as before. -/
theorem map_label_number (n : Numbering) (id : Nat) (t : Rose NodeLabel) :
    (t.number n id).map StoredNode.label = t := by
  induction t generalizing id with
  | node a ts ih =>
    rw [number, map, numberAll_eq_mapIdx]
    refine congrArg (Rose.node a) (List.ext_getElem (by simp) fun i hi hi' => ?_)
    simp [ih _ (List.getElem_mem hi')]

/-- Where there are children, there is a window with room for them. -/
theorem Fits.exists_window {a : NodeLabel} (h : (Rose.node a ts).Fits n (n.levelOf id))
    (hid : n.Uses id) (hne : ts ≠ []) :
    ∃ window, n.window? id = some window ∧ ts.length ≤ window.slots := by
  cases h with
  | node room =>
    obtain ⟨slots, hslots, hroom⟩ := room hne
    obtain ⟨window, hwindow, rfl⟩ := Numbering.exists_window hid hslots
    exact ⟨window, hwindow, hroom⟩

theorem laid_number (h : t.Fits n (n.levelOf id)) (hid : n.Uses id) : (t.number n id).Laid n := by
  induction t generalizing id with
  | node a ts ih =>
    by_cases hne : ts = []
    · subst hne
      exact .node hid nofun .nil nofun
    · obtain ⟨window, hwindow, hroom⟩ := h.exists_window hid hne
      have hslot {c : Rose StoredNode} (hc : c ∈ numberAll n window.first ts) :
          n.parentOf c.label.id = id ∧ c.Laid n := by
        rw [numberAll_eq_mapIdx, List.mem_mapIdx] at hc
        obtain ⟨i, hi, rfl⟩ := hc
        obtain ⟨huses, hparent, hlevel⟩ :=
          Numbering.slot_spec hid hwindow (Nat.lt_of_lt_of_le hi hroom)
        rw [id_number]
        refine ⟨hparent, ih _ (List.getElem_mem hi) ?_ huses⟩
        cases h with
        | node _ below => exact hlevel ▸ below _ (List.getElem_mem hi)
      rw [number, hwindow]
      refine .node hid (fun c hc => (hslot hc).1) ?_ fun c hc => (hslot hc).2
      show (numberAll n window.first ts).Pairwise _
      rw [numberAll_eq_mapIdx, List.pairwise_iff_getElem]
      intro i j _ _ hij
      simpa [id_number] using hij

end Rose

/-! ## Placing a tree -/

theorem zipMax_left {xs ys : List Nat} {i a : Nat} (h : xs[i]? = some a) :
    ∃ c, (zipMax xs ys)[i]? = some c ∧ a ≤ c := by
  induction xs generalizing ys i with
  | nil => cases h
  | cons x xs ih =>
    cases ys with
    | nil => exact ⟨a, h, Nat.le_refl a⟩
    | cons y ys =>
      cases i with
      | zero =>
        rw [List.getElem?_cons_zero, Option.some_inj] at h
        subst h
        exact ⟨max x y, rfl, Nat.le_max_left x y⟩
      | succ i => exact ih h

theorem zipMax_comm (xs ys : List Nat) : zipMax xs ys = zipMax ys xs := by
  induction xs generalizing ys with
  | nil => cases ys <;> rfl
  | cons x xs ih =>
    cases ys with
    | nil => rfl
    | cons y ys => rw [zipMax, zipMax, ih, Nat.max_comm]

namespace Tree

variable {n : Numbering} {level id : Nat} {content : Content} {attributes : List Attribute}
  {children : List Tree} {tree : Tree}

/-- From a level on, a numbering has as many slots as the nodes of a tree need. -/
def Fits (tree : Tree) (n : Numbering) (level : Nat) : Prop :=
  ∀ i width, tree.widths[i]? = some width →
    ∃ slots, n.fanOut[level + i]? = some slots ∧ width ≤ slots

theorem widths_le_widthsOfAll (htree : tree ∈ children) {i width : Nat}
    (h : tree.widths[i]? = some width) :
    ∃ most, (widthsOfAll children)[i]? = some most ∧ width ≤ most := by
  induction children with
  | nil => cases htree
  | cons first trees ih =>
    obtain rfl | htree := List.mem_cons.mp htree
    · rw [widthsOfAll]
      exact zipMax_left h
    · rw [widthsOfAll, zipMax_comm]
      obtain ⟨most, hmost, hle⟩ := ih htree
      exact (zipMax_left hmost).imp fun _ hmore => hmore.imp_right (Nat.le_trans hle)

namespace Fits

theorem slots (h : (Tree.node content attributes children).Fits n level)
    (hsome : attributes.length + children.length ≠ 0) :
    ∃ slots, n.fanOut[level]? = some slots ∧ attributes.length + children.length ≤ slots := by
  refine h 0 _ ?_
  rw [widths, if_neg hsome]
  rfl

/-- What fits from a level on has children that fit from the next level on. -/
theorem child (h : (Tree.node content attributes children).Fits n level)
    (htree : tree ∈ children) : tree.Fits n (level + 1) := by
  have hsome : attributes.length + children.length ≠ 0 := by
    have := List.length_pos_of_mem htree
    omega
  intro i width hwidth
  obtain ⟨most, hmost, hle⟩ := widths_le_widthsOfAll htree hwidth
  obtain ⟨slots, hslots, hle'⟩ := h (i + 1) most (by rw [widths, if_neg hsome]; exact hmost)
  refine ⟨slots, ?_, Nat.le_trans hle hle'⟩
  rw [Nat.add_right_comm]
  exact hslots

end Fits

theorem placeAll_eq_flatten (n : Numbering) (id : Nat) (trees : List Tree) :
    placeAll n id trees = (trees.mapIdx fun i tree => tree.place n (id + i)).flatten := by
  induction trees generalizing id with
  | nil => rfl
  | cons tree trees ih =>
    rw [placeAll, ih, List.mapIdx_cons, List.flatten_cons]
    simp only [Nat.add_zero, Nat.add_assoc, Nat.add_comm 1]

theorem place_leaf (n : Numbering) (id : Nat) (content : Content) :
    (Tree.node content [] []).place n id = [StoredNode.ofContent id content] := by
  rw [place]
  cases n.window? id <;> rfl

end Tree

/-! ## Trees as outlines -/

namespace Tree

variable {n : Numbering} {level id : Nat} {tree : Tree} {s : Rose NodeLabel}

@[elab_as_elim, induction_eliminator]
theorem induction {motive : Tree → Prop}
    (node : ∀ content attributes children, (∀ child ∈ children, motive child) →
      motive (.node content attributes children)) : ∀ tree, motive tree
  | .node content attributes children =>
    node content attributes children fun child _ => induction node child

/-- A tree as it is numbered: the attributes of a node come before its children. -/
def outline : Tree → Rose NodeLabel
  | .node content attributes children =>
    .node (.ofContent content)
      (attributes.map (fun a => .node (.ofAttribute a) []) ++ children.map outline)

theorem Fits.outline (h : tree.Fits n level) : tree.outline.Fits n level := by
  induction tree generalizing level with
  | node content attributes children ih =>
    rw [Tree.outline]
    refine .node (fun hne => ?_) fun t ht => ?_
    · have hsome : attributes.length + children.length ≠ 0 := by
        simpa [Nat.add_eq_zero_iff] using hne
      simpa using h.slots hsome
    · obtain ht | ht := List.mem_append.mp ht
      · obtain ⟨a, -, rfl⟩ := List.mem_map.mp ht
        exact .node (absurd rfl) nofun
      · obtain ⟨child, hchild, rfl⟩ := List.mem_map.mp ht
        exact ih child hchild (h.child hchild)

theorem flatMap_preorder_attributes (n : Numbering) (first : Nat) (attributes : List Attribute) :
    (Rose.numberAll n first (attributes.map fun a => .node (.ofAttribute a) [])).flatMap
      Rose.preorder = StoredNode.ofAttributes first attributes := by
  induction attributes generalizing first with
  | nil => rfl
  | cons a attributes ih =>
    rw [List.map_cons, Rose.numberAll, List.flatMap_cons, ih, Rose.number, Rose.numberAll,
      Rose.preorder_node]
    rfl

theorem flatMap_preorder_children {children : List Tree} {first : Nat}
    (h : ∀ (i : Nat) (hi : i < children.length), children[i].place n (first + i) =
      (children[i].outline.number n (first + i)).preorder) :
    (Rose.numberAll n first (children.map outline)).flatMap Rose.preorder =
      placeAll n first children := by
  rw [Rose.numberAll_eq_mapIdx, placeAll_eq_flatten, List.flatMap_def]
  refine congrArg List.flatten (List.ext_getElem (by simp) fun i hi hi' => ?_)
  simpa using (h i (by simpa using hi)).symm

/-- What is placed is the preorder of the numbered outline. -/
theorem place_eq_preorder (h : tree.outline.Fits n (n.levelOf id)) (hid : n.Uses id) :
    tree.place n id = (tree.outline.number n id).preorder := by
  induction tree generalizing id with
  | node content attributes children ih =>
    rw [outline] at h ⊢
    rw [Rose.number, Rose.preorder_node]
    by_cases hne : attributes.map (fun a => Rose.node (.ofAttribute a) []) ++
        children.map outline = []
    · obtain ⟨rfl, rfl⟩ : attributes = [] ∧ children = [] := by simpa using hne
      exact place_leaf n id content
    · obtain ⟨window, hwindow, hroom⟩ := h.exists_window hid hne
      rw [List.length_append, List.length_map, List.length_map] at hroom
      have hchildren (i : Nat) (hi : i < children.length) :
          children[i].place n (window.first + attributes.length + i) =
            (children[i].outline.number n (window.first + attributes.length + i)).preorder := by
        obtain ⟨huses, -, hlevel⟩ :=
          Numbering.slot_spec hid hwindow (i := attributes.length + i) (by omega)
        rw [← Nat.add_assoc] at huses hlevel
        have hmem := List.getElem_mem hi
        refine ih _ hmem ?_ huses
        rw [hlevel]
        cases h with
        | node _ below => exact below _ (List.mem_append_right _ (List.mem_map_of_mem hmem))
      rw [place, hwindow]
      show _ :: (_ ++ _) = _ :: (Rose.numberAll n window.first _).flatMap _
      rw [Rose.numberAll_append, List.flatMap_append, flatMap_preorder_attributes, List.length_map,
        flatMap_preorder_children hchildren]
      rfl

end Tree

/-! ## Where only elements have something below them -/

namespace Tree

theorem mem_subtrees_outline {content : Content} {attributes : List Attribute}
    {children : List Tree} {s : Rose NodeLabel} :
    s ∈ (Tree.node content attributes children).outline.subtrees ↔
      s = (Tree.node content attributes children).outline ∨
        (∃ a ∈ attributes, s = .node (.ofAttribute a) []) ∨
          ∃ child ∈ children, s ∈ child.outline.subtrees := by
  rw [outline, Rose.subtrees, List.mem_cons, List.flatMap_append, List.mem_append,
    List.flatMap_map, List.flatMap_map, List.mem_flatMap, List.mem_flatMap]
  simp [Rose.subtrees]

theorem kind_outline_ne_attribute (tree : Tree) : tree.outline.label.kind ≠ .attribute := by
  cases tree with
  | node content attributes children =>
    rw [outline]
    show content.kind ≠ .attribute
    cases content <;> exact nofun

/-- The attributes of a node come before its children. -/
theorem attributes_lead (tree : Tree) : ∀ s ∈ tree.outline.subtrees, s.children.Pairwise
    fun a b => b.label.kind = .attribute → a.label.kind = .attribute := by
  induction tree with
  | node content attributes children ih =>
    intro s hs
    obtain rfl | ⟨a, -, rfl⟩ | ⟨child, hchild, hs⟩ := mem_subtrees_outline.mp hs
    · rw [outline, Rose.children, List.pairwise_append, List.pairwise_map, List.pairwise_map]
      refine ⟨List.pairwise_of_forall fun _ _ _ => rfl,
        List.pairwise_of_forall fun _ child hattribute => ?_, ?_⟩
      · exact absurd hattribute child.kind_outline_ne_attribute
      · rintro _ - _ hb hattribute
        obtain ⟨child, -, rfl⟩ := List.mem_map.mp hb
        exact absurd hattribute child.kind_outline_ne_attribute
    · exact .nil
    · exact ih child hchild s hs

theorem Nests.kind_eq {tree : Tree} (h : tree.Nests) :
    ∀ s ∈ tree.outline.subtrees, s.children ≠ [] → s.label.kind = .element := by
  induction h with
  | @node content attributes children bears below ih =>
    intro s hs hne
    obtain rfl | ⟨a, -, rfl⟩ | ⟨child, hchild, hs⟩ := mem_subtrees_outline.mp hs
    · rw [outline] at hne ⊢
      refine bears.resolve_right ?_
      rintro ⟨rfl, rfl⟩
      exact hne rfl
    · exact absurd rfl hne
    · exact ih child hchild s hs hne

end Tree

namespace Rose

variable {t c e : Rose StoredNode} {ts : List (Rose StoredNode)} {n : Numbering} {top : Nat}

theorem lt_of_attribute (hascending : ts.Pairwise (·.label.id < ·.label.id))
    (hlead : ts.Pairwise fun a b => b.label.kind = .attribute → a.label.kind = .attribute)
    (hc : c ∈ ts) (he : e ∈ ts) (hattribute : c.label.kind = .attribute)
    (hother : e.label.kind ≠ .attribute) : c.label.id < e.label.id := by
  induction ts with
  | nil => cases hc
  | cons t ts ih =>
    obtain ⟨hlt, hascending⟩ := List.pairwise_cons.mp hascending
    obtain ⟨hkind, hlead⟩ := List.pairwise_cons.mp hlead
    obtain rfl | hcs := List.mem_cons.mp hc
    · obtain rfl | hes := List.mem_cons.mp he
      · exact absurd hattribute hother
      · exact hlt e hes
    · obtain rfl | hes := List.mem_cons.mp he
      · exact absurd (hkind c hcs hattribute) hother
      · exact ih hascending hlead hcs hes

/-- Laid out, a tree in which only elements have something below them keeps its shape. -/
theorem Laid.subtree (h : t.Laid n)
    (hlead : ∀ s ∈ t.subtrees, s.children.Pairwise
      fun a b => b.label.kind = .attribute → a.label.kind = .attribute)
    (helement : ∀ s ∈ t.subtrees, s.children ≠ [] → s.label.kind = .element) :
    Subtree n t.label.id t.preorder where
  parent := by
    intro node hnode hne
    obtain ⟨c, hc, rfl⟩ := List.mem_map.mp hnode
    obtain rfl | ⟨s, hs, hchild⟩ := eq_or_exists_parent hc
    · exact absurd rfl hne
    · refine ⟨s.label, List.mem_map_of_mem hs, ((h.parentOf_eq_iff hs hc).mpr hchild).symm, ?_⟩
      exact helement s hs (List.ne_nil_of_mem hchild)
  attributesFirst := by
    intro a ha b hb hne hne' hparent hattribute hother
    obtain ⟨c, hc, rfl⟩ := List.mem_map.mp ha
    obtain ⟨e, he, rfl⟩ := List.mem_map.mp hb
    obtain rfl | ⟨s, hs, hchild⟩ := eq_or_exists_parent hc
    · exact absurd rfl hne
    · rw [(h.parentOf_eq_iff hs hc).mpr hchild] at hparent
      have hchild' := (h.parentOf_eq_iff hs he).mp hparent.symm
      exact lt_of_attribute (h.of_mem_subtrees hs).pairwise_children (hlead s hs) hchild hchild'
        hattribute hother

end Rose

/-! ## Stores -/

/-- A tree with the identifiers that it is stored under. -/
def Tree.numbered (tree : Tree) (n : Numbering) : Rose StoredNode :=
  tree.outline.number n rootNode

namespace StoredDocument

variable {d : StoredDocument} {id : Nat} {node : StoredNode}

/-- The document numbers a tree in which only elements have something below them. -/
def Nested (d : StoredDocument) : Prop :=
  ∃ tree : Tree, tree.Nests ∧ ofTree d.doc.id d.doc.uri tree = .ok d

theorem doc_ofTree {docId : DocumentId} {uri : String} {tree : Tree}
    (h : ofTree docId uri tree = .ok d) : d.doc.id = docId ∧ d.doc.uri = uri := by
  rw [ofTree] at h
  split at h
  · cases h
    exact ⟨rfl, rfl⟩
  · cases h

/-- What a document stores is laid out in its numbering. -/
theorem laid_ofTree {docId : DocumentId} {uri : String} {tree : Tree}
    (h : ofTree docId uri tree = .ok d) :
    (tree.numbered d.doc.numbering).Laid d.doc.numbering ∧
      d.nodes = (tree.numbered d.doc.numbering).preorder := by
  rw [ofTree] at h
  split at h
  · next numbering hnumbering =>
    cases h
    have hfits : tree.Fits numbering (numbering.levelOf rootNode) := by
      intro i width hwidth
      rw [Numbering.levelOf_rootNode, Nat.zero_add, Numbering.fanOut_ofFanOut hnumbering]
      exact ⟨width, hwidth, Nat.le_refl width⟩
    exact ⟨Rose.laid_number hfits.outline numbering.uses_rootNode,
      Tree.place_eq_preorder hfits.outline numbering.uses_rootNode⟩
  · cases h

/-- Every stored node has an identifier of its own that is in use. -/
structure Identifies (d : StoredDocument) : Prop where
  uses : ∀ node ∈ d.nodes, d.doc.numbering.Uses node.id
  nodup : (d.nodes.map (·.id)).Nodup

theorem identifies_ofTree {docId : DocumentId} {uri : String} {tree : Tree}
    (h : ofTree docId uri tree = .ok d) : d.Identifies := by
  obtain ⟨hlaid, hnodes⟩ := laid_ofTree h
  constructor
  · intro node hnode
    exact hlaid.uses (hnodes ▸ hnode)
  · rw [hnodes]
    exact hlaid.nodup

theorem Nested.identifies (h : d.Nested) : d.Identifies := by
  obtain ⟨tree, -, hd⟩ := h
  exact identifies_ofTree hd

theorem Nested.subtree (h : d.Nested) : Subtree d.doc.numbering rootNode d.nodes := by
  obtain ⟨tree, htree, hd⟩ := h
  obtain ⟨hlaid, hnodes⟩ := laid_ofTree hd
  have hmap := Rose.map_label_number d.doc.numbering rootNode tree.outline
  have hmem {s : Rose StoredNode} (hs : s ∈ (tree.numbered d.doc.numbering).subtrees) :
      s.map StoredNode.label ∈ tree.outline.subtrees := by
    rw [← hmap, Rose.subtrees_map]
    exact List.mem_map_of_mem hs
  have hsubtree := hlaid.subtree (fun s hs => ?_) fun s hs hne => ?_
  · rwa [hnodes, ← Rose.id_number d.doc.numbering rootNode tree.outline]
  · have hlead := tree.attributes_lead _ (hmem hs)
    simp only [Rose.children_map, List.pairwise_map, Rose.label_map] at hlead
    exact hlead
  · have hkind := htree.kind_eq _ (hmem hs)
    rw [Rose.children_map, Rose.label_map] at hkind
    exact hkind (by simpa using hne)

theorem node?_eq_some_iff (h : d.Identifies) :
    d.node? id = some node ↔ node ∈ d.nodes ∧ node.id = id := by
  rw [node?_eq]
  constructor
  · intro hfind
    exact ⟨List.mem_of_find?_eq_some hfind, by simpa using List.find?_some hfind⟩
  · rintro ⟨hnode, rfl⟩
    obtain ⟨found, hfound⟩ : ∃ found, d.nodes.find? (·.id = node.id) = some found :=
      Option.isSome_iff_exists.mp (List.find?_isSome.mpr ⟨node, hnode, by simp⟩)
    have hid : found.id = node.id := by simpa using List.find?_some hfound
    have hinj := List.inj_on_of_nodup_map h.nodup
    rw [hfound, hinj (List.mem_of_find?_eq_some hfound) hnode hid]

end StoredDocument

namespace Store

variable {store : Store} {d : StoredDocument} {doc : DocumentId}

/-- The store has documents of different identifiers, all used up, and they number trees in
which only elements have something below them. -/
structure Nested (store : Store) : Prop where
  distinct : (store.documents.map (·.doc.id)).Nodup
  used : ∀ d ∈ store.documents, d.doc.id.raw ≤ store.additions
  nested : ∀ d ∈ store.documents, d.Nested

/-- The store has documents of different identifiers, all used up, and they number trees of some
kind. -/
structure Numbers (store : Store) (admits : Tree → Prop) : Prop where
  distinct : (store.documents.map (·.doc.id)).Nodup
  used : ∀ d ∈ store.documents, d.doc.id.raw ≤ store.additions
  numbered : ∀ d ∈ store.documents, ∃ tree, admits tree ∧
    StoredDocument.ofTree d.doc.id d.doc.uri tree = .ok d

/-- A store of any trees at all. -/
def Sound (store : Store) : Prop := store.Numbers fun _ => True

/-- The trees that a change stores. -/
def Change.Nests : Change → Prop
  | .add _ tree | .replace _ _ tree => tree.Nests
  | .touch _ | .remove _ => True

/-- The tree that a change stores. -/
def Change.tree? : Change → Option Tree
  | .add _ tree | .replace _ _ tree => some tree
  | .touch _ | .remove _ => none

namespace Numbers

variable {admits : Tree → Prop}

theorem empty : Store.empty.Numbers admits := ⟨List.nodup_nil, nofun, nofun⟩

/-- Only documents and used identifiers count. -/
theorem congr {other : Store} (h : store.Numbers admits)
    (hdocuments : other.documents = store.documents)
    (hadditions : store.additions ≤ other.additions) : other.Numbers admits where
  distinct := by rw [hdocuments]; exact h.distinct
  used d hd := Nat.le_trans (h.used d (hdocuments ▸ hd)) hadditions
  numbered d hd := h.numbered d (hdocuments ▸ hd)

theorem mono {admits' : Tree → Prop} (h : store.Numbers admits)
    (hmono : ∀ tree, admits tree → admits' tree) : store.Numbers admits' where
  distinct := h.distinct
  used := h.used
  numbered d hd := by
    obtain ⟨tree, htree, hstored⟩ := h.numbered d hd
    exact ⟨tree, hmono tree htree, hstored⟩

theorem numbered_of_ofTree {docId : DocumentId} {uri : String} {tree : Tree} (htree : admits tree)
    (h : StoredDocument.ofTree docId uri tree = .ok d) :
    ∃ tree, admits tree ∧ StoredDocument.ofTree d.doc.id d.doc.uri tree = .ok d := by
  obtain ⟨hid, huri⟩ := StoredDocument.doc_ofTree h
  exact ⟨tree, htree, by rw [hid, huri, h]⟩

theorem add (h : store.Numbers admits) (uri : String) {tree : Tree} (htree : admits tree) :
    (store.add uri tree).2.Numbers admits := by
  rw [Store.add]
  split
  · exact h.congr rfl (Nat.le_succ _)
  · next stored hstored =>
    obtain ⟨hid, -⟩ := StoredDocument.doc_ofTree hstored
    have hnew : stored.doc.id.raw = store.additions + 1 := congrArg DocumentId.raw hid
    constructor
    · show ((store.documents ++ [stored]).map _).Nodup
      rw [List.map_append, List.nodup_append]
      refine ⟨h.distinct, List.nodup_singleton _, ?_⟩
      intro id hmem other hother heq
      obtain ⟨d, hd, rfl⟩ := List.mem_map.mp hmem
      rw [List.mem_singleton.mp hother] at heq
      have hraw : d.doc.id.raw = stored.doc.id.raw := congrArg DocumentId.raw heq
      have hused := h.used d hd
      omega
    · intro d hd
      obtain hd | hd := List.mem_append.mp hd
      · exact Nat.le_succ_of_le (h.used d hd)
      · rw [List.mem_singleton.mp hd]
        exact Nat.le_of_eq hnew
    · intro d hd
      obtain hd | hd := List.mem_append.mp hd
      · exact h.numbered d hd
      · rw [List.mem_singleton.mp hd]
        exact numbered_of_ofTree htree hstored

theorem replace (h : store.Numbers admits) (id : DocumentId) (uri : String) {tree : Tree}
    (htree : admits tree) : (store.replace id uri tree).2.Numbers admits := by
  rw [Store.replace]
  split
  · exact h
  · next stored hstored =>
    split
    · obtain ⟨hid, -⟩ := StoredDocument.doc_ofTree hstored
      have hids : (store.documents.map fun d => if d.doc.id = id then stored else d).map
          (·.doc.id) = store.documents.map (·.doc.id) := by
        rw [List.map_map]
        refine List.map_congr_left fun d _ => ?_
        by_cases hd : d.doc.id = id
        · simp [hd, hid]
        · simp [hd]
      constructor
      · exact hids ▸ h.distinct
      · intro d hd
        have hmem : d.doc.id ∈ store.documents.map (·.doc.id) :=
          hids ▸ List.mem_map_of_mem hd
        obtain ⟨d', hd', heq⟩ := List.mem_map.mp hmem
        exact heq ▸ h.used d' hd'
      · intro d hd
        obtain ⟨d', hd', rfl⟩ := List.mem_map.mp hd
        split
        · exact numbered_of_ofTree htree hstored
        · exact h.numbered d' hd'
    · exact h

theorem touch (h : store.Numbers admits) (id : DocumentId) :
    (store.touch id).2.Numbers admits := by
  rw [Store.touch]
  split
  · exact h.congr rfl (Nat.le_refl _)
  · exact h

theorem remove (h : store.Numbers admits) (id : DocumentId) :
    (store.remove id).2.Numbers admits := by
  rw [Store.remove]
  split
  · have hsub : (store.documents.filter (·.doc.id ≠ id)).Sublist store.documents :=
      List.filter_sublist
    exact ⟨h.distinct.sublist (hsub.map _), fun d hd => h.used d (hsub.subset hd),
      fun d hd => h.numbered d (hsub.subset hd)⟩
  · exact h

theorem apply (h : store.Numbers admits) (change : Change)
    (hchange : ∀ tree ∈ change.tree?, admits tree) : (store.apply change).Numbers admits := by
  cases change with
  | add uri tree => exact h.add uri (hchange tree rfl)
  | replace id uri tree => exact h.replace id uri (hchange tree rfl)
  | touch id => exact h.touch id
  | remove id => exact h.remove id

/-- A store that is built by storing trees of some kind has no others. -/
theorem applyAll (h : store.Numbers admits) {changes : List Change}
    (hchanges : ∀ change ∈ changes, ∀ tree ∈ change.tree?, admits tree) :
    (store.applyAll changes).Numbers admits := by
  induction changes generalizing store with
  | nil => exact h
  | cons change changes ih =>
    obtain ⟨hchange, hchanges⟩ := List.forall_mem_cons.mp hchanges
    exact ih (h.apply change hchange) hchanges

end Numbers

namespace Sound

/-- Whatever is done to a store, it stays sound. -/
theorem applyAll (h : store.Sound) (changes : List Change) : (store.applyAll changes).Sound :=
  Numbers.applyAll h fun _ _ _ _ => trivial

theorem congr {other : Store} (h : store.Sound) (hdocuments : other.documents = store.documents)
    (hadditions : store.additions ≤ other.additions) : other.Sound :=
  Numbers.congr h hdocuments hadditions

theorem identifies (h : store.Sound) (hd : d ∈ store.documents) : d.Identifies := by
  obtain ⟨tree, -, hstored⟩ := h.numbered d hd
  exact StoredDocument.identifies_ofTree hstored

theorem eq_of_id {e : StoredDocument} (h : store.Sound) (hd : d ∈ store.documents)
    (he : e ∈ store.documents) (hid : d.doc.id = e.doc.id) : d = e :=
  List.inj_on_of_nodup_map h.distinct hd he hid

theorem document?_eq_some_iff (h : store.Sound) :
    store.document? doc = some d ↔ d ∈ store.documents ∧ d.doc.id = doc := by
  rw [document?]
  constructor
  · intro hfind
    exact ⟨List.mem_of_find?_eq_some hfind, by simpa using List.find?_some hfind⟩
  · rintro ⟨hd, rfl⟩
    obtain ⟨found, hfound⟩ : ∃ found, store.documents.find? (·.doc.id = d.doc.id) = some found :=
      Option.isSome_iff_exists.mp (List.find?_isSome.mpr ⟨d, hd, by simp⟩)
    have hid : found.doc.id = d.doc.id := by simpa using List.find?_some hfound
    rw [hfound, h.eq_of_id (List.mem_of_find?_eq_some hfound) hd hid]

end Sound

theorem sound_empty : Store.empty.Sound := Numbers.empty

theorem nested_empty : Store.empty.Nested := ⟨List.nodup_nil, nofun, nofun⟩

namespace Nested

theorem numbers (h : store.Nested) : store.Numbers Tree.Nests := ⟨h.distinct, h.used, h.nested⟩

theorem sound (h : store.Nested) : store.Sound := h.numbers.mono fun _ _ => trivial

/-- What holds of every store need not be said again of one of nested trees. -/
instance : Coe store.Nested store.Sound := ⟨sound⟩

/-- Only documents and used identifiers count. -/
theorem congr {other : Store} (h : store.Nested) (hdocuments : other.documents = store.documents)
    (hadditions : store.additions ≤ other.additions) : other.Nested :=
  have hother := h.numbers.congr hdocuments hadditions
  ⟨hother.distinct, hother.used, hother.numbered⟩

/-- Every store that is built by storing such trees is nested. -/
theorem applyAll (h : store.Nested) {changes : List Change}
    (hchanges : ∀ change ∈ changes, change.Nests) : (store.applyAll changes).Nested := by
  have hstore : (store.applyAll changes).Numbers Tree.Nests := by
    refine h.numbers.applyAll fun change hchange tree htree => ?_
    have hnests := hchanges change hchange
    cases change with
    | add uri tree => exact Option.some_inj.mp htree ▸ hnests
    | replace id uri tree => exact Option.some_inj.mp htree ▸ hnests
    | touch | remove => cases htree
  exact ⟨hstore.distinct, hstore.used, hstore.numbered⟩

theorem apply (h : store.Nested) (change : Change) (hchange : change.Nests) :
    (store.apply change).Nested :=
  @applyAll store h [change] fun _ hmem => List.mem_singleton.mp hmem ▸ hchange

theorem identifies (h : store.Nested) (hd : d ∈ store.documents) : d.Identifies :=
  h.sound.identifies hd

theorem eq_of_id {e : StoredDocument} (h : store.Nested) (hd : d ∈ store.documents)
    (he : e ∈ store.documents) (hid : d.doc.id = e.doc.id) : d = e := h.sound.eq_of_id hd he hid

theorem document?_eq_some_iff (h : store.Nested) :
    store.document? doc = some d ↔ d ∈ store.documents ∧ d.doc.id = doc :=
  h.sound.document?_eq_some_iff

theorem document?_eq (h : store.Nested) (hd : d ∈ store.documents) :
    store.document? d.doc.id = some d := h.document?_eq_some_iff.mpr ⟨hd, rfl⟩

end Nested

end Store

end TreeAxes
