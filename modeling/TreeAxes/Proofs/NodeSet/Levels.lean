import TreeAxes.Proofs.NodeSet.Anchors
import TreeAxes.Proofs.NodeSet.Joins

/-!
# Level by level

What stands below a node is one block of identifiers on every level. So the entries below it are
gathered in turns: each looks up one block, and its ends lead to the next one. There are no more
turns than levels, and a block that begins behind the last entry is the end of them. What stands
above a node is met on the climb to the root. In either direction each entry is listed once, and
only those in the relation are: below in ascending order, above the nearest first.
-/

namespace TreeAxes

namespace Partition

variable {p : Partition} {node : NodeRef} {id level turns : Nat} {includeSelf : Bool}

/-! ## Turns -/

/-- Where gathering stands: the ends of the block that was looked up last, and what was found. -/
structure Gathering where
  lower : Nat
  upper : Nat
  found : List NodeRef

/-- Before the first turn, an identifier is a block of its own. -/
def gathering (p : Partition) (id : Nat) (includeSelf : Bool) : Gathering :=
  ⟨id, id, if includeSelf then (p.find? id).toList else []⟩

/-- Looks up the block of the next level, unless there is no such level or the block begins behind
the last entry. -/
def turn? (p : Partition) (g : Gathering) : Option Gathering :=
  match p.entries.back?, p.doc.numbering.window? g.lower, p.doc.numbering.window? g.upper with
  | some last, some lower, some upper =>
    if last.id < lower.first then none
    else some ⟨lower.first, upper.last, g.found ++ p.range lower.first upper.last⟩
  | _, _, _ => none

/-- Takes turns until there is none, or until enough is found; `none` if it is not over after that
many. -/
def gather? (p : Partition) (enough : List NodeRef → Bool) : Nat → Gathering → Option (List NodeRef)
  | 0, _ => none
  | turns + 1, g =>
    if enough g.found then some g.found
    else
      match p.turn? g with
      | some next => p.gather? enough turns next
      | none => some g.found

/-- The blocks that are still to be looked up. -/
def blocksFrom (p : Partition) (g : Gathering) : List Window :=
  match p.entries.back? with
  | some last => (p.doc.numbering.blocksBelow g.lower g.upper).takeWhile (·.first ≤ last.id)
  | none => []

/-- Both ends of the last block stand on one level, the lower one first. -/
structure Gathering.Spans (n : Numbering) (g : Gathering) : Prop where
  uses_lower : n.Uses g.lower
  uses_upper : n.Uses g.upper
  sameLevel : n.levelOf g.lower = n.levelOf g.upper
  le : g.lower ≤ g.upper

theorem spans_gathering (hid : p.doc.numbering.Uses id) :
    (p.gathering id includeSelf).Spans p.doc.numbering :=
  ⟨hid, hid, rfl, Nat.le_refl id⟩

/-- The children of a block are a block. -/
theorem Gathering.Spans.below {n : Numbering} {g : Gathering} {lower upper : Window}
    (hg : g.Spans n) (hlower : n.window? g.lower = some lower)
    (hupper : n.window? g.upper = some upper) (found : List NodeRef) :
    Gathering.Spans n ⟨lower.first, upper.last, found⟩ := by
  obtain ⟨huses, hlevel⟩ :=
    Numbering.levelOf_window hlower ⟨Nat.le_refl _, Numbering.first_le_last hlower⟩
  obtain ⟨huses', hlevel'⟩ :=
    Numbering.levelOf_window hupper ⟨Numbering.first_le_last hupper, Nat.le_refl _⟩
  constructor
  case uses_lower => exact huses
  case uses_upper => exact huses'
  case sameLevel =>
    calc n.levelOf lower.first
      _ = n.levelOf g.lower + 1 := hlevel
      _ = n.levelOf g.upper + 1 := by rw [hg.sameLevel]
      _ = n.levelOf upper.last := hlevel'.symm
  case le => exact Numbering.first_le_last_of_le hg.uses_lower hg.sameLevel hg.le hlower hupper

/-- A turn looks up the first of the blocks that are left, and leaves the others. -/
theorem turn?_cases {g : Gathering} (hg : g.Spans p.doc.numbering) :
    (p.blocksFrom g = [] ∧ p.turn? g = none) ∨
      ∃ block next, p.blocksFrom g = block :: p.blocksFrom next ∧ p.turn? g = some next ∧
        next.Spans p.doc.numbering ∧ next.found = g.found ++ p.range block.first block.last := by
  rw [turn?]
  unfold blocksFrom
  cases p.entries.back? with
  | none => exact .inl ⟨rfl, rfl⟩
  | some last =>
    dsimp only
    rw [Numbering.blocksBelow]
    cases hlower : p.doc.numbering.window? g.lower with
    | none => exact .inl ⟨rfl, rfl⟩
    | some lower =>
      cases hupper : p.doc.numbering.window? g.upper with
      | none => exact .inl ⟨rfl, rfl⟩
      | some upper =>
        dsimp only
        rw [List.takeWhile_cons]
        by_cases hbehind : last.id < lower.first
        · left
          rw [if_pos hbehind, decide_eq_false (Nat.not_le_of_lt hbehind)]
          exact ⟨rfl, rfl⟩
        · right
          have hbelow := hg.below hlower hupper (g.found ++ p.range lower.first upper.last)
          have hlast :
              (⟨lower.first, upper.last + 1 - lower.first⟩ : Window).last = upper.last := by
            have hle := hbelow.le
            simp only [Window.last] at hle ⊢
            omega
          rw [if_neg hbehind, decide_eq_true (Nat.le_of_not_lt hbehind)]
          refine ⟨_, _, rfl, rfl, hbelow, ?_⟩
          rw [hlast]

/-- What looking up one block after the other finds, until it is enough. -/
def foundIn (p : Partition) (enough : List NodeRef → Bool) (found : List NodeRef) :
    List Window → List NodeRef
  | [] => found
  | block :: blocks =>
    if enough found then found
    else p.foundIn enough (found ++ p.range block.first block.last) blocks

/-- Gathering is over once there is a turn more than there are blocks. -/
theorem gather?_eq {enough : List NodeRef → Bool} {g : Gathering} (hg : g.Spans p.doc.numbering)
    (hturns : (p.blocksFrom g).length < turns) :
    p.gather? enough turns g = some (p.foundIn enough g.found (p.blocksFrom g)) := by
  induction turns generalizing g with
  | zero => exact absurd hturns (Nat.not_lt_zero _)
  | succ turns ih =>
    obtain ⟨hblocks, hturn⟩ | ⟨block, next, hblocks, hturn, hnext, hfound⟩ := turn?_cases hg
    · simp only [gather?, hblocks, hturn, foundIn]
      split <;> rfl
    · rw [hblocks, List.length_cons] at hturns
      rw [gather?, hblocks, foundIn, hturn]
      dsimp only
      rw [ih hnext (by omega), hfound]
      split <;> rfl

/-- There are fewer blocks below a level than levels. -/
theorem length_blocksBelow_lt (n : Numbering) (lower upper : Nat) :
    (n.blocksBelow lower upper).length + n.levelOf lower < n.depth := by
  fun_induction Numbering.blocksBelow n lower upper with
  | case1 lower upper first last hfirst hlast ih =>
    obtain ⟨-, hlevel⟩ :=
      Numbering.levelOf_window hfirst ⟨Nat.le_refl _, Numbering.first_le_last hfirst⟩
    rw [List.length_cons]
    omega
  | case2 lower upper => simpa using n.levelOf_lt_depth lower

theorem length_blocksFrom_lt (p : Partition) (g : Gathering) :
    (p.blocksFrom g).length < p.doc.numbering.depth := by
  have hbelow := length_blocksBelow_lt p.doc.numbering g.lower g.upper
  rw [blocksFrom]
  split
  · next last _ =>
    have hle := (List.takeWhile_prefix (fun block : Window => decide (block.first ≤ last.id))
      (l := p.doc.numbering.blocksBelow g.lower g.upper)).length_le
    omega
  · exact Nat.zero_lt_of_lt hbelow

theorem foundIn_all (p : Partition) (found : List NodeRef) (blocks : List Window) :
    p.foundIn (fun _ => false) found blocks =
      found ++ blocks.flatMap fun block => p.range block.first block.last := by
  induction blocks generalizing found with
  | nil => simp [foundIn]
  | cons block blocks ih =>
    rw [foundIn, if_neg Bool.false_ne_true, ih, List.flatMap_cons, List.append_assoc]

/-- Until something is found, nothing is. -/
theorem isEmpty_foundIn_some (p : Partition) (blocks : List Window) :
    (p.foundIn (!·.isEmpty) [] blocks).isEmpty =
      !blocks.any fun block => !(p.range block.first block.last).isEmpty := by
  induction blocks with
  | nil => rfl
  | cons block blocks ih =>
    rw [foundIn, List.any_cons, List.nil_append]
    cases hrange : p.range block.first block.last with
    | nil => exact ih
    | cons node nodes =>
      cases blocks with
      | nil => rfl
      | cons next blocks => rfl

/-- Gathering to its end lists what stands below. -/
theorem gather?_gathering (hid : p.doc.numbering.Uses id) (includeSelf : Bool) :
    p.gather? (fun _ => false) p.doc.numbering.depth (p.gathering id includeSelf) =
      some (p.descendants id includeSelf) := by
  rw [gather?_eq (spans_gathering hid) (p.length_blocksFrom_lt _), foundIn_all]
  rfl

/-- Gathering until something is found tells whether there is something below. -/
theorem map_gather?_gathering (hid : p.doc.numbering.Uses id) :
    (p.gather? (!·.isEmpty) p.doc.numbering.depth (p.gathering id false)).map (!·.isEmpty) =
      some (p.hasDescendant id) := by
  rw [gather?_eq (spans_gathering hid) (p.length_blocksFrom_lt _), Option.map_some]
  have hfound : (p.gathering id false).found = [] := rfl
  rw [hfound, isEmpty_foundIn_some, Bool.not_not]
  rfl

/-- Looking through the blocks finds an entry if they hold one. -/
theorem hasDescendant_iff_ne_nil (p : Partition) (id : Nat) :
    p.hasDescendant id ↔ p.descendants id false ≠ [] := by
  rw [hasDescendant, descendants, if_neg Bool.false_ne_true, List.nil_append, Ne,
    List.flatMap_eq_nil_iff, List.any_eq_true]
  simp

/-! ## Climbs -/

/-- A climb stops at the first entry that it would list. -/
theorem climbToEntry_eq_head? (hlevel : level < p.doc.numbering.depth) :
    p.climbToEntry false level id = (p.entriesAbove level id).head? := by
  induction level generalizing id with
  | zero => rfl
  | succ level ih =>
    obtain ⟨upper, hupper⟩ := p.doc.numbering.exists_level (i := level) (by omega)
    have hparent : 0 < p.doc.numbering.parentAt id (level + 1) :=
      Nat.lt_of_lt_of_le (Numbering.first_pos hupper) (Numbering.first_le_parentAt hupper hlevel)
    rw [climbToEntry, entriesAbove, if_neg (Nat.ne_of_gt hparent), List.head?_append,
      Option.head?_toList, ← ih (by omega)]
    cases p.find? (p.doc.numbering.parentAt id (level + 1)) with
    | none => rfl
    | some found => rfl

/-- The nearest entry is the first one that is listed, whatever the identifier. -/
theorem nearest_eq_head?_ancestors (p : Partition) (id : Nat) (includeSelf : Bool) :
    p.nearest id false includeSelf = (p.ancestors id includeSelf).head? := by
  rw [nearest, ancestors, List.head?_append,
    ← climbToEntry_eq_head? (p.doc.numbering.levelOf_lt_depth id)]
  cases includeSelf with
  | false => rfl
  | true =>
    simp only [if_true, Option.head?_toList]
    cases p.find? id with
    | none => rfl
    | some found => rfl

/-- Of two nodes on one climb, the one with the smaller identifier stands above the other. -/
theorem isAncestor_of_lt {n : Numbering} {a b x : Nat} (hx : n.Uses x) (hb : n.Uses b)
    (ha : a = x ∨ n.isAncestor a x) (hbx : b = x ∨ n.isAncestor b x) (hlt : b < a) :
    n.isAncestor b a := by
  obtain ⟨-, hlift⟩ := Numbering.eq_or_isAncestor_iff.mp ha
  obtain ⟨-, hlift'⟩ := Numbering.eq_or_isAncestor_iff.mp hbx
  have hle := Numbering.levelOf_le_levelOf (n := n) hb.ne_noNode (Nat.le_of_lt hlt)
  apply Numbering.isAncestor_iff.mpr
  constructor
  · apply Nat.lt_of_le_of_ne hle
    intro hlevel
    rw [← hlift, ← hlift', hlevel] at hlt
    exact Nat.lt_irrefl _ hlt
  · calc n.liftTo (n.levelOf b) a
      _ = n.liftTo (n.levelOf b) (n.liftTo (n.levelOf a) x) := by rw [hlift]
      _ = n.liftTo (n.levelOf b) x := Numbering.liftTo_liftTo hx hle
      _ = b := hlift'

/-- What is listed from a climb comes nearest first. -/
theorem ancestors_nearestFirst (h : p.Ready) (hid : p.doc.numbering.Uses id)
    (includeSelf : Bool) :
    (p.ancestors id includeSelf).Pairwise fun a b => p.doc.numbering.isAncestor b.id a.id := by
  apply (pairwise_ancestors h hid includeSelf).imp_of_mem
  intro a b ha hb hlt
  obtain ⟨-, ha⟩ := (mem_ancestors_iff h hid).mp ha
  obtain ⟨hmem, hb⟩ := (mem_ancestors_iff h hid).mp hb
  exact isAncestor_of_lt hid (h.uses b hmem) (ha.imp_left And.right) (hb.imp_left And.right) hlt

/-! ## The main statement -/

/-- What is looked up above and below an identifier. -/
structure GathersByLevels (p : Partition) (id : Nat) : Prop where
  /-- Gathering is over after no more turns than there are levels. -/
  gathers : ∀ includeSelf,
    p.gather? (fun _ => false) p.doc.numbering.depth (p.gathering id includeSelf) =
      some (p.descendants id includeSelf)
  /-- So is looking for one entry below, which ends with the first block that has one. -/
  looks : (p.gather? (!·.isEmpty) p.doc.numbering.depth (p.gathering id false)).map (!·.isEmpty) =
    some (p.hasDescendant id)
  /-- The entries below are listed as they are stored, so each once. -/
  descendants_eq : ∀ includeSelf, p.descendants id includeSelf =
    p.nodes.filter fun node =>
      p.doc.numbering.isAncestor id node.id || (includeSelf && node.id = id)
  ascending : ∀ includeSelf, (p.descendants id includeSelf).Pairwise (·.id < ·.id)
  hasDescendant_iff : p.hasDescendant id ↔ p.descendants id false ≠ []
  /-- The entries above are listed the other way round, so each once, too. -/
  ancestors_eq : ∀ includeSelf, p.ancestors id includeSelf =
    (p.nodes.filter fun node =>
      p.doc.numbering.isAncestor node.id id || (includeSelf && node.id = id)).reverse
  /-- Whatever is listed after an entry stands above it. -/
  nearestFirst : ∀ includeSelf,
    (p.ancestors id includeSelf).Pairwise fun a b => p.doc.numbering.isAncestor b.id a.id
  nearest_eq : ∀ includeSelf, p.nearest id false includeSelf = (p.ancestors id includeSelf).head?

/-- In a sorted partition of numbered nodes, lookups find exactly the entries above and below. -/
theorem gathersByLevels (hascending : p.nodes.Pairwise (·.id < ·.id))
    (hnumbers : ∀ node ∈ p.nodes, p.doc.numbering.Numbers node.id)
    (hid : p.doc.numbering.Numbers id) : p.GathersByLevels id := by
  have h : p.Ready :=
    ⟨hascending, fun node hnode => Numbering.numbers_iff_uses.mp (hnumbers node hnode)⟩
  have huses := Numbering.numbers_iff_uses.mp hid
  constructor
  case gathers => exact gather?_gathering huses
  case looks => exact map_gather?_gathering huses
  case ascending => exact pairwise_descendants h huses
  case hasDescendant_iff => exact p.hasDescendant_iff_ne_nil id
  case nearestFirst => exact ancestors_nearestFirst h huses
  case nearest_eq => exact p.nearest_eq_head?_ancestors id
  case descendants_eq =>
    intro includeSelf
    apply eq_of_ascending (pairwise_descendants h huses includeSelf) (hascending.filter _)
    intro node
    rw [mem_descendants_iff h huses, List.mem_filter, or_comm]
    simp
  case ancestors_eq =>
    intro includeSelf
    apply List.reverse_eq_iff.mp
    apply eq_of_ascending _ (hascending.filter _)
    · intro node
      rw [List.mem_reverse, mem_ancestors_iff h huses, List.mem_filter, or_comm]
      simp
    · exact List.pairwise_reverse.mpr (pairwise_ancestors h huses includeSelf)

/-- Some elements of the binary tree: its root, and one child with one leaf on either side. -/
def scattered : Partition where
  doc := ⟨⟨1⟩, "", NodeSet.binary⟩
  entries := ([1, 3, 5, 6].map (NodeRef.element ⟨⟨1⟩, "", NodeSet.binary⟩)).toArray

/-- Below a node without an entry, and from a leaf up. -/
theorem gathersByLevels_scattered :
    scattered.GathersByLevels 2 ∧ scattered.GathersByLevels 6 :=
  ⟨gathersByLevels (by decide) (by decide) (by decide),
    gathersByLevels (by decide) (by decide) (by decide)⟩

end Partition

end TreeAxes
