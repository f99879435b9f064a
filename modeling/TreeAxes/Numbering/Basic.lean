import TreeAxes.Bisection

/-!
# Level-order numbering of trees

A numbering hands out node identifiers level by level. The root is `1`; below every
node of one level the same number of slots is reserved, so the identifiers of a level
form one contiguous block and the children of a node one contiguous window of it.
Parents, levels and windows follow from identifiers alone, without looking at a tree.

A numbering is built from the fan-outs of its levels and is refused when a fan-out is
zero or when the blocks do not fit into 64 bits.
-/

namespace TreeAxes

/-- Stands for the parent of the root: no node has this identifier. -/
abbrev noNode : Nat := 0

/-- Identifier of the root. -/
abbrev rootNode : Nat := 1

/-- The largest identifier that fits into 64 bits. -/
def maxIdentifier : Nat := UInt64.size - 1

/-- Why a list of fan-outs gives no numbering. Levels count from the root's level `0`. -/
inductive NumberingError where
  | zeroFanOut (level : Nat)
  | overflow (level : Nat)
deriving DecidableEq, Repr

namespace NumberingError

def message : NumberingError → String
  | zeroFanOut level => s!"fan-out of level {level} must be at least 1"
  | overflow level => s!"identifier space overflows at level {level}"

end NumberingError

/-- One level of a numbering: its block of `count` identifiers starts at `first`, and
every node of the level above owns `slots` of them. -/
structure Level where
  first : Nat
  count : Nat
  slots : Nat
deriving DecidableEq, Repr

namespace Level

/-- The root's level. -/
def root : Level := ⟨rootNode, 1, 1⟩

/-- The level below, with `slots` slots for every node of this one. -/
def next (above : Level) (slots : Nat) : Level :=
  ⟨above.first + above.count, above.count * slots, slots⟩

/-- The levels below, one for each fan-out. -/
def below (above : Level) : List Nat → List Level
  | [] => []
  | slots :: rest => above.next slots :: (above.next slots).below rest

/-- The first fault of the fan-outs below a level, where `level` is the number of the
level that the first of them describes. A zero is noticed before a block that is too large. -/
def fault? (above : Level) (level : Nat) : List Nat → Option NumberingError
  | [] => none
  | slots :: rest =>
    if slots = 0 then some (.zeroFanOut level)
    else if maxIdentifier < (above.next slots).first + (above.next slots).count then
      some (.overflow level)
    else (above.next slots).fault? (level + 1) rest

@[simp] theorem next_first (above : Level) (slots : Nat) :
    (above.next slots).first = above.first + above.count := rfl

@[simp] theorem next_count (above : Level) (slots : Nat) :
    (above.next slots).count = above.count * slots := rfl

@[simp] theorem next_slots (above : Level) (slots : Nat) :
    (above.next slots).slots = slots := rfl

@[simp] theorem length_below (above : Level) (fanOut : List Nat) :
    (above.below fanOut).length = fanOut.length := by
  induction fanOut generalizing above with
  | nil => rfl
  | cons slots rest ih => simp [below, ih]

theorem pos_of_fault?_eq_none {above : Level} {level : Nat} {fanOut : List Nat}
    (h : above.fault? level fanOut = none) : ∀ slots ∈ fanOut, 0 < slots := by
  induction fanOut generalizing above level with
  | nil => simp
  | cons slots rest ih =>
    unfold fault? at h
    split at h
    · simp at h
    · split at h
      · simp at h
      · intro m hm
        rcases List.mem_cons.1 hm with rfl | hm
        · omega
        · exact ih h m hm

end Level

/-- The slots reserved for the children of one node. -/
structure Window where
  first : Nat
  slots : Nat
deriving DecidableEq, Repr

namespace Window

/-- The last slot. -/
def last (w : Window) : Nat := w.first + w.slots - 1

def contains (w : Window) (id : Nat) : Bool := w.first ≤ id && id ≤ w.last

/-- All slots in ascending order. -/
def ids (w : Window) : List Nat := List.range' w.first w.slots

end Window

/-- A level-order numbering, given by the fan-out of every level below the root. -/
structure Numbering where
  fanOut : List Nat
  /-- All levels, the root's first. -/
  levels : Array Level
  accepted : Level.root.fault? 1 fanOut = none
  tabulated : levels.toList = Level.root :: Level.root.below fanOut

namespace Numbering

/-- The numbering with the given fan-outs, or the first fault in them. -/
def ofFanOut (fanOut : List Nat) : Except NumberingError Numbering :=
  match h : Level.root.fault? 1 fanOut with
  | some fault => .error fault
  | none => .ok ⟨fanOut, (Level.root :: Level.root.below fanOut).toArray, h, rfl⟩

/-- Number of levels, the root's included. -/
def depth (n : Numbering) : Nat := n.levels.size

/-- The largest identifier of the numbering. -/
def maxId (n : Numbering) : Nat :=
  match n.levels.back? with
  | some level => level.first + level.count - 1
  | none => rootNode

/-- Level of an identifier: the last one that begins at or before it. An identifier beyond
the last block counts as one of the last level. -/
def levelOf (n : Numbering) (id : Nat) : Nat := Bisection.last (·.first ≤ id) n.levels

/-- Parent of an identifier that stands on `level`. -/
def parentAt (n : Numbering) (id : Nat) (level : Nat) : Nat :=
  match level with
  | 0 => noNode
  | above + 1 =>
    match n.levels[above]?, n.levels[above + 1]? with
    | some upper, some own => (id - own.first) / own.slots + upper.first
    | _, _ => noNode

/-- Parent of an identifier, computed from its own level. -/
def parentOf (n : Numbering) (id : Nat) : Nat := n.parentAt id (n.levelOf id)

/-- The slots below `parent`, if the numbering has a level for them. -/
def window? (n : Numbering) (parent : Nat) : Option Window :=
  if parent = noNode then none
  else
    match n.levels[n.levelOf parent]?, n.levels[n.levelOf parent + 1]? with
    | some own, some lower => some ⟨(parent - own.first) * lower.slots + lower.first, lower.slots⟩
    | _, _ => none

theorem getElem?_levels (n : Numbering) (i : Nat) :
    n.levels[i]? = (Level.root :: Level.root.below n.fanOut)[i]? := by
  rw [← n.tabulated, Array.getElem?_toList]

theorem depth_eq (n : Numbering) : n.depth = n.fanOut.length + 1 := by
  rw [depth, ← Array.length_toList, n.tabulated]
  simp

theorem fanOut_ofFanOut {n : Numbering} {fanOut : List Nat} (h : ofFanOut fanOut = .ok n) :
    n.fanOut = fanOut := by
  rw [ofFanOut] at h
  split at h
  · cases h
  · cases h
    rfl

theorem parentAt_zero (n : Numbering) (id : Nat) : n.parentAt id 0 = noNode := rfl

end Numbering

end TreeAxes
