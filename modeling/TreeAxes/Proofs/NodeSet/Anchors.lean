import TreeAxes.Proofs.NodeSet.Related

/-!
# The order of anchors

A selector lists the anchors of a candidate nearest first: going up, each stands before those
above it; otherwise they come by identifier, level by level. So no anchor is listed twice, and the
first one is the one that no other is nearer than.
-/

namespace TreeAxes

namespace Relation

/-- Whether one anchor of a node is listed before another. -/
def Nearer (relation : Relation) (a b : Nat) : Prop :=
  match relation with
  | .descendant _ => b < a
  | _ => a < b

variable {relation : Relation} {a b : Nat}

theorem Nearer.ne (h : relation.Nearer a b) : a ≠ b := by
  cases relation with
  | descendant includeSelf => exact Nat.ne_of_gt h
  | _ => exact Nat.ne_of_lt h

theorem Nearer.asymm (h : relation.Nearer a b) : ¬relation.Nearer b a := by
  cases relation with
  | descendant includeSelf => exact Nat.lt_asymm h
  | _ => exact Nat.lt_asymm h

end Relation

namespace Partition

variable {p : Partition} {id : Nat}

theorem pairwise_toList {α : Type} {R : α → α → Prop} (found : Option α) :
    found.toList.Pairwise R := by
  cases found with
  | none => exact .nil
  | some x => exact List.pairwise_singleton R x

/-- On a climb, each entry stands before those above it. -/
theorem pairwise_entriesAbove (h : p.Ready) (hid : p.doc.numbering.Uses id) {level : Nat}
    (hlevel : p.doc.numbering.levelOf id = level) :
    (p.entriesAbove level id).Pairwise fun a b => b.id < a.id := by
  induction level generalizing id with
  | zero => exact .nil
  | succ level ih =>
    obtain ⟨huses, hparent⟩ := hid.parentOf (hlevel ▸ Nat.succ_pos level)
    rw [entriesAbove, parentAt_levelOf hlevel]
    refine List.pairwise_append.mpr ⟨pairwise_toList _, ih huses (by omega), ?_⟩
    intro a ha b hb
    obtain ⟨-, haid⟩ := (mem_toList_find?_iff h).mp ha
    obtain ⟨-, habove⟩ := (mem_entriesAbove_iff h huses (by omega)).mp hb
    rw [haid]
    exact Numbering.id_lt_of_isAncestor huses habove

theorem pairwise_ancestors (h : p.Ready) (hid : p.doc.numbering.Uses id) (includeSelf : Bool) :
    (p.ancestors id includeSelf).Pairwise fun a b => b.id < a.id := by
  rw [ancestors]
  refine List.pairwise_append.mpr ⟨?_, pairwise_entriesAbove h hid rfl, ?_⟩
  · split
    · exact pairwise_toList _
    · exact .nil
  · intro a ha b hb
    obtain ⟨-, habove⟩ := (mem_entriesAbove_iff h hid rfl).mp hb
    split at ha
    · obtain ⟨-, haid⟩ := (mem_toList_find?_iff h).mp ha
      rw [haid]
      exact Numbering.id_lt_of_isAncestor hid habove
    · cases ha

theorem pairwise_range (h : p.Ready) (lower upper : Nat) :
    (p.range lower upper).Pairwise (·.id < ·.id) := by
  rw [range_eq (h.ascending.imp Nat.le_of_lt)]
  exact h.ascending.filter _

theorem pairwise_children (h : p.Ready) (parent : Nat) :
    (p.children parent).Pairwise (·.id < ·.id) := by
  rw [children]
  split
  · exact pairwise_range h _ _
  · exact .nil

/-- Entries below a node come level by level. -/
theorem pairwise_descendants (h : p.Ready) (hid : p.doc.numbering.Uses id) (includeSelf : Bool) :
    (p.descendants id includeSelf).Pairwise (·.id < ·.id) := by
  have hblocks : (p.blocks id).Pairwise (·.last < ·.first) := by
    rw [blocks]
    split
    · exact (Numbering.pairwise_last_lt_first rfl).sublist (List.takeWhile_sublist _)
    · exact .nil
  rw [descendants]
  refine List.pairwise_append.mpr ⟨?_, List.pairwise_flatMap.mpr ⟨fun block _ =>
    pairwise_range h _ _, hblocks.imp ?_⟩, ?_⟩
  · split
    · exact pairwise_toList _
    · exact .nil
  · intro first second hlt a ha b hb
    obtain ⟨-, -, hlast⟩ := (mem_range_iff h).mp ha
    obtain ⟨-, hfirst, -⟩ := (mem_range_iff h).mp hb
    omega
  · intro a ha b hb
    split at ha
    · obtain ⟨-, haid⟩ := (mem_toList_find?_iff h).mp ha
      obtain ⟨hmem, hbelow⟩ :=
        (mem_blocks_ranges_iff h hid).mp (List.mem_flatMap.mp hb)
      rw [haid]
      exact Numbering.id_lt_of_isAncestor (h.uses b hmem) hbelow
    · cases ha

end Partition

/-- The anchors of a node in a partition, nearest first. -/
theorem Selector.pairwise_anchorsIn {p : Partition} (h : p.Ready) {id : Nat}
    (hid : p.doc.numbering.Uses id) (relation : Relation) :
    (anchorsIn relation p id).Pairwise fun a b => relation.Nearer a.id b.id := by
  cases relation with
  | child => exact Partition.pairwise_toList _
  | descendant includeSelf => exact Partition.pairwise_ancestors h hid includeSelf
  | parent => exact Partition.pairwise_children h id
  | ancestor includeSelf => exact Partition.pairwise_descendants h hid includeSelf
  | self => exact Partition.pairwise_toList _
  | sibling direction => exact .nil
  | beyond direction => exact .nil

end TreeAxes
