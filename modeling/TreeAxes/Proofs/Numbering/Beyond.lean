import TreeAxes.NodeSet.Relation
import TreeAxes.Proofs.Numbering.Ancestry

/-!
# What lies beside a node

Two nodes that are not above one another are lifted to the upper one of their levels; what
they are lifted to decides which comes first in document order. Hence what lies beyond a node
is found below its siblings on that side, and beyond its parent.
-/

namespace TreeAxes

namespace Numbering

open TreeAxes.Partition (liesOn)

variable {n : Numbering} {a b p x : Nat} {direction : Direction}

theorem not_liesOn_self (direction : Direction) (x : Nat) : ¬ liesOn direction x x := by
  cases direction <;> simp [liesOn]

/-- On one level, parents stand on the side on which their children stand, or coincide. -/
theorem liesOn_parentOf_iff (hlevel : n.levelOf a = n.levelOf b)
    (hne : n.parentOf a ≠ n.parentOf b) :
    liesOn direction (n.parentOf a) (n.parentOf b) ↔ liesOn direction a b := by
  have hmono {c d : Nat} (hcd : n.levelOf c = n.levelOf d) (hle : c ≤ d) :
      n.parentOf c ≤ n.parentOf d := by
    rw [parentOf, parentOf, hcd]
    exact n.parentAt_le_parentAt _ hle
  have hab := hmono hlevel
  have hba := hmono hlevel.symm
  have hne' : a ≠ b := fun h => hne (by rw [h])
  cases direction with
  | following =>
    simp only [liesOn, decide_eq_true_eq]
    omega
  | preceding =>
    simp only [liesOn, decide_eq_true_eq]
    omega

/-- Lifted to the upper one of their levels, nodes compare as in document order, unless one
of them is above the other. -/
theorem lt_and_not_isAncestor_iff :
    (n.compareDocumentOrder a b = .lt ∧ ¬ n.isAncestor a b) ↔
      n.liftTo (n.levelOf b) a < n.liftTo (n.levelOf a) b := by
  rw [isAncestor_iff, compareDocumentOrder]
  split
  · next heq =>
    rw [heq]
    simp
  · next hne =>
    have hlift (level id : Nat) : n.lift (n.levelOf id) level id = n.liftTo level id := rfl
    simp only [hlift]
    rcases Nat.lt_trichotomy (n.liftTo (n.levelOf b) a) (n.liftTo (n.levelOf a) b)
      with hlt | heq | hgt
    · rw [Nat.compare_eq_lt.mpr hlt]
      refine ⟨fun _ => hlt, fun _ => ⟨rfl, ?_⟩⟩
      rintro ⟨hlevel, hlift⟩
      rw [liftTo_of_le (Nat.le_of_lt hlevel), hlift] at hlt
      exact Nat.lt_irrefl _ hlt
    · rw [heq, Nat.compare_eq_eq.mpr rfl]
      refine ⟨?_, fun hlt => absurd hlt (Nat.lt_irrefl _)⟩
      rintro ⟨hlevel, hnot⟩
      have hlevel := Nat.compare_eq_lt.mp hlevel
      rw [liftTo_of_le (Nat.le_of_lt hlevel)] at heq
      exact absurd ⟨hlevel, heq.symm⟩ hnot
    · rw [Nat.compare_eq_gt.mpr hgt]
      refine ⟨fun h => ?_, fun hlt => absurd hlt (Nat.lt_asymm hgt)⟩
      cases h.1

theorem isBeyond_iff :
    n.isBeyond direction p x ↔
      liesOn direction (n.liftTo (n.levelOf x) p) (n.liftTo (n.levelOf p) x) := by
  cases direction with
  | following =>
    rw [isBeyond, liesOn, decide_eq_true_iff, ← lt_and_not_isAncestor_iff]
    simp
  | preceding =>
    rw [isBeyond, liesOn, decide_eq_true_iff, ← lt_and_not_isAncestor_iff]
    simp

/-- Lifted to the level of a node, something comes to that node if it is in its subtree. -/
theorem eq_or_isAncestor_iff :
    (a = x ∨ n.isAncestor a x) ↔
      n.levelOf a ≤ n.levelOf x ∧ n.liftTo (n.levelOf a) x = a := by
  rw [isAncestor_iff]
  constructor
  · rintro (rfl | ⟨hlevel, hlift⟩)
    · exact ⟨Nat.le_refl _, liftTo_of_le (Nat.le_refl _)⟩
    · exact ⟨Nat.le_of_lt hlevel, hlift⟩
  · rintro ⟨hlevel, hlift⟩
    rcases Nat.eq_or_lt_of_le hlevel with heq | hlt
    · rw [liftTo_of_le (Nat.le_of_eq heq.symm)] at hlift
      exact .inl hlift.symm
    · exact .inr ⟨hlt, hlift⟩

/-- The subtrees of the siblings of a node hold what is lifted to one of them. -/
theorem exists_sibling_iff (hp : n.Uses p) (hne : n.parentOf p ≠ noNode) (hx : n.Uses x) :
    (∃ sibling, n.Uses sibling ∧ n.parentOf sibling = n.parentOf p ∧
        liesOn direction p sibling ∧ (sibling = x ∨ n.isAncestor sibling x)) ↔
      n.levelOf p ≤ n.levelOf x ∧ n.parentOf (n.liftTo (n.levelOf p) x) = n.parentOf p ∧
        liesOn direction p (n.liftTo (n.levelOf p) x) := by
  have hplevel := hp.levelOf_parentOf hne
  constructor
  · rintro ⟨sibling, huses, hparent, hside, hsub⟩
    have hlevel := huses.levelOf_parentOf (hparent ▸ hne)
    rw [hparent, hplevel] at hlevel
    obtain ⟨hle, hlift⟩ := eq_or_isAncestor_iff.mp hsub
    rw [← hlevel] at hle hlift
    rw [hlift]
    exact ⟨hle, hparent, hside⟩
  · rintro ⟨hle, hparent, hside⟩
    obtain ⟨huses, hlevel⟩ := hx.liftTo hle
    refine ⟨_, huses, hparent, hside, eq_or_isAncestor_iff.mpr ?_⟩
    rw [hlevel]
    exact ⟨hle, rfl⟩

/-- What lies beyond a node lies in the subtree of a sibling on that side, or beyond the
parent. -/
theorem isBeyond_iff_parentOf (hp : n.Uses p) (hx : n.Uses x) :
    n.isBeyond direction p x ↔
      n.parentOf p ≠ noNode ∧
        ((∃ sibling, n.Uses sibling ∧ n.parentOf sibling = n.parentOf p ∧
            liesOn direction p sibling ∧ (sibling = x ∨ n.isAncestor sibling x)) ∨
          n.isBeyond direction (n.parentOf p) x) := by
  rw [isBeyond_iff, isBeyond_iff]
  by_cases hne : n.parentOf p = noNode
  · -- everything is lifted to the root
    have hzero : n.levelOf p = 0 := Nat.eq_zero_of_not_pos fun hpos =>
      hp.parentOf_ne_noNode_iff.mpr hpos hne
    obtain ⟨hroot, hlevel⟩ := hx.liftTo (k := 0) (Nat.zero_le _)
    refine iff_of_false ?_ fun h => h.1 hne
    rw [hzero, hp.eq_rootNode hzero, liftTo_of_le (by rw [levelOf_rootNode]; omega),
      hroot.eq_rootNode hlevel]
    exact not_liesOn_self direction rootNode
  rw [and_iff_right hne, exists_sibling_iff hp hne hx]
  have hplevel := hp.levelOf_parentOf hne
  rcases Nat.lt_or_ge (n.levelOf x) (n.levelOf p) with hlt | hge
  · -- the node is deeper: it is lifted as its parent is
    rw [liftTo_parentOf hlt hp, liftTo_of_le (Nat.le_of_lt hlt),
      liftTo_of_le (k := n.levelOf (n.parentOf p)) (by omega)]
    exact (or_iff_right fun h => absurd h.1 (Nat.not_le_of_lt hlt)).symm
  · -- the other is lifted to a node beside this one, or to one below another parent
    obtain ⟨hy, hylevel⟩ := hx.liftTo hge
    have hyparent : n.liftTo (n.levelOf (n.parentOf p)) x =
        n.parentOf (n.liftTo (n.levelOf p) x) := by
      rw [← liftTo_eq_parentOf hy (k := n.levelOf (n.parentOf p)) (by omega)]
      exact (liftTo_liftTo hx (by omega)).symm
    rw [liftTo_of_le hge, liftTo_of_le (k := n.levelOf x) (x := n.parentOf p) (by omega),
      hyparent, and_iff_right hge]
    by_cases heq : n.parentOf (n.liftTo (n.levelOf p) x) = n.parentOf p
    · rw [heq, and_iff_right rfl]
      exact (or_iff_left (not_liesOn_self _ _)).symm
    · rw [liesOn_parentOf_iff hylevel.symm (Ne.symm heq)]
      exact (or_iff_right fun h => heq h.1).symm

end Numbering

end TreeAxes
