import Mathlib.Data.List.Sort
import TreeAxes.Proofs.Numbering.Preorder

/-!
# Windows tile the levels

The nodes of a level own the identifiers of the level below: their windows, one behind the other,
are its block. Hence every identifier but the root stands in one window, that of its parent.
-/

namespace TreeAxes

namespace Numbering

variable {n : Numbering} {p q c level : Nat} {l : Level} {v w : Window}

/-- The identifiers that are numbered on a level, in ascending order. -/
def block (n : Numbering) (level : Nat) : List Nat :=
  (List.range' rootNode n.maxId).filter (n.levelOf · = level)

/-- The slots below a node in ascending order, none if there is no level for them. -/
def slotsBelow (n : Numbering) (p : Nat) : List Nat := ((n.window? p).map Window.ids).getD []

theorem mem_ids_iff (hw : n.window? p = some w) : c ∈ w.ids ↔ w.first ≤ c ∧ c ≤ w.last := by
  have hpos := window?_slots_pos hw
  rw [Window.ids, List.mem_range'_1, Window.last]
  omega

theorem mem_slotsBelow_iff (hw : n.window? p = some w) :
    c ∈ n.slotsBelow p ↔ w.first ≤ c ∧ c ≤ w.last := by
  rw [slotsBelow, hw, Option.map_some, Option.getD_some, mem_ids_iff hw]

theorem pairwise_slotsBelow (n : Numbering) (p : Nat) : (n.slotsBelow p).Pairwise (· < ·) := by
  rw [slotsBelow]
  cases n.window? p with
  | none => exact List.Pairwise.nil
  | some w => exact List.pairwise_lt_range'

/-! ## Blocks -/

theorem mem_block : c ∈ n.block level ↔ n.Uses c ∧ n.levelOf c = level := by
  have hlast : c < rootNode + n.maxId ↔ c ≤ n.maxId := by
    rw [Nat.add_comm]
    exact Nat.lt_succ_iff
  rw [block, List.mem_filter, List.mem_range'_1, decide_eq_true_iff, hlast, ← numbers_iff_uses,
    Numbers]

theorem pairwise_block (n : Numbering) (level : Nat) : (n.block level).Pairwise (· < ·) :=
  List.Pairwise.filter _ List.pairwise_lt_range'

/-- The block of a level is what the numbering has tabulated for it. -/
theorem block_eq_range' (hl : n.levels[level]? = some l) :
    n.block level = List.range' l.first l.count := by
  refine (n.pairwise_block level).eq_of_mem_iff List.pairwise_lt_range' fun c => ?_
  rw [mem_block, List.mem_range'_1]
  constructor
  · rintro ⟨⟨own, hown, hbounds⟩, rfl⟩
    obtain rfl := Option.some_inj.mp (hl.symm.trans hown)
    exact hbounds
  · rintro ⟨hle, hlt⟩
    exact ⟨uses_of_level hl hle hlt, levelOf_eq hl hle hlt⟩

/-! ## Owners -/

/-- Only what is numbered owns a window. -/
theorem uses_of_window? (hw : n.window? p = some w) : n.Uses p := by
  obtain ⟨own, lower, hown, hlower, hne, -⟩ := exists_of_window? hw
  obtain ⟨-, -, hnext⟩ := level_next hown hlower
  have hlt := lt_first_of_next hlower
  rw [hnext, Level.next_first] at hlt
  exact ⟨own, hown, first_le hne hown, hlt⟩

/-- All nodes own a window except those of the last level. -/
theorem isSome_window?_iff (hp : n.Uses p) :
    (n.window? p).isSome ↔ n.levelOf p + 1 < n.depth := by
  constructor
  · intro hsome
    obtain ⟨w, hw⟩ := Option.isSome_iff_exists.mp hsome
    have hfirst := levelOf_of_mem_window hw (first_mem_window hw)
    have hdepth := n.levelOf_lt_depth w.first
    omega
  · intro hlevel
    obtain ⟨w, hw⟩ := exists_window_of_lt hp hlevel
    rw [hw, Option.isSome_some]

/-- Below the root, exactly the parent owns the window that an identifier stands in. -/
theorem exists_window_parentOf (hc : n.Uses c) (hlevel : 0 < n.levelOf c) :
    ∃ w, n.window? (n.parentOf c) = some w ∧ w.first ≤ c ∧ c ≤ w.last := by
  obtain ⟨huses, hparent⟩ := hc.parentOf hlevel
  have hdepth := n.levelOf_lt_depth c
  obtain ⟨w, hw⟩ := exists_window_of_lt huses (by omega)
  exact ⟨w, hw, (mem_window_iff huses hw).mpr ⟨hc, rfl⟩⟩

theorem uses_and_levelOf_pos_iff :
    n.Uses c ∧ 0 < n.levelOf c ↔ rootNode < c ∧ c ≤ n.maxId := by
  rw [← numbers_iff_uses, Numbers]
  constructor
  · rintro ⟨⟨hroot, hmax⟩, hlevel⟩
    refine ⟨Nat.lt_of_le_of_ne hroot ?_, hmax⟩
    rintro rfl
    rw [levelOf_rootNode] at hlevel
    exact Nat.lt_irrefl 0 hlevel
  · rintro ⟨hroot, hmax⟩
    have hc : n.Numbers c := ⟨Nat.le_of_lt hroot, hmax⟩
    refine ⟨hc, Nat.pos_iff_ne_zero.mpr fun hzero => ?_⟩
    rw [(numbers_iff_uses.mp hc).eq_rootNode hzero] at hroot
    exact Nat.lt_irrefl _ hroot

/-- On one level, the windows come in the order of their owners. -/
theorem last_lt_first_of_lt (hlevel : n.levelOf p = n.levelOf q) (hlt : p < q)
    (hv : n.window? p = some v) (hw : n.window? q = some w) : v.last < w.first := by
  obtain ⟨huses, hbelow⟩ := levelOf_window hv ⟨first_le_last hv, Nat.le_refl _⟩
  have hparent : n.parentOf v.last = p :=
    ((mem_window_iff (uses_of_window? hv) hv).mp ⟨first_le_last hv, Nat.le_refl _⟩).2
  obtain ⟨hfirst, -⟩ := window_bounds hw huses (by omega)
  rw [hparent] at hfirst
  omega

/-- Neighbours of one level own neighbouring windows. -/
theorem last_add_one (hlevel : n.levelOf p = n.levelOf (p + 1)) (hv : n.window? p = some v)
    (hw : n.window? (p + 1) = some w) : v.last + 1 = w.first := by
  obtain ⟨own, lower, hown, hlower, hne, rfl⟩ := exists_of_window? hv
  obtain ⟨own', lower', hown', hlower', -, rfl⟩ := exists_of_window? hw
  obtain ⟨-, hpos, -⟩ := level_next hown hlower
  rw [← hlevel] at hown' hlower'
  obtain rfl := Option.some_inj.mp (hown.symm.trans hown')
  obtain rfl := Option.some_inj.mp (hlower.symm.trans hlower')
  have hfirst := first_le hne hown
  have hnext : (p + 1 - own.first) * lower.slots =
      (p - own.first) * lower.slots + lower.slots := by
    rw [Nat.sub_add_comm hfirst, Nat.succ_mul]
  simp only [Window.last]
  omega

/-- The windows of a level, one behind the other, are the block of the next level. -/
theorem flatMap_slotsBelow (hlevel : level + 1 < n.depth) :
    (n.block level).flatMap n.slotsBelow = n.block (level + 1) := by
  have hwindow {p : Nat} (hp : p ∈ n.block level) :
      n.levelOf p = level ∧ n.Uses p ∧ ∃ w, n.window? p = some w := by
    obtain ⟨huses, hown⟩ := mem_block.mp hp
    exact ⟨hown, huses, exists_window_of_lt huses (by omega)⟩
  have hascending : ((n.block level).flatMap n.slotsBelow).Pairwise (· < ·) := by
    refine List.pairwise_flatMap.mpr ⟨fun p _ => n.pairwise_slotsBelow p, ?_⟩
    refine (n.pairwise_block level).imp_of_mem fun {p q} hp hq hlt x hx y hy => ?_
    obtain ⟨hplevel, -, v, hv⟩ := hwindow hp
    obtain ⟨hqlevel, -, w, hw⟩ := hwindow hq
    rw [mem_slotsBelow_iff hv] at hx
    rw [mem_slotsBelow_iff hw] at hy
    have hbetween := last_lt_first_of_lt (hplevel.trans hqlevel.symm) hlt hv hw
    omega
  refine hascending.eq_of_mem_iff (n.pairwise_block _) fun c => ?_
  rw [List.mem_flatMap, mem_block]
  constructor
  · rintro ⟨p, hp, hc⟩
    obtain ⟨hplevel, -, w, hw⟩ := hwindow hp
    obtain ⟨huses, hbelow⟩ := levelOf_window hw ((mem_slotsBelow_iff hw).mp hc)
    exact ⟨huses, hplevel ▸ hbelow⟩
  · rintro ⟨huses, hbelow⟩
    obtain ⟨hparent, hplevel⟩ := huses.parentOf (by omega)
    obtain ⟨w, hw, hbounds⟩ := exists_window_parentOf huses (by omega)
    exact ⟨n.parentOf c, mem_block.mpr ⟨hparent, by omega⟩, (mem_slotsBelow_iff hw).mpr hbounds⟩

/-! ## The main statement -/

/-- What makes windows the inverse of parents, and a tiling of all identifiers but the root. -/
structure TilesByWindows (n : Numbering) : Prop where
  /-- All nodes own a window except those of the last level, and nothing else does. -/
  owners : ∀ p, (n.window? p).isSome ↔ n.Numbers p ∧ n.levelOf p + 1 < n.depth
  /-- A window holds what stands one level below its owner and has it for a parent. -/
  contains_iff : ∀ p w, n.window? p = some w → ∀ c, w.contains c ↔
    rootNode < c ∧ c ≤ n.maxId ∧ n.levelOf c = n.levelOf p + 1 ∧ n.parentAt c (n.levelOf c) = p
  existsUnique_owner : ∀ c, rootNode < c → c ≤ n.maxId →
    ∃! p, ∃ w, n.window? p = some w ∧ w.contains c
  ascending : ∀ p q v w, n.levelOf p = n.levelOf q → p < q → n.window? p = some v →
    n.window? q = some w → v.last < w.first
  consecutive : ∀ p v w, n.levelOf p = n.levelOf (p + 1) → n.window? p = some v →
    n.window? (p + 1) = some w → v.last + 1 = w.first
  /-- The identifiers of a level are those of its tabulated block. -/
  block_eq : ∀ level l, n.levels[level]? = some l →
    n.block level = List.range' l.first l.count
  /-- The windows of a level make up the block of the next one. -/
  windows_eq_block : ∀ level, level + 1 < n.depth →
    (n.block level).flatMap n.slotsBelow = n.block (level + 1)

theorem window_contains_iff (hw : n.window? p = some w) :
    w.contains c ↔
      rootNode < c ∧ c ≤ n.maxId ∧ n.levelOf c = n.levelOf p + 1 ∧
        n.parentAt c (n.levelOf c) = p := by
  have hp := uses_of_window? hw
  have hcontains : w.contains c ↔ w.first ≤ c ∧ c ≤ w.last := by
    rw [Window.contains, Bool.and_eq_true, decide_eq_true_iff, decide_eq_true_iff]
  rw [hcontains]
  constructor
  · intro hbounds
    obtain ⟨huses, hlevel⟩ := levelOf_window hw hbounds
    obtain ⟨hroot, hmax⟩ := uses_and_levelOf_pos_iff.mp ⟨huses, by omega⟩
    exact ⟨hroot, hmax, hlevel, ((mem_window_iff hp hw).mp hbounds).2⟩
  · rintro ⟨hroot, hmax, -, hparent⟩
    have huses := (uses_and_levelOf_pos_iff.mpr ⟨hroot, hmax⟩).1
    exact (mem_window_iff hp hw).mpr ⟨huses, hparent⟩

theorem tilesByWindows (n : Numbering) : n.TilesByWindows where
  owners p := by
    constructor
    · intro hsome
      obtain ⟨w, hw⟩ := Option.isSome_iff_exists.mp hsome
      have hp := uses_of_window? hw
      exact ⟨numbers_iff_uses.mpr hp, (isSome_window?_iff hp).mp hsome⟩
    · rintro ⟨hp, hlevel⟩
      exact (isSome_window?_iff (numbers_iff_uses.mp hp)).mpr hlevel
  contains_iff _ _ hw _ := window_contains_iff hw
  existsUnique_owner c hroot hmax := by
    obtain ⟨huses, hlevel⟩ := uses_and_levelOf_pos_iff.mpr ⟨hroot, hmax⟩
    obtain ⟨w, hw, hbounds⟩ := exists_window_parentOf huses hlevel
    have hlevelOf := (levelOf_window hw hbounds).2
    refine ⟨n.parentOf c, ⟨w, hw, (window_contains_iff hw).mpr ⟨hroot, hmax, hlevelOf, rfl⟩⟩, ?_⟩
    rintro q ⟨v, hv, hcontains⟩
    obtain ⟨-, -, -, hparent⟩ := (window_contains_iff hv).mp hcontains
    exact hparent.symm
  ascending _ _ _ _ := last_lt_first_of_lt
  consecutive _ _ _ := last_add_one
  block_eq _ _ := block_eq_range'
  windows_eq_block _ := flatMap_slotsBelow

end Numbering

end TreeAxes
