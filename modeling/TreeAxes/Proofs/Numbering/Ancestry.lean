import TreeAxes.Numbering.Order

/-!
# Parents, windows and ancestors

A numbering uses the identifiers that stand in the block of some level. For these, parents
and windows are inverse to each other: the window of a node holds exactly the identifiers
whose parent it is. From one step up follow ancestors, which are seen from below (through
the parent) and from above (through the children), and the blocks of descendants.
-/

namespace TreeAxes

namespace Numbering

variable {n : Numbering} {a b id p x i j k : Nat} {l own lower : Level} {w : Window}

/-- Whether an identifier stands in the block of its level. Neither `noNode` nor what lies
behind the last block does. -/
def Uses (n : Numbering) (id : Nat) : Prop :=
  ∃ l, n.levels[n.levelOf id]? = some l ∧ l.first ≤ id ∧ id < l.first + l.count

/-- What an identifier climbs to on a level, or itself if the level is not above its own. -/
def liftTo (n : Numbering) (level id : Nat) : Nat := n.lift (n.levelOf id) level id

theorem first_pos (hl : n.levels[i]? = some l) : 0 < l.first := by
  cases i with
  | zero =>
    rw [levels_zero, Option.some_inj] at hl
    rw [← hl]
    decide
  | succ i =>
    have := level_end_le_first (Nat.succ_pos i) levels_zero hl
    exact Nat.lt_of_lt_of_le (by decide) this

theorem uses_of_level (hl : n.levels[i]? = some l) (hle : l.first ≤ id)
    (hlt : id < l.first + l.count) : n.Uses id := by
  refine ⟨l, ?_, hle, hlt⟩
  rw [levelOf_eq hl hle hlt]
  exact hl

theorem uses_rootNode (n : Numbering) : n.Uses rootNode :=
  uses_of_level levels_zero (Nat.le_refl _) (by decide)

theorem levelOf_rootNode (n : Numbering) : n.levelOf rootNode = 0 :=
  levelOf_eq levels_zero (Nat.le_refl _) (by decide)

namespace Uses

theorem pos (h : n.Uses id) : 0 < id := by
  obtain ⟨l, hl, hle, -⟩ := h
  exact Nat.lt_of_lt_of_le (first_pos hl) hle

theorem ne_noNode (h : n.Uses id) : id ≠ noNode := Nat.pos_iff_ne_zero.mp h.pos

/-- The root is the only identifier of its level. -/
theorem eq_rootNode (h : n.Uses id) (hlevel : n.levelOf id = 0) : id = rootNode := by
  obtain ⟨l, hl, hle, hlt⟩ := h
  rw [hlevel, levels_zero, Option.some_inj] at hl
  subst hl
  simp only [Level.root, rootNode] at hle hlt ⊢
  omega

end Uses

/-! ## Parents and windows -/

theorem parentOf_of_levelOf_eq_zero (h : n.levelOf id = 0) : n.parentOf id = noNode := by
  rw [parentOf, h, parentAt_zero]

theorem parentOf_rootNode (n : Numbering) : n.parentOf rootNode = noNode :=
  parentOf_of_levelOf_eq_zero n.levelOf_rootNode

theorem parentAt_eq (hown : n.levels[k]? = some own)
    (hlower : n.levels[k + 1]? = some lower) (id : Nat) :
    n.parentAt id (k + 1) = (id - lower.first) / lower.slots + own.first := by
  simp only [parentAt, hown, hlower]

/-- Below the root, the parent is in use and stands one level higher. -/
theorem Uses.parentOf (h : n.Uses id) (hlevel : 0 < n.levelOf id) :
    n.Uses (n.parentOf id) ∧ n.levelOf (n.parentOf id) + 1 = n.levelOf id := by
  obtain ⟨lower, hlower, hle, hlt⟩ := h
  obtain ⟨level, hid⟩ := Nat.exists_eq_succ_of_ne_zero (Nat.pos_iff_ne_zero.mp hlevel)
  have hdepth := n.levelOf_lt_depth id
  obtain ⟨own, hown⟩ := n.exists_level (i := level) (by omega)
  rw [hid] at hlower
  obtain ⟨-, hslots, heq⟩ := level_next hown hlower
  have hcount : lower.count = own.count * lower.slots := by rw [heq]; rfl
  have hparent : n.parentOf id = (id - lower.first) / lower.slots + own.first := by
    rw [Numbering.parentOf, hid, parentAt_eq hown hlower]
  have hdiv : (id - lower.first) / lower.slots < own.count := by
    rw [Nat.div_lt_iff_lt_mul hslots, ← hcount]
    omega
  have hfirst : own.first ≤ n.parentOf id := by
    rw [hparent]
    exact Nat.le_add_left _ _
  have hend : n.parentOf id < own.first + own.count := by
    rw [hparent, Nat.add_comm]
    exact Nat.add_lt_add_left hdiv _
  exact ⟨uses_of_level hown hfirst hend, by rw [levelOf_eq hown hfirst hend, hid]⟩

theorem Uses.parentOf_ne_noNode_iff (h : n.Uses id) :
    n.parentOf id ≠ noNode ↔ 0 < n.levelOf id := by
  constructor
  · intro hne
    refine Nat.pos_iff_ne_zero.mpr fun hzero => hne ?_
    exact parentOf_of_levelOf_eq_zero hzero
  · intro hlevel
    exact (h.parentOf hlevel).1.ne_noNode

theorem Uses.levelOf_parentOf (h : n.Uses id) (hne : n.parentOf id ≠ noNode) :
    n.levelOf (n.parentOf id) + 1 = n.levelOf id :=
  (h.parentOf (h.parentOf_ne_noNode_iff.mp hne)).2

/-- Between the windows of two nodes of a level stand the children of the nodes between. -/
theorem window_bounds (hw : n.window? p = some w) (hx : n.Uses x)
    (hlevel : n.levelOf x = n.levelOf p + 1) :
    (w.first ≤ x ↔ p ≤ n.parentOf x) ∧ (x ≤ w.last ↔ n.parentOf x ≤ p) := by
  obtain ⟨own, lower, hown, hlower, hp, rfl⟩ := exists_of_window? hw
  obtain ⟨-, hslots, -⟩ := level_next hown hlower
  obtain ⟨l, hl, hle, -⟩ := hx
  rw [hlevel, hlower, Option.some_inj] at hl
  subst hl
  have hfirst := first_le hp hown
  have hparent : n.parentOf x = (x - lower.first) / lower.slots + own.first := by
    rw [parentOf, hlevel, parentAt_eq hown hlower]
  have hlow : p - own.first ≤ (x - lower.first) / lower.slots ↔
      (p - own.first) * lower.slots ≤ x - lower.first := Nat.le_div_iff_mul_le hslots
  have hhigh : (x - lower.first) / lower.slots < p - own.first + 1 ↔
      x - lower.first < (p - own.first + 1) * lower.slots := Nat.div_lt_iff_lt_mul hslots
  rw [Nat.add_mul, Nat.one_mul] at hhigh
  generalize (x - lower.first) / lower.slots = above at hparent hlow hhigh
  simp only [Window.last]
  exact ⟨by omega, by omega⟩

/-- A window starts in the block below its owner's level and ends there. -/
theorem levelOf_window (hw : n.window? p = some w) (hx : w.first ≤ x ∧ x ≤ w.last) :
    n.Uses x ∧ n.levelOf x = n.levelOf p + 1 := by
  have hpos := window?_slots_pos hw
  have hmem : x ∈ w.ids := by
    rw [Window.ids, List.mem_range'_1]
    rw [Window.last] at hx
    omega
  have hlevel := levelOf_of_mem_window hw hmem
  refine ⟨?_, hlevel⟩
  obtain ⟨own, lower, hown, hlower, hp, rfl⟩ := exists_of_window? hw
  obtain ⟨-, hslots, heq⟩ := level_next hown hlower
  have hcount : lower.count = own.count * lower.slots := by rw [heq]; rfl
  have hnext : lower.first = own.first + own.count := by rw [heq]; rfl
  have hlt := lt_first_of_next hlower
  have hfirst := first_le hp hown
  have hspan : (p - own.first + 1) * lower.slots ≤ own.count * lower.slots :=
    Nat.mul_le_mul_right lower.slots (by omega)
  rw [Nat.add_mul, Nat.one_mul] at hspan
  simp only [Window.last] at hx
  exact uses_of_level hlower (by omega) (by omega)

/-- The window of a node holds the identifiers whose parent it is. -/
theorem mem_window_iff (hp : n.Uses p) (hw : n.window? p = some w) :
    (w.first ≤ x ∧ x ≤ w.last) ↔ n.Uses x ∧ n.parentOf x = p := by
  constructor
  · intro hx
    obtain ⟨huses, hlevel⟩ := levelOf_window hw hx
    obtain ⟨hfirst, hlast⟩ := window_bounds hw huses hlevel
    exact ⟨huses, Nat.le_antisymm (hlast.mp hx.2) (hfirst.mp hx.1)⟩
  · rintro ⟨huses, rfl⟩
    obtain ⟨hfirst, hlast⟩ := window_bounds hw huses (huses.levelOf_parentOf hp.ne_noNode).symm
    exact ⟨hfirst.mpr (Nat.le_refl _), hlast.mpr (Nat.le_refl _)⟩

/-- A node without a window is nobody's parent. -/
theorem parentOf_ne_of_window?_eq_none (hp : n.Uses p) (hw : n.window? p = none)
    (hx : n.Uses x) : n.parentOf x ≠ p := by
  rintro rfl
  obtain ⟨own, hown⟩ := n.exists_level (n.levelOf_lt_depth (n.parentOf x))
  obtain ⟨lower, hlower⟩ := n.exists_level (n.levelOf_lt_depth x)
  rw [← hx.levelOf_parentOf hp.ne_noNode] at hlower
  rw [window?, if_neg hp.ne_noNode, hown, hlower] at hw
  cases hw

/-! ## Climbing -/

theorem liftTo_of_le (h : n.levelOf x ≤ k) : n.liftTo k x = x := lift_of_le h

/-- To a level above its own, an identifier is lifted as its parent is. -/
theorem liftTo_parentOf (h : k < n.levelOf x) (hx : n.Uses x) :
    n.liftTo k (n.parentOf x) = n.liftTo k x := by
  obtain ⟨-, hparent⟩ := hx.parentOf (by omega)
  have hdepth := n.levelOf_lt_depth x
  have hclimb : n.climb (n.levelOf x) (n.levelOf x - k) x =
      n.climb (n.levelOf (n.parentOf x)) (n.levelOf (n.parentOf x) - k) (n.parentOf x) := by
    rw [show n.levelOf x - k = n.levelOf (n.parentOf x) - k + 1 by omega, climb,
      show n.levelOf x - 1 = n.levelOf (n.parentOf x) by omega]
    rfl
  rw [climb_eq_lift (by omega) hdepth, climb_eq_lift (by omega) (n.levelOf_lt_depth _)] at hclimb
  rw [show n.levelOf x - (n.levelOf x - k) = k by omega,
    show n.levelOf (n.parentOf x) - (n.levelOf (n.parentOf x) - k) = k by omega] at hclimb
  exact hclimb.symm

theorem Uses.liftTo (hx : n.Uses x) (h : k ≤ n.levelOf x) :
    n.Uses (n.liftTo k x) ∧ n.levelOf (n.liftTo k x) = k := by
  induction hk : n.levelOf x - k generalizing x with
  | zero =>
    rw [liftTo_of_le (by omega)]
    exact ⟨hx, by omega⟩
  | succ j ih =>
    obtain ⟨huses, hlevel⟩ := hx.parentOf (by omega)
    rw [← liftTo_parentOf (by omega) hx]
    exact ih huses (by omega) (by omega)

/-- Lifting in two steps is lifting in one. -/
theorem liftTo_liftTo (hx : n.Uses x) (h : j ≤ k) :
    n.liftTo j (n.liftTo k x) = n.liftTo j x := by
  induction hd : n.levelOf x - k generalizing x with
  | zero => rw [liftTo_of_le (k := k) (by omega)]
  | succ d ih =>
    obtain ⟨huses, hlevel⟩ := hx.parentOf (by omega)
    rw [← liftTo_parentOf (by omega) hx, ← liftTo_parentOf (k := j) (by omega) hx]
    exact ih huses (by omega)

/-- One level up, an identifier is lifted to its parent. -/
theorem liftTo_eq_parentOf (hx : n.Uses x) (h : k + 1 = n.levelOf x) :
    n.liftTo k x = n.parentOf x := by
  obtain ⟨-, hlevel⟩ := hx.parentOf (by omega)
  rw [← liftTo_parentOf (by omega) hx, liftTo_of_le (by omega)]

/-- The parent of what an identifier is lifted to is what it is lifted to one level higher. -/
theorem parentOf_liftTo (hx : n.Uses x) (h : k < n.levelOf x) :
    n.parentOf (n.liftTo (k + 1) x) = n.liftTo k x := by
  obtain ⟨huses, hlevel⟩ := hx.liftTo (k := k + 1) h
  rw [← liftTo_eq_parentOf huses hlevel.symm, liftTo_liftTo hx (Nat.le_succ k)]

/-! ## Ancestors -/

theorem isAncestor_iff :
    n.isAncestor a x ↔ n.levelOf a < n.levelOf x ∧ n.liftTo (n.levelOf a) x = a := by
  rw [isAncestor, Bool.and_eq_true, decide_eq_true_iff, beq_iff_eq]
  rfl

theorem not_isAncestor_self (n : Numbering) (x : Nat) : ¬ n.isAncestor x x :=
  fun h => Nat.lt_irrefl _ (isAncestor_iff.mp h).1

theorem isAncestor_parentOf (hx : n.Uses x) (hne : n.parentOf x ≠ noNode) :
    n.isAncestor (n.parentOf x) x := by
  have hlevel := hx.levelOf_parentOf hne
  exact isAncestor_iff.mpr ⟨by omega, liftTo_eq_parentOf hx hlevel⟩

theorem isAncestor_trans (hx : n.Uses x) (hab : n.isAncestor a b) (hbx : n.isAncestor b x) :
    n.isAncestor a x := by
  obtain ⟨hlevel, hlift⟩ := isAncestor_iff.mp hab
  obtain ⟨hlevel', hlift'⟩ := isAncestor_iff.mp hbx
  refine isAncestor_iff.mpr ⟨Nat.lt_trans hlevel hlevel', ?_⟩
  rw [← liftTo_liftTo hx (Nat.le_of_lt hlevel), hlift', hlift]

/-- Seen from below: an ancestor is the parent or an ancestor of the parent. -/
theorem isAncestor_iff_parentOf (hx : n.Uses x) :
    n.isAncestor a x ↔
      n.parentOf x ≠ noNode ∧ (a = n.parentOf x ∨ n.isAncestor a (n.parentOf x)) := by
  rw [hx.parentOf_ne_noNode_iff]
  constructor
  · intro h
    obtain ⟨hlt, heq⟩ := isAncestor_iff.mp h
    have hpos : 0 < n.levelOf x := Nat.zero_lt_of_lt hlt
    obtain ⟨huses, hlevel⟩ := hx.parentOf hpos
    rw [← liftTo_parentOf hlt hx] at heq
    refine ⟨hpos, ?_⟩
    rcases Nat.lt_or_ge (n.levelOf a) (n.levelOf (n.parentOf x)) with hlow | hhigh
    · exact .inr (isAncestor_iff.mpr ⟨hlow, heq⟩)
    · rw [liftTo_of_le hhigh] at heq
      exact .inl heq.symm
  · rintro ⟨hpos, rfl | h⟩
    · exact isAncestor_parentOf hx (hx.parentOf_ne_noNode_iff.mpr hpos)
    · obtain ⟨-, hlevel⟩ := hx.parentOf hpos
      obtain ⟨hlt, heq⟩ := isAncestor_iff.mp h
      refine isAncestor_iff.mpr ⟨by omega, ?_⟩
      rw [← liftTo_parentOf (by omega) hx, heq]

/-- Seen from above: what is below a node is a child of it or below one. -/
theorem isAncestor_iff_child (ha : n.Uses a) (hx : n.Uses x) :
    n.isAncestor a x ↔
      ∃ child, n.Uses child ∧ n.parentOf child = a ∧ (child = x ∨ n.isAncestor child x) := by
  constructor
  · intro h
    obtain ⟨hlt, heq⟩ := isAncestor_iff.mp h
    obtain ⟨huses, hlevel⟩ := hx.liftTo (k := n.levelOf a + 1) hlt
    refine ⟨n.liftTo (n.levelOf a + 1) x, huses, (parentOf_liftTo hx hlt).trans heq, ?_⟩
    rcases Nat.lt_or_ge (n.levelOf a + 1) (n.levelOf x) with hlow | hhigh
    · exact .inr (isAncestor_iff.mpr ⟨by rwa [hlevel], by rw [hlevel]⟩)
    · exact .inl (liftTo_of_le hhigh)
  · rintro ⟨child, huses, rfl, rfl | h⟩
    · exact isAncestor_parentOf huses ha.ne_noNode
    · have hparent := huses.levelOf_parentOf ha.ne_noNode
      obtain ⟨hlt, heq⟩ := isAncestor_iff.mp h
      refine isAncestor_iff.mpr ⟨by omega, ?_⟩
      rw [← liftTo_liftTo hx (k := n.levelOf child) (by omega), heq]
      exact liftTo_eq_parentOf huses hparent

/-! ## Blocks of descendants -/

/-- The blocks below begin one after the other, all behind the level they are below of. -/
theorem lt_first_of_mem_blocksBelow {lower upper : Nat} {block : Window}
    (h : block ∈ n.blocksBelow lower upper) : lower < block.first := by
  fun_induction blocksBelow n lower upper with
  | case1 lower upper first last hfirst hlast ih =>
    have hlt : lower < first.first := by
      obtain ⟨own, next, hown, hnext, -, rfl⟩ := exists_of_window? hfirst
      exact Nat.lt_of_lt_of_le (lt_first_of_next hnext) (Nat.le_add_left _ _)
    rcases List.mem_cons.mp h with rfl | h
    · exact hlt
    · exact Nat.lt_trans hlt (ih h)
  | case2 => cases h

theorem pairwise_blocksBelow (n : Numbering) (lower upper : Nat) :
    (n.blocksBelow lower upper).Pairwise (·.first < ·.first) := by
  fun_induction blocksBelow n lower upper with
  | case1 lower upper first last hfirst hlast ih =>
    exact List.pairwise_cons.mpr ⟨fun block h => lt_first_of_mem_blocksBelow h, ih⟩
  | case2 => exact List.Pairwise.nil

/-- Identifiers ascend from level to level. -/
theorem levelOf_le_levelOf (hne : a ≠ noNode) (h : a ≤ b) : n.levelOf a ≤ n.levelOf b := by
  obtain ⟨l, hl⟩ := n.exists_level (n.levelOf_lt_depth a)
  have hfirst := (first_le_iff b hl).mp (Nat.le_trans (first_le hne hl) h)
  have hlevel := n.levelOf_eq_sub_one b
  omega

/-- An ancestor has the smaller identifier. -/
theorem id_lt_of_isAncestor (hx : n.Uses x) (h : n.isAncestor a x) : a < x := by
  refine Nat.lt_of_not_le fun hle => ?_
  have hlevel := (isAncestor_iff.mp h).1
  have := levelOf_le_levelOf (n := n) hx.ne_noNode hle
  omega

theorem first_le_last (hw : n.window? p = some w) : w.first ≤ w.last := by
  have hpos := window?_slots_pos hw
  rw [Window.last]
  omega

/-- The blocks below two nodes of a level begin behind both of them. -/
theorem upper_lt_first_of_mem_blocksBelow {lower upper : Nat} {block : Window}
    (hsame : n.levelOf lower = n.levelOf upper) (h : block ∈ n.blocksBelow lower upper) :
    upper < block.first := by
  fun_induction blocksBelow n lower upper with
  | case1 lower upper first last hfirst hlast ih =>
    have hbehind {w : Window} (owner : Nat) (hlevel : n.levelOf owner = n.levelOf upper)
        (hw : n.window? owner = some w) : upper < w.first := by
      obtain ⟨own, next, -, hnext, -, rfl⟩ := exists_of_window? hw
      rw [hlevel] at hnext
      exact Nat.lt_of_lt_of_le (lt_first_of_next hnext) (Nat.le_add_left _ _)
    rcases List.mem_cons.mp h with rfl | h
    · show upper < first.first
      exact hbehind lower hsame hfirst
    · obtain ⟨-, hlevel⟩ := levelOf_window hfirst ⟨Nat.le_refl _, first_le_last hfirst⟩
      obtain ⟨-, hlevel'⟩ := levelOf_window hlast ⟨first_le_last hlast, Nat.le_refl _⟩
      have hnext := ih (by omega) h
      have hupper := hbehind upper rfl hlast
      have hends := first_le_last hlast
      omega
  | case2 => cases h

/-- The blocks below a node lie one behind the other. -/
theorem pairwise_last_lt_first {lower upper : Nat} (hsame : n.levelOf lower = n.levelOf upper) :
    (n.blocksBelow lower upper).Pairwise (·.last < ·.first) := by
  fun_induction blocksBelow n lower upper with
  | case1 lower upper first last hfirst hlast ih =>
    obtain ⟨-, hlevel⟩ := levelOf_window hfirst ⟨Nat.le_refl _, first_le_last hfirst⟩
    obtain ⟨-, hlevel'⟩ := levelOf_window hlast ⟨first_le_last hlast, Nat.le_refl _⟩
    have hnext : n.levelOf first.first = n.levelOf last.last := by omega
    refine List.pairwise_cons.mpr ⟨fun block hblock => ?_, ih hnext⟩
    have hlower := lt_first_of_mem_blocksBelow hblock
    have hupper := upper_lt_first_of_mem_blocksBelow hnext hblock
    rw [Window.last]
    dsimp only
    omega
  | case2 => exact List.Pairwise.nil

/-- From the window of one node to that of another one of its level: the children of the nodes
between them. -/
theorem mem_block_iff {lower upper : Nat} {first last : Window} (hx : n.Uses x)
    (hsame : n.levelOf lower = n.levelOf upper) (hfirst : n.window? lower = some first)
    (hlast : n.window? upper = some last) :
    (first.first ≤ x ∧ x ≤ last.last) ↔
      n.levelOf x = n.levelOf lower + 1 ∧ lower ≤ n.parentOf x ∧ n.parentOf x ≤ upper := by
  by_cases hlevel : n.levelOf x = n.levelOf lower + 1
  · obtain ⟨hlow, -⟩ := window_bounds hfirst hx hlevel
    obtain ⟨-, hhigh⟩ := window_bounds hlast hx (by omega)
    rw [hlow, hhigh]
    exact (and_iff_right hlevel).symm
  · refine iff_of_false (fun hbounds => ?_) (fun h => hlevel h.1)
    obtain ⟨huses, hbegin⟩ := levelOf_window hfirst ⟨Nat.le_refl _, first_le_last hfirst⟩
    obtain ⟨-, hend⟩ := levelOf_window hlast ⟨first_le_last hlast, Nat.le_refl _⟩
    have := levelOf_le_levelOf (n := n) huses.ne_noNode hbounds.1
    have := levelOf_le_levelOf (n := n) hx.ne_noNode hbounds.2
    omega

/-- Only on the last level, nodes have no window. -/
theorem exists_window_of_lt (hx : n.Uses x) (h : n.levelOf x + 1 < n.depth) :
    ∃ w, n.window? x = some w := by
  obtain ⟨own, hown⟩ := n.exists_level (n.levelOf_lt_depth x)
  obtain ⟨lower, hlower⟩ := n.exists_level h
  refine ⟨⟨(x - own.first) * lower.slots + lower.first, lower.slots⟩, ?_⟩
  rw [window?, if_neg hx.ne_noNode, hown, hlower]

/-- The window of a node begins before that of a later node of its level ends. -/
theorem first_le_last_of_le {lower upper : Nat} {first last : Window} (hlower : n.Uses lower)
    (hsame : n.levelOf lower = n.levelOf upper) (hle : lower ≤ upper)
    (hfirst : n.window? lower = some first) (hlast : n.window? upper = some last) :
    first.first ≤ last.last := by
  obtain ⟨huses, hlevel⟩ := levelOf_window hfirst ⟨Nat.le_refl _, first_le_last hfirst⟩
  have hparent := ((mem_window_iff hlower hfirst).mp ⟨Nat.le_refl _, first_le_last hfirst⟩).2
  exact (window_bounds hlast huses (by omega)).2.mpr (by rwa [hparent])

/-- The blocks below two nodes of a level hold what is below the nodes between them. -/
theorem mem_blocksBelow_iff {lower upper : Nat} (hx : n.Uses x) (hlower : n.Uses lower)
    (hupper : n.Uses upper) (hsame : n.levelOf lower = n.levelOf upper) (hle : lower ≤ upper) :
    (∃ block ∈ n.blocksBelow lower upper, block.first ≤ x ∧ x ≤ block.last) ↔
      n.levelOf lower < n.levelOf x ∧
        lower ≤ n.liftTo (n.levelOf lower) x ∧ n.liftTo (n.levelOf lower) x ≤ upper := by
  fun_induction blocksBelow n lower upper with
  | case1 lower upper first last hfirst hlast ih =>
    -- the block starts with the first child of `lower` and ends with the last one of `upper`
    obtain ⟨huses, hlevel⟩ := levelOf_window hfirst ⟨Nat.le_refl _, first_le_last hfirst⟩
    obtain ⟨huses', hlevel'⟩ := levelOf_window hlast ⟨first_le_last hlast, Nat.le_refl _⟩
    have hends := first_le_last_of_le hlower hsame hle hfirst hlast
    have hblock : (⟨first.first, last.last + 1 - first.first⟩ : Window).last = last.last := by
      simp only [Window.last] at hends ⊢
      omega
    simp only [List.mem_cons, exists_eq_or_imp, hblock]
    rw [ih huses huses' (by omega) hends, mem_block_iff hx hsame hfirst hlast, hlevel]
    rcases Nat.lt_trichotomy (n.levelOf x) (n.levelOf lower + 1) with hlt | heq | hgt
    · omega
    · rw [liftTo_eq_parentOf hx heq.symm]
      omega
    · -- what is below the block is lifted to it
      obtain ⟨hy, hylevel⟩ := hx.liftTo (Nat.le_of_lt hgt)
      rw [mem_block_iff hy hsame hfirst hlast, parentOf_liftTo hx (by omega)]
      omega
  | case2 lower upper hnone =>
    have hend : ¬ n.levelOf lower + 1 < n.depth := fun h => by
      obtain ⟨first, hfirst⟩ := exists_window_of_lt hlower h
      obtain ⟨last, hlast⟩ := exists_window_of_lt hupper (hsame ▸ h)
      exact hnone first last hfirst hlast
    have hdepth := n.levelOf_lt_depth x
    refine iff_of_false ?_ fun hbelow => by omega
    rintro ⟨block, hblock, -⟩
    cases hblock

/-- The blocks below a node hold its descendants. -/
theorem mem_blocksBelow_self_iff (ha : n.Uses a) (hx : n.Uses x) :
    (∃ block ∈ n.blocksBelow a a, block.first ≤ x ∧ x ≤ block.last) ↔ n.isAncestor a x := by
  rw [mem_blocksBelow_iff hx ha ha rfl (Nat.le_refl a), isAncestor_iff]
  exact and_congr_right fun _ =>
    ⟨fun h => Nat.le_antisymm h.2 h.1, fun h => ⟨Nat.le_of_eq h.symm, Nat.le_of_eq h⟩⟩

end Numbering

end TreeAxes
