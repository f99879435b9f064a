import Mathlib.Order.Defs.Unbundled
import TreeAxes.Proofs.Numbering.Ancestry

/-!
# Document order is preorder

Document order is decided by lifting in one step; climbing parent by parent decides the same,
because on the climb no identifier of one level is met on another. Either way it is the
lexicographic order of chains. Hence it is total on all identifiers, and on those that are
numbered it is the preorder of the tree: a node, then what is below it, child by child.
-/

namespace TreeAxes

namespace Numbering

variable {n : Numbering} {a b x top id target level k i : Nat} {l : Level}

/-- The identifiers that a numbering hands out. -/
def Numbers (n : Numbering) (id : Nat) : Prop := rootNode ≤ id ∧ id ≤ n.maxId

/-- Whether `a` is a proper element of the chain of `x`. -/
def Above (n : Numbering) (a x : Nat) : Prop := a ∈ (n.chain x).dropLast

/-- Whether `x` is `top` or stands below it. -/
def Within (n : Numbering) (top x : Nat) : Prop := x = top ∨ n.Above top x

instance (n : Numbering) (id : Nat) : Decidable (n.Numbers id) :=
  inferInstanceAs (Decidable (_ ∧ _))

/-! ## Identifiers in use -/

theorem maxId_eq (hl : n.levels[n.depth - 1]? = some l) : n.maxId = l.first + l.count - 1 := by
  rw [maxId, Array.back?_eq_getElem?]
  rw [depth] at hl
  rw [hl]

/-- What is numbered stands in the block of its level. -/
theorem numbers_iff_uses : n.Numbers id ↔ n.Uses id := by
  have hlast : n.depth - 1 < n.depth := by
    rw [depth_eq]
    omega
  obtain ⟨last, hl⟩ := n.exists_level hlast
  obtain ⟨own, hown⟩ := n.exists_level (n.levelOf_lt_depth id)
  rw [Numbers, maxId_eq hl]
  constructor
  · rintro ⟨hroot, hmax⟩
    refine ⟨own, hown, first_le (Nat.pos_iff_ne_zero.mp hroot) hown, ?_⟩
    rcases Nat.lt_or_ge (n.levelOf id + 1) n.depth with hlt | hge
    · obtain ⟨next, hnext⟩ := n.exists_level hlt
      obtain ⟨-, -, heq⟩ := level_next hown hnext
      have := lt_first_of_next hnext
      rwa [heq, Level.next_first] at this
    · have hlevel := n.levelOf_lt_depth id
      rw [show n.levelOf id = n.depth - 1 by omega, hl, Option.some_inj] at hown
      subst hown
      have hfirst := first_pos hl
      omega
  · intro h
    refine ⟨h.pos, ?_⟩
    obtain ⟨_, hown', -, hlt⟩ := h
    rw [hown, Option.some_inj] at hown'
    subst hown'
    rcases Nat.lt_or_ge (n.levelOf id) (n.depth - 1) with hlow | hhigh
    · have := level_end_le_first hlow hown hl
      omega
    · have hlevel := n.levelOf_lt_depth id
      rw [show n.levelOf id = n.depth - 1 by omega, hl, Option.some_inj] at hown
      subst hown
      omega

/-! ## Chains and ancestors -/

/-- The root, and what is not numbered on its level, stands alone in its chain. -/
theorem chain_of_levelOf_eq_zero (h : n.levelOf id = 0) : n.chain id = [id] := by
  rw [chain, h, chainFrom]

/-- A chain is that of the parent with the identifier at its end. -/
theorem chain_eq_concat (hx : n.Uses x) (hne : n.parentOf x ≠ noNode) :
    n.chain x = n.chain (n.parentOf x) ++ [x] := by
  have hlevel := hx.levelOf_parentOf hne
  have hparent : n.parentAt x (n.levelOf (n.parentOf x) + 1) = n.parentOf x := by
    rw [hlevel, parentOf]
  calc n.chain x
    _ = n.chainFrom (n.levelOf (n.parentOf x) + 1) x := by rw [hlevel, chain]
    _ = n.chain (n.parentOf x) ++ [x] := by rw [chainFrom, hparent, chain]

theorem mem_chain_iff (id : Nat) : a ∈ n.chain id ↔ a = id ∨ n.Above a id := by
  have hlast : (n.chain id).getLast? = some id := n.getLast?_chainFrom _ id
  obtain ⟨above, hchain⟩ := List.getLast?_eq_some_iff.mp hlast
  rw [Above, hchain, List.dropLast_concat, List.mem_append, List.mem_singleton, or_comm]

/-- Ancestry is decided in one step what chains say level by level. -/
theorem isAncestor_iff_above (hx : n.Uses x) : n.isAncestor a x ↔ n.Above a x := by
  induction hlevel : n.levelOf x generalizing x with
  | zero =>
    have hnone : ¬ n.isAncestor a x := fun h => by
      have := (isAncestor_iff.mp h).1
      omega
    rw [Above, chain_of_levelOf_eq_zero hlevel]
    exact iff_of_false hnone (List.not_mem_nil)
  | succ level ih =>
    have hne := hx.parentOf_ne_noNode_iff.mpr (by omega)
    obtain ⟨huses, hparent⟩ := hx.parentOf (by omega)
    rw [isAncestor_iff_parentOf hx, ih huses (by omega), ← mem_chain_iff, Above,
      chain_eq_concat hx hne, List.dropLast_concat]
    exact and_iff_right hne

/-- Below a node, chains go on from its own. -/
theorem chain_prefix_of_within (hx : n.Uses x) (h : n.Within top x) :
    n.chain top <+: n.chain x := by
  obtain rfl | habove := h
  · exact List.prefix_refl _
  · obtain ⟨hlevel, hlift⟩ := isAncestor_iff.mp ((isAncestor_iff_above hx).mpr habove)
    obtain ⟨rest, hchain, -⟩ := chain_eq_append (Nat.le_of_lt hlevel)
    refine ⟨rest, ?_⟩
    rw [hchain, show n.lift (n.levelOf x) (n.levelOf top) x = top from hlift, chain]

theorem within_iff (hx : n.Uses x) : n.Within top x ↔ x = top ∨ n.isAncestor top x := by
  rw [Within, isAncestor_iff_above hx]

/-- What stands in the subtree of a child stands below the parent. -/
theorem above_of_within (ha : n.Uses a) (hb : n.Uses b) (hparent : n.parentOf b = a)
    (hx : n.Uses x) (h : n.Within b x) : n.Above a x := by
  rw [← isAncestor_iff_above hx, isAncestor_iff_child ha hx]
  exact ⟨b, hb, hparent, ((within_iff hx).mp h).imp_left Eq.symm⟩

theorem within_of_chain_prefix (h : n.chain top <+: n.chain x) : n.Within top x := by
  obtain heq | habove := (mem_chain_iff x).mp (h.subset ((mem_chain_iff top).mpr (.inl rfl)))
  · exact .inl heq.symm
  · exact .inr habove

/-! ## Climbing parent by parent -/

/-- Climbs from a level by some levels, unless it meets `target` on the way. -/
def climbUnless (n : Numbering) (target : Nat) : Nat → Nat → Nat → Option Nat
  | _, 0, id => some id
  | level, levels + 1, id =>
    if n.parentAt id level = target then none
    else n.climbUnless target (level - 1) levels (n.parentAt id level)

/-- Compares two identifiers of one level where their climbs part. -/
def compareParted (n : Numbering) : Nat → Nat → Nat → Ordering
  | 0, a, b => compare a b
  | level + 1, a, b =>
    if n.parentAt a (level + 1) = n.parentAt b (level + 1) then compare a b
    else n.compareParted level (n.parentAt a (level + 1)) (n.parentAt b (level + 1))

/-- Document order, decided parent by parent: the deeper identifier climbs until it meets the
other one or stands on its level, then both climb until their parents coincide. -/
def compareByClimbing (n : Numbering) (a b : Nat) : Ordering :=
  if a = b then .eq
  else
    match n.climbUnless b (n.levelOf a) (n.levelOf a - n.levelOf b) a with
    | none => .gt
    | some a' =>
      match n.climbUnless a' (n.levelOf b) (n.levelOf b - n.levelOf a) b with
      | none => .lt
      | some b' => n.compareParted (min (n.levelOf a) (n.levelOf b)) a' b'

/-- Ancestry, decided by climbing parent by parent to the level of the ancestor. -/
def isAncestorByClimbing (n : Numbering) (ancestor descendant : Nat) : Bool :=
  n.levelOf ancestor < n.levelOf descendant &&
    n.climb (n.levelOf descendant) (n.levelOf descendant - n.levelOf ancestor) descendant ==
      ancestor

theorem first_le_first {m : Level} (hij : i ≤ k) (hl : n.levels[i]? = some l)
    (hm : n.levels[k]? = some m) : l.first ≤ m.first := by
  rcases Nat.eq_or_lt_of_le hij with rfl | hlt
  · rw [hl, Option.some_inj] at hm
    exact Nat.le_of_eq (congrArg Level.first hm)
  · exact Nat.le_trans (Nat.le_add_right _ _) (level_end_le_first hlt hl hm)

theorem first_le_parentAt (hl : n.levels[level]? = some l) (hd : level + 1 < n.depth) :
    l.first ≤ n.parentAt id (level + 1) := by
  obtain ⟨lower, hlower⟩ := n.exists_level hd
  rw [parentAt_eq hl hlower]
  exact Nat.le_add_left _ _

/-- On the climb, an identifier is met on its own level or not at all. -/
theorem climbUnless_eq (hlevel : n.levelOf target < level) (hd : level < n.depth) :
    n.climbUnless target level (level - n.levelOf target) id =
      if n.lift level (n.levelOf target) id = target then none
      else some (n.lift level (n.levelOf target) id) := by
  obtain ⟨k, rfl⟩ : ∃ k, level = n.levelOf target + (k + 1) :=
    ⟨level - n.levelOf target - 1, by omega⟩
  have hclimb : n.climb (n.levelOf target + (k + 1)) (k + 1) id =
      n.lift (n.levelOf target + (k + 1)) (n.levelOf target) id := by
    simpa only [Nat.add_sub_cancel] using climb_eq_lift (Nat.le_add_left _ _) hd
  rw [Nat.add_sub_cancel_left, ← hclimb]
  clear hclimb
  induction k generalizing id with
  | zero => rfl
  | succ k ih =>
    obtain ⟨next, hnext⟩ := n.exists_level (i := n.levelOf target + 1) (by omega)
    obtain ⟨upper, hupper⟩ := n.exists_level (i := n.levelOf target + (k + 1)) (by omega)
    have hbehind : target < n.parentAt id (n.levelOf target + (k + 1 + 1)) :=
      calc target
        _ < next.first := lt_first_of_next hnext
        _ ≤ upper.first := first_le_first (by omega) hnext hupper
        _ ≤ n.parentAt id (n.levelOf target + (k + 1 + 1)) := first_le_parentAt hupper hd
    rw [climbUnless, if_neg (Nat.ne_of_gt hbehind), climb]
    exact ih (by omega) (by omega)

/-- Where parents differ, they compare like the identifiers themselves. -/
theorem compareParted_eq (n : Numbering) (level a b : Nat) :
    n.compareParted level a b = compare a b := by
  induction level generalizing a b with
  | zero => rfl
  | succ level ih =>
    rw [compareParted]
    split
    · rfl
    · next hne => rw [ih, compare_parentAt_of_ne hne]

/-- Climbing parent by parent decides what lifting in one step does. -/
theorem compareByClimbing_eq (n : Numbering) (a b : Nat) :
    n.compareByClimbing a b = n.compareDocumentOrder a b := by
  rw [compareByClimbing, compareDocumentOrder]
  split
  · rfl
  rcases Nat.lt_trichotomy (n.levelOf a) (n.levelOf b) with hlt | heq | hgt
  · rw [Nat.sub_eq_zero_of_le (Nat.le_of_lt hlt), climbUnless]
    simp only [lift_of_le (Nat.le_of_lt hlt), climbUnless_eq hlt (n.levelOf_lt_depth b)]
    by_cases hmeet : n.lift (n.levelOf b) (n.levelOf a) b = a
    · rw [if_pos hmeet, hmeet, Nat.compare_eq_eq.mpr rfl, Nat.compare_eq_lt.mpr hlt]
    · simp only [if_neg hmeet, compareParted_eq]
      cases hcmp : compare a (n.lift (n.levelOf b) (n.levelOf a) b) with
      | eq => exact absurd (Nat.compare_eq_eq.mp hcmp).symm hmeet
      | lt | gt => rfl
  · simp only [heq, Nat.sub_self, climbUnless, compareParted_eq, lift_of_le (Nat.le_refl _)]
    cases hcmp : compare a b with
    | eq => rw [Nat.compare_eq_eq.mpr rfl]
    | lt | gt => rfl
  · simp only [lift_of_le (Nat.le_of_lt hgt), climbUnless_eq hgt (n.levelOf_lt_depth a)]
    by_cases hmeet : n.lift (n.levelOf a) (n.levelOf b) a = b
    · rw [if_pos hmeet, hmeet, Nat.compare_eq_eq.mpr rfl, Nat.compare_eq_gt.mpr hgt]
    · simp only [if_neg hmeet, Nat.sub_eq_zero_of_le (Nat.le_of_lt hgt), climbUnless,
        compareParted_eq]
      cases hcmp : compare (n.lift (n.levelOf a) (n.levelOf b) a) b with
      | eq => exact absurd (Nat.compare_eq_eq.mp hcmp) hmeet
      | lt | gt => rfl

theorem isAncestorByClimbing_eq (n : Numbering) (a x : Nat) :
    n.isAncestorByClimbing a x = n.isAncestor a x := by
  rw [isAncestorByClimbing, isAncestor, climb_eq_lift (Nat.sub_le _ _) (n.levelOf_lt_depth x)]
  by_cases hlt : n.levelOf a < n.levelOf x
  · rw [Nat.sub_sub_self (Nat.le_of_lt hlt)]
  · rw [decide_eq_false hlt, Bool.false_and, Bool.false_and]

/-! ## The order -/

theorem lt_of_above (hx : n.Uses x) (h : n.Above a x) : n.compareDocumentOrder a x = .lt := by
  obtain ⟨rest, hchain⟩ := chain_prefix_of_within hx (.inr h)
  have hrest : rest ≠ [] := by
    rintro rfl
    rw [List.append_nil] at hchain
    obtain rfl := chain_inj hchain
    exact not_isAncestor_self n a ((isAncestor_iff_above hx).mpr h)
  rw [compareDocumentOrder_eq_compare_chain, ← hchain, compare_self_append _ hrest]

/-- On one level, identifiers ascend in document order. -/
theorem compareDocumentOrder_of_levelOf_eq (h : n.levelOf a = n.levelOf b) :
    n.compareDocumentOrder a b = compare a b := by
  rw [compareDocumentOrder_eq_compare_chain, chain, chain, h, compare_chainFrom]

theorem levelOf_eq_of_parentOf_eq (ha : n.Uses a) (hb : n.Uses b)
    (h : n.parentOf a = n.parentOf b) : n.levelOf a = n.levelOf b := by
  by_cases hne : n.parentOf a = noNode
  · have ha' : ¬0 < n.levelOf a := fun hpos => ha.parentOf_ne_noNode_iff.mpr hpos hne
    have hb' : ¬0 < n.levelOf b := fun hpos => hb.parentOf_ne_noNode_iff.mpr hpos (h ▸ hne)
    omega
  · have ha' := ha.levelOf_parentOf hne
    have hb' := hb.levelOf_parentOf (h ▸ hne)
    rw [h] at ha'
    omega

/-- Nodes of one level bring what is below them into their own order. -/
theorem lt_of_within {c d : Nat} (ha : n.Uses a) (hb : n.Uses b)
    (hlevel : n.levelOf c = n.levelOf d) (hlt : c < d) (hca : n.Within c a) (hdb : n.Within d b) :
    n.compareDocumentOrder a b = .lt := by
  obtain ⟨r, hr⟩ := chain_prefix_of_within ha hca
  obtain ⟨s, hs⟩ := chain_prefix_of_within hb hdb
  calc n.compareDocumentOrder a b
    _ = compare (n.chain a) (n.chain b) := compareDocumentOrder_eq_compare_chain n a b
    _ = compare (n.chainFrom (n.levelOf d) c ++ r) (n.chainFrom (n.levelOf d) d ++ s) := by
      rw [← hr, ← hs, chain, chain, hlevel]
    _ = compare c d := compare_chainFrom_append n _ r s (Nat.ne_of_lt hlt)
    _ = .lt := Nat.compare_eq_lt.mpr hlt

/-- Between two lists that begin alike, all lists begin so. -/
theorem prefix_of_between {front xs r s : List Nat} (hlow : (compare (front ++ r) xs).isLE)
    (hhigh : (compare xs (front ++ s)).isLE) : front <+: xs := by
  induction front generalizing xs with
  | nil => exact List.nil_prefix
  | cons m front ih =>
    cases xs with
    | nil => cases hlow
    | cons y ys =>
      simp only [List.compare_eq_compareLex, List.cons_append, List.compareLex_cons_cons] at *
      have hle : (compare m y).isLE := by
        cases hcmp : compare m y with
        | gt => simp [hcmp] at hlow
        | lt | eq => rfl
      have hge : (compare y m).isLE := by
        cases hcmp : compare y m with
        | gt => simp [hcmp] at hhigh
        | lt | eq => rfl
      obtain rfl : m = y := Nat.le_antisymm (Nat.isLE_compare.mp hle) (Nat.isLE_compare.mp hge)
      simp only [Std.ReflCmp.compare_self, Ordering.eq_then] at hlow hhigh
      exact List.prefix_cons_inj m |>.mpr (ih hlow hhigh)

/-- What stands between two nodes of a subtree stands in it. -/
theorem within_of_between (ha : n.Uses a) (hb : n.Uses b) (htopa : n.Within top a)
    (htopb : n.Within top b) (hlow : n.notAfter a x) (hhigh : n.notAfter x b) :
    n.Within top x := by
  obtain ⟨r, hr⟩ := chain_prefix_of_within ha htopa
  obtain ⟨s, hs⟩ := chain_prefix_of_within hb htopb
  rw [notAfter, compareDocumentOrder_eq_compare_chain] at hlow hhigh
  rw [← hr] at hlow
  rw [← hs] at hhigh
  exact within_of_chain_prefix (prefix_of_between hlow hhigh)

instance (n : Numbering) : IsStrictTotalOrder Nat fun a b => n.compareDocumentOrder a b = .lt where
  irrefl a h := by
    rw [compareDocumentOrder, if_pos rfl] at h
    cases h
  trans _ _ _ := Std.TransCmp.lt_trans
  trichotomous a b hab hba := by
    have hswap : n.compareDocumentOrder b a = (n.compareDocumentOrder a b).swap :=
      Std.OrientedCmp.eq_swap
    cases hcmp : n.compareDocumentOrder a b with
    | lt => exact absurd hcmp hab
    | eq => exact Std.LawfulEqCmp.eq_of_compare hcmp
    | gt =>
      rw [hcmp] at hswap
      exact absurd hswap hba

/-! ## The main statement -/

/-- What makes document order the preorder of the tree. -/
structure OrdersByPreorder (n : Numbering) : Prop where
  /-- It does not matter whether identifiers are lifted in one step or parent by parent. -/
  climbing : ∀ a b, n.compareByClimbing a b = n.compareDocumentOrder a b ∧
    n.isAncestorByClimbing a b = n.isAncestor a b
  /-- Chains are compared from the top, a proper beginning being smaller. -/
  lexicographic : ∀ a b, n.compareDocumentOrder a b = compare (n.chain a) (n.chain b)
  strictTotal : IsStrictTotalOrder Nat fun a b => n.compareDocumentOrder a b = .lt
  swap : ∀ a b, n.compareDocumentOrder b a = (n.compareDocumentOrder a b).swap
  eq_iff : ∀ a b, n.compareDocumentOrder a b = .eq ↔ a = b
  lt_of_above : ∀ a b, n.Numbers a → n.Numbers b → n.Above a b →
    n.compareDocumentOrder a b = .lt
  siblings : ∀ a b, n.Numbers a → n.Numbers b → n.parentOf a = n.parentOf b →
    n.compareDocumentOrder a b = compare a b
  contiguous : ∀ top a x b, n.Numbers top → n.Numbers a → n.Numbers x → n.Numbers b →
    n.Within top a → n.Within top b → n.compareDocumentOrder a x ≠ .gt →
      n.compareDocumentOrder x b ≠ .gt → n.Within top x
  isAncestor_iff : ∀ a b, n.Numbers a → n.Numbers b → (n.isAncestor a b ↔ n.Above a b)

theorem ordersByPreorder (n : Numbering) : n.OrdersByPreorder where
  climbing a b := ⟨n.compareByClimbing_eq a b, n.isAncestorByClimbing_eq a b⟩
  lexicographic := n.compareDocumentOrder_eq_compare_chain
  strictTotal := inferInstance
  swap _ _ := Std.OrientedCmp.eq_swap
  eq_iff _ _ := Std.LawfulEqCmp.compare_eq_iff_eq
  lt_of_above _ _ _ hb habove := lt_of_above (numbers_iff_uses.mp hb) habove
  siblings _ _ ha hb hparent := compareDocumentOrder_of_levelOf_eq
    (levelOf_eq_of_parentOf_eq (numbers_iff_uses.mp ha) (numbers_iff_uses.mp hb) hparent)
  contiguous _ _ _ _ _ ha _ hb htopa htopb hlow hhigh :=
    within_of_between (numbers_iff_uses.mp ha) (numbers_iff_uses.mp hb) htopa htopb
      (Ordering.isLE_iff_ne_gt.mpr hlow) (Ordering.isLE_iff_ne_gt.mpr hhigh)
  isAncestor_iff _ _ _ hb := isAncestor_iff_above (numbers_iff_uses.mp hb)

end Numbering

end TreeAxes
