import TreeAxes.Numbering.Window

/-!
# Document order

Document order is the preorder of the tree: a node comes before its descendants, and
siblings are ordered by identifier. It is decided on the upper one of two levels: the deeper
node is lifted to it, and on one level identifiers ascend in document order.

The chain of an identifier lists it and what it climbs through, the top level first. The
main statement, `compareDocumentOrder_eq_compare_chain`, says that document order is the
lexicographic order of chains. Hence it is a total order of all identifiers, the unused ones
included.
-/

namespace TreeAxes

namespace Numbering

/-- Climbs from `level` by some levels. -/
def climb (n : Numbering) (level : Nat) : Nat → Nat → Nat
  | 0, id => id
  | levels + 1, id => n.climb (level - 1) levels (n.parentAt id level)

/-- What an identifier on `level` climbs to on the level `target`, in one step: on the lower
level, a node of the upper one owns as many identifiers as it is wider. -/
def lift (n : Numbering) (level target id : Nat) : Nat :=
  if level ≤ target then id
  else
    match n.levels[level]?, n.levels[target]? with
    | some own, some upper => (id - own.first) / (own.count / upper.count) + upper.first
    | _, _ => noNode

/-- Position of `a` relative to `b` in document order. -/
def compareDocumentOrder (n : Numbering) (a b : Nat) : Ordering :=
  if a = b then .eq
  else
    let levelA := n.levelOf a
    let levelB := n.levelOf b
    match compare (n.lift levelA levelB a) (n.lift levelB levelA b) with
    | .eq => compare levelA levelB
    | unequal => unequal

/-- Whether `ancestor` is a proper ancestor of `descendant`. -/
def isAncestor (n : Numbering) (ancestor descendant : Nat) : Bool :=
  n.levelOf ancestor < n.levelOf descendant &&
    n.lift (n.levelOf descendant) (n.levelOf ancestor) descendant == ancestor

/-- An identifier on `level` and what it climbs through, the top level first. -/
def chainFrom (n : Numbering) : Nat → Nat → List Nat
  | 0, id => [id]
  | level + 1, id => n.chainFrom level (n.parentAt id (level + 1)) ++ [id]

/-- The chain of an identifier, climbed from its own level. -/
def chain (n : Numbering) (id : Nat) : List Nat := n.chainFrom (n.levelOf id) id

variable {n : Numbering} {a b id level k : Nat}

@[simp] theorem length_chainFrom (n : Numbering) (level id : Nat) :
    (n.chainFrom level id).length = level + 1 := by
  induction level generalizing id with
  | zero => rfl
  | succ level ih => simp [chainFrom, ih]

@[simp] theorem getLast?_chainFrom (n : Numbering) (level id : Nat) :
    (n.chainFrom level id).getLast? = some id := by
  cases level <;> simp [chainFrom]

theorem chainFrom_inj (h : n.chainFrom level a = n.chainFrom level b) : a = b := by
  have := congrArg List.getLast? h
  simpa using this

theorem chain_inj (h : n.chain a = n.chain b) : a = b := by
  have := congrArg List.getLast? h
  simpa [chain] using this

/-- A chain goes on above the identifier that is reached by climbing. -/
theorem chainFrom_eq_append (hk : k ≤ level) :
    ∃ rest, n.chainFrom level id = n.chainFrom (level - k) (n.climb level k id) ++ rest ∧
      rest.length = k := by
  induction k generalizing level id with
  | zero => exact ⟨[], by simp [climb], rfl⟩
  | succ k ih =>
    obtain ⟨level, rfl⟩ : ∃ l, level = l + 1 := ⟨level - 1, by omega⟩
    obtain ⟨rest, h, hl⟩ := @ih (n.parentAt id (level + 1)) level (by omega)
    refine ⟨rest ++ [id], ?_, by simp [hl]⟩
    rw [chainFrom, h, show level + 1 - (k + 1) = level - k by omega, List.append_assoc]
    rfl

@[simp] theorem lift_of_le {target : Nat} (h : level ≤ target) : n.lift level target id = id :=
  if_pos h

/-- The width of a level is a multiple of that of every level above it. -/
theorem count_dvd {l m : Level} {i j : Nat} (hij : i ≤ j) (hl : n.levels[i]? = some l)
    (hm : n.levels[j]? = some m) : l.count ∣ m.count := by
  induction j generalizing m with
  | zero =>
    obtain rfl : i = 0 := by omega
    rw [hl] at hm
    cases hm
    exact Nat.dvd_refl _
  | succ j ih =>
    rcases Nat.lt_or_eq_of_le hij with h | rfl
    · have hj : j + 1 < n.depth := (Array.getElem?_eq_some_iff.1 hm).1
      obtain ⟨k, hk⟩ := n.exists_level (i := j) (by omega)
      obtain ⟨-, -, heq⟩ := level_next hk hm
      rw [heq, Level.next_count]
      exact Nat.dvd_trans (ih (by omega) hk) (Nat.dvd_mul_right _ _)
    · rw [hl] at hm
      cases hm
      exact Nat.dvd_refl _

/-- Lifting in one step leads where climbing level by level does. -/
theorem climb_eq_lift (hk : k ≤ level) (hd : level < n.depth) :
    n.climb level k id = n.lift level (level - k) id := by
  induction k generalizing level id with
  | zero => simp [climb, lift]
  | succ k ih =>
    obtain ⟨level, rfl⟩ : ∃ l, level = l + 1 := ⟨level - 1, by omega⟩
    obtain ⟨own, hown⟩ := n.exists_level hd
    obtain ⟨upper, hupper⟩ := n.exists_level (i := level) (by omega)
    obtain ⟨target, htarget⟩ := n.exists_level (i := level - k) (by omega)
    obtain ⟨hc, hs, heq⟩ := level_next hupper hown
    have hcount : own.count = own.slots * upper.count := by
      rw [heq, Level.next_count, Level.next_slots, Nat.mul_comm]
    have hparent : n.parentAt id (level + 1) = (id - own.first) / own.slots + upper.first := by
      simp [parentAt, hupper, hown]
    rw [climb, Nat.add_sub_cancel, ih (by omega) (by omega), hparent, lift, lift,
      if_neg (show ¬ level + 1 ≤ level + 1 - (k + 1) by omega),
      show level + 1 - (k + 1) = level - k by omega, hown, htarget, hupper]
    split
    · next h =>
      obtain rfl : k = 0 := by omega
      rw [Nat.sub_zero, hupper] at htarget
      cases htarget
      simp [hcount, Nat.mul_div_cancel _ hc]
    · simp only [Nat.add_sub_cancel, hcount,
        Nat.mul_div_assoc _ (count_dvd (Nat.sub_le level k) htarget hupper), Nat.div_div_eq_div_mul]

theorem compare_append_right (xs ys zs : List Nat) :
    compare (xs ++ ys) (xs ++ zs) = compare ys zs := by
  induction xs with
  | nil => rfl
  | cons x xs ih =>
    simp only [List.compare_eq_compareLex] at ih ⊢
    simp [List.compareLex_cons_cons, ih]

theorem compare_append_of_ne {xs ys : List Nat} (us vs : List Nat) (hl : xs.length = ys.length)
    (h : xs ≠ ys) : compare (xs ++ us) (ys ++ vs) = compare xs ys := by
  induction xs generalizing ys with
  | nil => cases ys with
    | nil => exact absurd rfl h
    | cons y ys => simp at hl
  | cons x xs ih => cases ys with
    | nil => simp at hl
    | cons y ys =>
      simp only [List.compare_eq_compareLex, List.cons_append, List.compareLex_cons_cons] at ih ⊢
      by_cases hxy : x = y
      · subst hxy
        rw [ih (by simpa using hl) (by simpa using h)]
      · have : compare x y ≠ .eq := fun h => hxy (Std.LawfulEqCmp.eq_of_compare h)
        cases hc : compare x y <;> simp_all

theorem compare_singleton (a b : Nat) : compare [a] [b] = compare a b := by
  simp

theorem parentAt_le_parentAt (n : Numbering) (level : Nat) (h : a ≤ b) :
    n.parentAt a level ≤ n.parentAt b level := by
  unfold parentAt
  split
  · exact Nat.le_refl _
  · split
    · next own _ _ => exact Nat.add_le_add_right (Nat.div_le_div_right (by omega)) _
    · exact Nat.le_refl _

/-- On one level, parents that differ compare like the identifiers. -/
theorem compare_parentAt_of_ne (h : n.parentAt a level ≠ n.parentAt b level) :
    compare (n.parentAt a level) (n.parentAt b level) = compare a b := by
  rcases Nat.lt_trichotomy a b with hlt | rfl | hlt
  · have := n.parentAt_le_parentAt level (Nat.le_of_lt hlt)
    rw [Nat.compare_eq_lt.2 hlt, Nat.compare_eq_lt.2 (by omega)]
  · exact absurd rfl h
  · have := n.parentAt_le_parentAt level (Nat.le_of_lt hlt)
    rw [Nat.compare_eq_gt.2 hlt, Nat.compare_eq_gt.2 (by omega)]

/-- On one level, chains compare like the identifiers they end in. -/
theorem compare_chainFrom (n : Numbering) (level a b : Nat) :
    compare (n.chainFrom level a) (n.chainFrom level b) = compare a b := by
  induction level generalizing a b with
  | zero => rw [chainFrom, chainFrom, compare_singleton]
  | succ level ih =>
    rw [chainFrom, chainFrom]
    by_cases h : n.parentAt a (level + 1) = n.parentAt b (level + 1)
    · rw [h, compare_append_right, compare_singleton]
    · rw [compare_append_of_ne _ _ (by simp) (fun h' => h (chainFrom_inj h')), ih,
        compare_parentAt_of_ne h]

/-- Where chains part on one level, what follows does not count. -/
theorem compare_chainFrom_append (n : Numbering) (level : Nat) {a b : Nat} (us vs : List Nat)
    (h : a ≠ b) :
    compare (n.chainFrom level a ++ us) (n.chainFrom level b ++ vs) = compare a b := by
  rw [compare_append_of_ne us vs (by simp) (fun h' => h (chainFrom_inj h')), compare_chainFrom]

theorem compare_append_self (xs : List Nat) {us : List Nat} (h : us ≠ []) :
    compare (xs ++ us) xs = .gt := by
  have := compare_append_right xs us []
  rw [List.append_nil] at this
  rw [this]
  cases us with
  | nil => exact absurd rfl h
  | cons u us => rfl

theorem compare_self_append (xs : List Nat) {us : List Nat} (h : us ≠ []) :
    compare xs (xs ++ us) = .lt := by
  have := compare_append_right xs [] us
  rw [List.append_nil] at this
  rw [this]
  cases us with
  | nil => exact absurd rfl h
  | cons u us => rfl

/-- The chain of an identifier goes on, below a level above it, from what it is lifted to. -/
theorem chain_eq_append (h : level ≤ n.levelOf id) :
    ∃ rest, n.chain id = n.chainFrom level (n.lift (n.levelOf id) level id) ++ rest ∧
      rest.length = n.levelOf id - level := by
  obtain ⟨rest, hr, hl⟩ :=
    @chainFrom_eq_append n id (n.levelOf id) (n.levelOf id - level) (by omega)
  have hlevel : n.levelOf id - (n.levelOf id - level) = level := by omega
  rw [climb_eq_lift (by omega) (n.levelOf_lt_depth id), hlevel] at hr
  exact ⟨rest, hr, hl⟩

/-- Document order is the lexicographic order of chains, a proper beginning being smaller. -/
theorem compareDocumentOrder_eq_compare_chain (n : Numbering) (a b : Nat) :
    n.compareDocumentOrder a b = compare (n.chain a) (n.chain b) := by
  unfold compareDocumentOrder
  split
  · next h => rw [h]; exact Std.ReflCmp.compare_self.symm
  next hne =>
  rcases Nat.lt_trichotomy (n.levelOf a) (n.levelOf b) with hlt | heq | hlt
  · obtain ⟨rest, hr, hl⟩ := @chain_eq_append n b (n.levelOf a) (Nat.le_of_lt hlt)
    have hrest : rest ≠ [] := by
      rintro rfl
      simp at hl
      omega
    rw [hr, chain]
    simp only [lift_of_le (Nat.le_of_lt hlt)]
    by_cases hc : a = n.lift (n.levelOf b) (n.levelOf a) b
    · rw [← hc, compare_self_append _ hrest, Nat.compare_eq_eq.2 rfl]
      exact Nat.compare_eq_lt.2 hlt
    · have := n.compare_chainFrom_append (n.levelOf a) [] rest hc
      rw [List.append_nil] at this
      rw [this]
      cases hcmp : compare a (n.lift (n.levelOf b) (n.levelOf a) b) with
      | eq => exact absurd (Std.LawfulEqCmp.eq_of_compare hcmp) hc
      | lt | gt => rfl
  · simp only [chain, heq, compare_chainFrom, lift_of_le (Nat.le_refl _)]
    cases hcmp : compare a b with
    | eq => exact absurd (Std.LawfulEqCmp.eq_of_compare hcmp) hne
    | lt | gt => rfl
  · obtain ⟨rest, hr, hl⟩ := @chain_eq_append n a (n.levelOf b) (Nat.le_of_lt hlt)
    have hrest : rest ≠ [] := by
      rintro rfl
      simp at hl
      omega
    have hchain : n.chain b = n.chainFrom (n.levelOf b) b := rfl
    rw [hr, hchain]
    simp only [lift_of_le (Nat.le_of_lt hlt)]
    by_cases hc : n.lift (n.levelOf a) (n.levelOf b) a = b
    · rw [hc, compare_append_self _ hrest, Nat.compare_eq_eq.2 rfl]
      exact Nat.compare_eq_gt.2 hlt
    · have := n.compare_chainFrom_append (n.levelOf b) rest [] hc
      rw [List.append_nil] at this
      rw [this]
      cases hcmp : compare (n.lift (n.levelOf a) (n.levelOf b) a) b with
      | eq => exact absurd (Std.LawfulEqCmp.eq_of_compare hcmp) hc
      | lt | gt => rfl

instance (n : Numbering) : Std.TransCmp n.compareDocumentOrder where
  eq_swap := by
    intro a b
    simp only [compareDocumentOrder_eq_compare_chain]
    exact Std.OrientedCmp.eq_swap
  isLE_trans := by
    intro a b c
    simp only [compareDocumentOrder_eq_compare_chain]
    exact Std.TransCmp.isLE_trans

instance (n : Numbering) : Std.LawfulEqCmp n.compareDocumentOrder where
  compare_self := by simp [compareDocumentOrder]
  eq_of_compare := by
    intro a b h
    rw [compareDocumentOrder_eq_compare_chain] at h
    exact chain_inj (Std.LawfulEqCmp.eq_of_compare h)

/-- Whether `a` is `b` or comes before it. -/
def notAfter (n : Numbering) (a b : Nat) : Bool := (n.compareDocumentOrder a b).isLE

theorem notAfter_trans (n : Numbering) (a b c : Nat) (hab : n.notAfter a b)
    (hbc : n.notAfter b c) : n.notAfter a c :=
  Std.TransCmp.isLE_trans hab hbc

theorem notAfter_total (n : Numbering) (a b : Nat) : (n.notAfter a b || n.notAfter b a) := by
  have h : n.compareDocumentOrder b a = (n.compareDocumentOrder a b).swap :=
    Std.OrientedCmp.eq_swap
  rw [notAfter, notAfter, h]
  cases n.compareDocumentOrder a b <;> rfl

theorem lt_of_notAfter (h : n.notAfter a b) (hne : a ≠ b) : n.compareDocumentOrder a b = .lt := by
  unfold notAfter at h
  cases hc : n.compareDocumentOrder a b with
  | lt => rfl
  | eq => exact absurd (Std.LawfulEqCmp.eq_of_compare hc) hne
  | gt => simp [hc] at h

end Numbering

end TreeAxes
