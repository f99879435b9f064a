import TreeAxes.Numbering.Basic

/-!
# Windows and levels

The slots of a window stand one level below their owner. Hence going down from window to
window ends, and the descendants of a node are one block of identifiers on every level.
-/

namespace TreeAxes

namespace Level

variable {above l m : Level} {fanOut : List Nat} {i j : Nat}

/-- Every level holds identifiers, and starts where the one above it ends. -/
theorem pos_and_next (hpos : ∀ slots ∈ fanOut, 0 < slots) (hc : 0 < above.count)
    (hl : (above :: above.below fanOut)[i]? = some l)
    (hm : (above :: above.below fanOut)[i + 1]? = some m) :
    0 < l.count ∧ 0 < m.slots ∧ m = l.next m.slots := by
  induction fanOut generalizing above i with
  | nil => simp [below] at hm
  | cons slots rest ih =>
    have hs : 0 < slots := hpos slots (by simp)
    cases i with
    | zero =>
      simp [below] at hl hm
      subst hl hm
      exact ⟨hc, hs, rfl⟩
    | succ i =>
      exact ih (fun s hs => hpos s (by simp [hs])) (Nat.mul_pos hc hs)
        (by simpa [below] using hl) (by simpa [below] using hm)

/-- Blocks of different levels do not overlap. -/
theorem end_le_first (hpos : ∀ slots ∈ fanOut, 0 < slots) (hc : 0 < above.count) (hij : i < j)
    (hl : (above :: above.below fanOut)[i]? = some l)
    (hm : (above :: above.below fanOut)[j]? = some m) :
    l.first + l.count ≤ m.first := by
  induction j generalizing m with
  | zero => omega
  | succ j ih =>
    obtain ⟨k, hk⟩ : ∃ k, (above :: above.below fanOut)[j]? = some k := by
      have := (List.getElem?_eq_some_iff.1 hm).1
      exact ⟨_, List.getElem?_eq_getElem (by omega)⟩
    obtain ⟨hk0, -, hk'⟩ := pos_and_next hpos hc hk hm
    rw [hk', next_first]
    rcases Nat.lt_succ_iff_lt_or_eq.1 hij with h | rfl
    · have := ih h hk
      omega
    · rw [hl] at hk
      cases hk
      omega

end Level

namespace Numbering

variable {n : Numbering} {id p i j : Nat} {l m : Level} {w : Window}

theorem fanOut_pos (n : Numbering) : ∀ slots ∈ n.fanOut, 0 < slots :=
  Level.pos_of_fault?_eq_none n.accepted

theorem level_next (hl : n.levels[i]? = some l) (hm : n.levels[i + 1]? = some m) :
    0 < l.count ∧ 0 < m.slots ∧ m = l.next m.slots := by
  rw [getElem?_levels] at hl hm
  exact Level.pos_and_next n.fanOut_pos (by decide) hl hm

theorem level_end_le_first (hij : i < j) (hl : n.levels[i]? = some l)
    (hm : n.levels[j]? = some m) : l.first + l.count ≤ m.first := by
  rw [getElem?_levels] at hl hm
  exact Level.end_le_first n.fanOut_pos (by decide) hij hl hm

@[simp] theorem levels_zero : n.levels[0]? = some Level.root := by simp [getElem?_levels]

theorem exists_level (n : Numbering) (h : i < n.depth) : ∃ l, n.levels[i]? = some l :=
  ⟨_, Array.getElem?_eq_getElem h⟩

theorem levelOf_lt_depth (n : Numbering) (id : Nat) : n.levelOf id < n.depth := by
  have := n.depth_eq
  exact Bisection.last_lt (by unfold depth at this; omega)

/-- The levels that begin at or before an identifier come first. -/
theorem ledBy_levels (n : Numbering) (id : Nat) : LedBy (·.first ≤ id) n.levels.toList := by
  refine List.pairwise_iff_getElem.2 fun i j hi hj hij h => ?_
  have hi' : n.levels[i]? = some n.levels.toList[i] := by
    rw [← Array.getElem?_toList, List.getElem?_eq_getElem hi]
  have hj' : n.levels[j]? = some n.levels.toList[j] := by
    rw [← Array.getElem?_toList, List.getElem?_eq_getElem hj]
  have := level_end_le_first hij hi' hj'
  simp only [decide_eq_true_eq] at h ⊢
  omega

theorem first_le_iff (id : Nat) (hl : n.levels[i]? = some l) :
    l.first ≤ id ↔ i < (n.levels.toList.takeWhile (·.first ≤ id)).length := by
  have := Bisection.any_getElem?_iff (n.ledBy_levels id) i
  rw [Array.getElem?_toList, hl] at this
  simpa using this

theorem levelOf_eq_sub_one (n : Numbering) (id : Nat) :
    n.levelOf id = (n.levels.toList.takeWhile (·.first ≤ id)).length - 1 :=
  Bisection.last_eq (n.ledBy_levels id)

/-- The level of an identifier starts at or before it; of `0`, no level does. -/
theorem first_le (hid : id ≠ noNode) (hl : n.levels[n.levelOf id]? = some l) :
    l.first ≤ id := by
  have hroot := first_le_iff id (levels_zero (n := n))
  rw [first_le_iff id hl]
  have := n.levelOf_eq_sub_one id
  simp only [Level.root, rootNode, noNode] at hroot hid
  omega

theorem lt_first_of_next (hm : n.levels[n.levelOf id + 1]? = some m) : id < m.first := by
  have := first_le_iff id hm
  have := n.levelOf_eq_sub_one id
  omega

/-- An identifier stands on the level whose block holds it. -/
theorem levelOf_eq (hl : n.levels[i]? = some l) (hle : l.first ≤ id)
    (hlt : id < l.first + l.count) : n.levelOf id = i := by
  obtain ⟨own, hown⟩ := n.exists_level (n.levelOf_lt_depth id)
  have h := n.levelOf_eq_sub_one id
  have hi := (first_le_iff id hl).1 hle
  rcases Nat.lt_or_ge i (n.levelOf id) with hgt | hge
  · have := level_end_le_first hgt hl hown
    have := (first_le_iff id hown).2 (by omega)
    omega
  · omega

theorem exists_of_window? (h : n.window? p = some w) :
    ∃ own lower, n.levels[n.levelOf p]? = some own ∧ n.levels[n.levelOf p + 1]? = some lower ∧
      p ≠ noNode ∧ w = ⟨(p - own.first) * lower.slots + lower.first, lower.slots⟩ := by
  unfold window? at h
  split at h
  · simp at h
  · split at h
    · next own lower hown hlower =>
      exact ⟨own, lower, hown, hlower, ‹_›, by simpa using h.symm⟩
    · simp at h

/-- The slots of a window stand one level below its owner. -/
theorem levelOf_of_mem_window (h : n.window? p = some w) (hid : id ∈ w.ids) :
    n.levelOf id = n.levelOf p + 1 := by
  obtain ⟨own, lower, hown, hlower, hp, rfl⟩ := exists_of_window? h
  obtain ⟨hc, hs, heq⟩ := level_next hown hlower
  have h1 := first_le hp hown
  have h2 := lt_first_of_next hlower
  simp only [Window.ids, List.mem_range'_1] at hid
  apply levelOf_eq hlower (by omega)
  have hf : lower.first = own.first + own.count := by rw [heq]; rfl
  have hn : lower.count = own.count * lower.slots := by rw [heq]; rfl
  have hk : p - own.first + 1 ≤ own.count := by omega
  have := Nat.mul_le_mul_right lower.slots hk
  rw [Nat.add_mul, Nat.one_mul] at this
  omega

theorem window?_slots_pos (h : n.window? p = some w) : 0 < w.slots := by
  obtain ⟨own, lower, hown, hlower, -, rfl⟩ := exists_of_window? h
  exact (level_next hown hlower).2.1

theorem first_mem_window (h : n.window? p = some w) : w.first ∈ w.ids := by
  have := window?_slots_pos h
  simp [Window.ids, List.mem_range'_1]
  omega

/-- A slot of a window has fewer levels below it than the owner of the window. -/
theorem depth_sub_levelOf_lt (h : n.window? p = some w) (hid : id ∈ w.ids) :
    n.depth - n.levelOf id < n.depth - n.levelOf p := by
  have h1 := levelOf_of_mem_window h hid
  have h2 := n.levelOf_lt_depth id
  omega

/-- The blocks of identifiers below those from `lower` to `upper`, nearest level first.
Both ends stand on one level. -/
def blocksBelow (n : Numbering) (lower upper : Nat) : List Window :=
  match h : n.window? lower, n.window? upper with
  | some first, some last =>
    ⟨first.first, last.last + 1 - first.first⟩ :: n.blocksBelow first.first last.last
  | _, _ => []
termination_by n.depth - n.levelOf lower
decreasing_by exact depth_sub_levelOf_lt h (first_mem_window h)

end Numbering

end TreeAxes
