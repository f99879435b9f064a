/-!
# Bisection

An array is led by a test when the elements that pass it come before those that fail it.
Bisection then finds the last element that passes, and hence how many do, with few tests.
The main statement, `count_eq`, says that it counts what `takeWhile` takes.
-/

namespace TreeAxes

/-- Wherever an element passes, all elements before it do. -/
def LedBy (p : α → Bool) (xs : List α) : Prop := xs.Pairwise fun a b => p b → p a

namespace Bisection

/-- The last place whose element passes, of `size` places from `base` on. The element at
`base` passes, or none does. -/
def lastFrom (p : α → Bool) (xs : Array α) (base size : Nat) : Nat :=
  if 1 < size then
    lastFrom p xs (if xs[base + size / 2]?.any p then base + size / 2 else base) (size - size / 2)
  else base
termination_by size

/-- The last place whose element passes; `0` if none does. -/
def last (p : α → Bool) (xs : Array α) : Nat := lastFrom p xs 0 xs.size

/-- Number of elements that pass. -/
def count (p : α → Bool) (xs : Array α) : Nat :=
  if xs[last p xs]?.any p then last p xs + 1 else 0

theorem any_getElem?_iff {p : α → Bool} {xs : List α} (h : LedBy p xs) (i : Nat) :
    xs[i]?.any p ↔ i < (xs.takeWhile p).length := by
  induction xs generalizing i with
  | nil => simp
  | cons x xs ih =>
    obtain ⟨hx, hxs⟩ := List.pairwise_cons.1 h
    by_cases hp : p x
    · cases i with
      | zero => simp [hp]
      | succ i => simpa [hp] using ih hxs i
    · have hnone : ∀ y ∈ xs, ¬ p y := fun y hy hpy => hp (hx y hy hpy)
      rw [List.takeWhile_cons_of_neg hp]
      cases i with
      | zero => simp [hp]
      | succ i =>
        simp only [List.getElem?_cons_succ, Option.any_eq_true, List.length_nil,
          Nat.not_lt_zero, iff_false]
        rintro ⟨y, hy, hpy⟩
        exact hnone y (List.mem_of_getElem? hy) hpy

/-- Halving keeps the last of `k` leading elements within the places that are left. -/
theorem lastFrom_eq {p : α → Bool} {xs : Array α} {k base size : Nat}
    (h : ∀ i, xs[i]?.any p ↔ i < k) (hbase : base ≤ k - 1) (hk : k ≤ base + size) :
    lastFrom p xs base size = k - 1 := by
  fun_induction lastFrom p xs base size with
  | case1 base size hsize ih =>
    have hmid := h (base + size / 2)
    apply ih
    · split <;> grind
    · split <;> grind
  | case2 base size hsize => omega

theorem lastFrom_lt {p : α → Bool} {xs : Array α} {base size : Nat}
    (hsize : 0 < size) (h : base + size ≤ xs.size) : lastFrom p xs base size < xs.size := by
  fun_induction lastFrom p xs base size with
  | case1 base size hsize ih =>
    apply ih
    · omega
    · split <;> omega
  | case2 base size hsize => omega

theorem last_lt {p : α → Bool} {xs : Array α} (h : 0 < xs.size) : last p xs < xs.size :=
  lastFrom_lt h (by omega)

theorem last_eq {p : α → Bool} {xs : Array α} (h : LedBy p xs.toList) :
    last p xs = (xs.toList.takeWhile p).length - 1 := by
  refine lastFrom_eq (fun i => ?_) (by omega) ?_
  · rw [← Array.getElem?_toList]
    exact any_getElem?_iff h i
  · have := (List.takeWhile_prefix (l := xs.toList) p).length_le
    simpa using this

theorem count_eq {p : α → Bool} {xs : Array α} (h : LedBy p xs.toList) :
    count p xs = (xs.toList.takeWhile p).length := by
  have hiff := any_getElem?_iff h (last p xs)
  rw [Array.getElem?_toList] at hiff
  have hlast := last_eq h
  unfold count
  split
  · next hp =>
    have := hiff.1 hp
    omega
  · next hp =>
    have := mt hiff.2 hp
    omega

end Bisection

end TreeAxes
