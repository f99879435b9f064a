import TreeAxes.Proofs.Numbering.Preorder

/-!
# Reckoning in words

Identifiers are words of 64 bits. While a numbering is built, every sum and product is checked;
afterwards none is. Here all arithmetic is checked: a result is missing once a sum or product
leaves the words, a difference is taken below zero, or something is divided by zero. The main
statement, `reckonsInWords`, says which fan-outs are accepted, at which level others are refused,
and that of an accepted numbering no result is ever missing, whichever words are asked for.
-/

namespace TreeAxes

/-! ## Checked arithmetic -/

namespace Word

def add? (a b : Nat) : Option Nat := if a + b ≤ maxIdentifier then some (a + b) else none

def sub? (a b : Nat) : Option Nat := if b ≤ a then some (a - b) else none

def mul? (a b : Nat) : Option Nat := if a * b ≤ maxIdentifier then some (a * b) else none

def div? (a b : Nat) : Option Nat := if b = 0 then none else some (a / b)

variable {a b : Nat}

theorem add?_eq (h : a + b ≤ maxIdentifier) : add? a b = some (a + b) := if_pos h

theorem sub?_eq (h : b ≤ a) : sub? a b = some (a - b) := if_pos h

theorem mul?_eq (h : a * b ≤ maxIdentifier) : mul? a b = some (a * b) := if_pos h

theorem div?_eq (h : 0 < b) : div? a b = some (a / b) := if_neg (Nat.ne_of_gt h)

end Word

/-! ## Construction -/

/-- How many identifiers a level takes, over exact numbers. -/
def width (fanOut : List Nat) (level : Nat) : Nat := (fanOut.take level).foldl (· * ·) 1

/-- The first number behind a level: that of the root, and the widths of all levels so far. -/
def extent (fanOut : List Nat) : Nat → Nat
  | 0 => rootNode + width fanOut 0
  | level + 1 => extent fanOut level + width fanOut (level + 1)

/-- Whether the fan-out that describes a level cannot be used. -/
def IsFaulty (fanOut : List Nat) (level : Nat) : Prop :=
  fanOut[level - 1]? = some 0 ∨ maxIdentifier < extent fanOut level

instance (fanOut : List Nat) (level : Nat) : Decidable (IsFaulty fanOut level) :=
  inferInstanceAs (Decidable (_ ∨ _))

/-- How the fault of a level is reported: as a zero, if it is one. -/
def faultAt (fanOut : List Nat) (level : Nat) : NumberingError :=
  if fanOut[level - 1]? = some 0 then .zeroFanOut level else .overflow level

/-- A level whose fan-out cannot be used, while those of all levels above it can. -/
structure IsFirstFaulty (fanOut : List Nat) (level : Nat) : Prop where
  pos : 1 ≤ level
  le_length : level ≤ fanOut.length
  faulty : IsFaulty fanOut level
  above : ∀ upper, 1 ≤ upper → upper < level → ¬IsFaulty fanOut upper

variable {fanOut rest : List Nat} {level k slots : Nat} {l above : Level}

theorem width_succ (h : fanOut[k]? = some slots) :
    width fanOut (k + 1) = width fanOut k * slots := by
  rw [width, List.take_add_one, h, Option.toList_some, List.foldl_append, width]
  rfl

theorem getElem?_of_drop_eq_cons (h : fanOut.drop k = slots :: rest) :
    fanOut[k]? = some slots ∧ fanOut.drop (k + 1) = rest := by
  constructor
  · have hzero := congrArg (·[0]?) h
    simpa [List.getElem?_drop] using hzero
  · rw [← List.tail_drop, h, List.tail_cons]

theorem extent_le_extent (hle : level ≤ k) : extent fanOut level ≤ extent fanOut k := by
  induction hle with
  | refl => exact Nat.le_refl _
  | step _ ih => exact Nat.le_trans ih (Nat.le_add_right _ _)

namespace Level

/-- The level below, by checked sums and a checked product. -/
def next? (above : Level) (slots : Nat) : Option Level := do
  let first ← Word.add? above.first above.count
  let count ← Word.mul? above.count slots
  let _ ← Word.add? first count
  return ⟨first, count, slots⟩

/-- The levels below by checked arithmetic, or the first fault in their fan-outs. -/
def below? (above : Level) (level : Nat) : List Nat → Except NumberingError (List Level)
  | [] => .ok []
  | slots :: rest =>
    if slots = 0 then .error (.zeroFanOut level)
    else
      match above.next? slots with
      | none => .error (.overflow level)
      | some next => (next.below? (level + 1) rest).map (next :: ·)

/-- If one of the checks fails, the exact sum is too large, and the other way round. -/
theorem next?_eq (hslots : slots ≠ 0) :
    above.next? slots =
      if maxIdentifier < (above.next slots).first + (above.next slots).count then none
      else some (above.next slots) := by
  rw [next_first, next_count]
  have hcount : above.count ≤ above.count * slots :=
    Nat.le_mul_of_pos_right _ (Nat.pos_of_ne_zero hslots)
  split
  · next hover =>
    by_cases hfirst : above.first + above.count ≤ maxIdentifier
    · by_cases hmul : above.count * slots ≤ maxIdentifier
      · simp [next?, Word.add?, Word.mul?, hfirst, hmul, Nat.not_le_of_lt hover]
      · simp [next?, Word.add?, Word.mul?, hfirst, hmul]
    · simp [next?, Word.add?, hfirst]
  · next hfits =>
    have hfits := Nat.le_of_not_lt hfits
    simp only [next?, Word.add?_eq (a := above.first) (b := above.count) (by omega),
      Word.mul?_eq (a := above.count) (b := slots) (by omega), Option.bind_eq_bind,
      Option.bind_some, Word.add?_eq hfits]
    rfl

theorem below?_eq (above : Level) (level : Nat) (fanOut : List Nat) :
    above.below? level fanOut =
      ((above.fault? level fanOut).map .error).getD (.ok (above.below fanOut)) := by
  induction fanOut generalizing above level with
  | nil => rfl
  | cons slots rest ih =>
    rw [below?, fault?, below]
    by_cases hslots : slots = 0
    · rw [if_pos hslots, if_pos hslots]
      rfl
    · rw [if_neg hslots, if_neg hslots, next?_eq hslots]
      by_cases hover : maxIdentifier < (above.next slots).first + (above.next slots).count
      · rw [if_pos hover, if_pos hover]
        rfl
      · simp only [if_neg hover, ih]
        cases (above.next slots).fault? (level + 1) rest with
        | none => rfl
        | some fault => rfl

/-- Whether a level is as wide as the fan-outs up to it say, and ends where they say. -/
structure Spans (l : Level) (fanOut : List Nat) (level : Nat) : Prop where
  count_eq : l.count = width fanOut level
  end_eq : l.first + l.count = extent fanOut level

theorem spans_root (fanOut : List Nat) : root.Spans fanOut 0 := ⟨rfl, rfl⟩

theorem Spans.next (h : l.Spans fanOut k) (hslots : fanOut[k]? = some slots) :
    (l.next slots).Spans fanOut (k + 1) := by
  have hcount : (l.next slots).count = width fanOut (k + 1) := by
    rw [width_succ hslots, ← h.count_eq, next_count]
  refine ⟨hcount, ?_⟩
  rw [hcount, next_first, h.end_eq, extent]

/-- The first fault is that of the first level whose fan-out cannot be used. -/
theorem Spans.fault?_eq (h : above.Spans fanOut k) (hrest : fanOut.drop k = rest) :
    above.fault? (k + 1) rest =
      ((List.range' (k + 1) rest.length).find? (IsFaulty fanOut ·)).map (faultAt fanOut) := by
  induction rest generalizing above k with
  | nil => rfl
  | cons slots rest ih =>
    obtain ⟨hslots, hdrop⟩ := getElem?_of_drop_eq_cons hrest
    have hnext := h.next hslots
    have hfaulty : IsFaulty fanOut (k + 1) ↔
        slots = 0 ∨ maxIdentifier < (above.next slots).first + (above.next slots).count := by
      rw [IsFaulty, Nat.add_sub_cancel, hslots, Option.some_inj, hnext.end_eq]
    rw [fault?, List.length_cons, List.range'_succ, List.find?_cons]
    by_cases hzero : slots = 0
    · rw [if_pos hzero, decide_eq_true (hfaulty.mpr (.inl hzero))]
      simp [faultAt, hslots, hzero]
    · rw [if_neg hzero]
      by_cases hover : maxIdentifier < (above.next slots).first + (above.next slots).count
      · rw [if_pos hover, decide_eq_true (hfaulty.mpr (.inr hover))]
        simp [faultAt, hslots, hzero]
      · rw [if_neg hover, decide_eq_false (fun hf => (hfaulty.mp hf).elim hzero hover)]
        exact ih hnext hdrop

/-- Every level below spans what the fan-outs up to it say. -/
theorem Spans.of_below {i : Nat} (h : above.Spans fanOut k) (hrest : fanOut.drop k = rest)
    (hl : (above :: above.below rest)[i]? = some l) : l.Spans fanOut (k + i) := by
  induction i generalizing above k rest with
  | zero =>
    rw [List.getElem?_cons_zero, Option.some_inj] at hl
    exact hl ▸ h
  | succ i ih =>
    rw [List.getElem?_cons_succ] at hl
    cases rest with
    | nil => cases hl
    | cons slots rest =>
      obtain ⟨hslots, hdrop⟩ := getElem?_of_drop_eq_cons hrest
      rw [show k + (i + 1) = k + 1 + i by omega]
      exact ih (h.next hslots) hdrop hl

/-- The fan-outs below a level multiply to the width of the last one, within the words. -/
theorem Spans.foldlM_slots (h : above.Spans fanOut k) (hrest : fanOut.drop k = rest)
    (hfits : ∀ level, width fanOut level ≤ maxIdentifier) :
    (above.below rest).foldlM (fun count l => Word.mul? count l.slots) above.count =
      some (width fanOut (k + rest.length)) := by
  induction rest generalizing above k with
  | nil => exact congrArg some h.count_eq
  | cons slots rest ih =>
    obtain ⟨hslots, hdrop⟩ := getElem?_of_drop_eq_cons hrest
    have hnext := h.next hslots
    have hmul : Word.mul? above.count slots = some (above.next slots).count := by
      refine Word.mul?_eq ?_
      rw [← next_count, hnext.count_eq]
      exact hfits _
    rw [below, List.foldlM_cons, next_slots, hmul, List.length_cons,
      show k + (rest.length + 1) = k + 1 + rest.length by omega]
    exact ih hnext hdrop

end Level

namespace Numbering

variable {n : Numbering} {id a b goal target i : Nat}

theorem ofFanOut_eq_error_iff {fault : NumberingError} :
    ofFanOut fanOut = .error fault ↔ Level.root.fault? 1 fanOut = some fault := by
  rw [ofFanOut]
  split
  · next other hother => rw [hother, Option.some_inj, Except.error.injEq]
  · next hnone => simp [hnone]

theorem exists_ofFanOut_iff :
    (∃ n, ofFanOut fanOut = .ok n) ↔ Level.root.fault? 1 fanOut = none := by
  rw [ofFanOut]
  split
  · next other hother => simp [hother]
  · next hnone => simp [hnone]

theorem fault?_root_eq (fanOut : List Nat) :
    Level.root.fault? 1 fanOut =
      ((List.range' 1 fanOut.length).find? (IsFaulty fanOut ·)).map (faultAt fanOut) :=
  (Level.spans_root fanOut).fault?_eq List.drop_zero

theorem fault?_root_eq_some_iff {fault : NumberingError} :
    Level.root.fault? 1 fanOut = some fault ↔
      ∃ level, IsFirstFaulty fanOut level ∧ faultAt fanOut level = fault := by
  rw [fault?_root_eq, Option.map_eq_some_iff]
  refine exists_congr fun level => and_congr_left fun _ => ?_
  rw [List.find?_range'_eq_some, decide_eq_true_iff, List.mem_range'_1]
  simp only [Bool.not_eq_true', decide_eq_false_iff_not]
  constructor
  · rintro ⟨hfaulty, ⟨hpos, hle⟩, habove⟩
    exact ⟨hpos, by omega, hfaulty, habove⟩
  · rintro ⟨hpos, hle, hfaulty, habove⟩
    exact ⟨hfaulty, ⟨hpos, by omega⟩, habove⟩

theorem fault?_root_eq_none_iff :
    Level.root.fault? 1 fanOut = none ↔
      ∀ level, 1 ≤ level → level ≤ fanOut.length → ¬IsFaulty fanOut level := by
  rw [fault?_root_eq, Option.map_eq_none_iff, List.find?_range'_eq_none]
  simp only [Bool.not_eq_true', decide_eq_false_iff_not, Nat.add_comm 1, Nat.lt_succ_iff]

/-- Sums only grow, so that the last of them decides. -/
theorem forall_not_isFaulty_iff :
    (∀ level, 1 ≤ level → level ≤ fanOut.length → ¬IsFaulty fanOut level) ↔
      (∀ slots ∈ fanOut, 1 ≤ slots) ∧
        (1 ≤ fanOut.length → extent fanOut fanOut.length ≤ maxIdentifier) := by
  constructor
  · intro hnone
    refine ⟨fun slots hslots => Nat.pos_of_ne_zero ?_, fun hpos => ?_⟩
    · rintro rfl
      obtain ⟨i, hi⟩ := List.mem_iff_getElem?.mp hslots
      have hlt := (List.getElem?_eq_some_iff.mp hi).1
      exact hnone (i + 1) (Nat.le_add_left 1 i) hlt (.inl hi)
    · exact Nat.le_of_not_lt fun hover => hnone _ hpos (Nat.le_refl _) (.inr hover)
  · rintro ⟨hslots, hlast⟩ level hpos hle (hzero | hover)
    · exact absurd (hslots 0 (List.mem_of_getElem? hzero)) (Nat.not_succ_le_zero 0)
    · have hmono : extent fanOut level ≤ extent fanOut fanOut.length := extent_le_extent hle
      have hfits := hlast (Nat.le_trans hpos hle)
      omega

/-- The blocks of a numbering end within the words. -/
theorem extent_le_maxIdentifier (n : Numbering) (level : Nat) (hle : level ≤ n.fanOut.length) :
    extent n.fanOut level ≤ maxIdentifier := by
  cases level with
  | zero =>
    show rootNode + 1 ≤ maxIdentifier
    decide
  | succ level =>
    have hnot := fault?_root_eq_none_iff.mp n.accepted (level + 1) (Nat.le_add_left 1 level) hle
    exact Nat.le_of_not_lt fun hover => hnot (.inr hover)

theorem spans_level (hl : n.levels[i]? = some l) : l.Spans n.fanOut i := by
  rw [getElem?_levels] at hl
  have hspans := (Level.spans_root n.fanOut).of_below List.drop_zero hl
  rwa [Nat.zero_add] at hspans

theorem end_le_maxIdentifier (hl : n.levels[i]? = some l) :
    l.first + l.count ≤ maxIdentifier := by
  have hlt : i < n.depth := (Array.getElem?_eq_some_iff.mp hl).1
  rw [depth_eq] at hlt
  rw [(spans_level hl).end_eq]
  exact n.extent_le_maxIdentifier i (Nat.le_of_lt_succ hlt)

theorem width_le_maxIdentifier (n : Numbering) (level : Nat) :
    width n.fanOut level ≤ maxIdentifier := by
  -- behind the last level there are no more factors
  suffices ∀ level ≤ n.fanOut.length, width n.fanOut level ≤ maxIdentifier by
    rcases Nat.le_total level n.fanOut.length with hle | hge
    · exact this level hle
    · have hlast := this _ (Nat.le_refl _)
      rwa [width, List.take_of_length_le (Nat.le_refl _),
        ← List.take_of_length_le hge] at hlast
  intro level hle
  refine Nat.le_trans ?_ (n.extent_le_maxIdentifier level hle)
  cases level with
  | zero => exact Nat.le_add_left _ _
  | succ level => exact Nat.le_add_left _ _

/-! ## Lookups -/

namespace Checked

/-- The level of an identifier as a word of 32 bits; all that is done to places of the table is
cut off at both ends. -/
def levelOf (n : Numbering) (id : Nat) : Nat :=
  min (Bisection.count (·.first ≤ id) n.levels - 1) (UInt32.size - 1)

def maxId? (n : Numbering) : Option Nat := do
  let deepest ← Word.sub? n.depth 1
  let last ← n.levels[deepest]?
  let count ← n.levels.toList.foldlM (fun count l => Word.mul? count l.slots) 1
  let behind ← Word.add? last.first count
  Word.sub? behind 1

def parentAt? (n : Numbering) (id level : Nat) : Option Nat :=
  if level = 0 ∨ n.depth ≤ level then some noNode
  else do
    let own ← n.levels[level]?
    let offset ← Word.sub? id own.first
    let owner ← Word.div? offset own.slots
    let upper ← n.levels[level - 1]?
    Word.add? owner upper.first

/-- The window below a node, if there is one, and its last slot. -/
def window? (n : Numbering) (parent : Nat) : Option (Option (Window × Nat)) :=
  if parent = noNode ∨ n.depth ≤ levelOf n parent + 1 then some none
  else do
    let own ← n.levels[levelOf n parent]?
    let lower ← n.levels[levelOf n parent + 1]?
    let offset ← Word.sub? parent own.first
    let skipped ← Word.mul? offset lower.slots
    let first ← Word.add? skipped lower.first
    let behind ← Word.add? first lower.slots
    let last ← Word.sub? behind 1
    return some (⟨first, lower.slots⟩, last)

/-- Climbs from a level to a higher one. -/
def climb? (n : Numbering) (goal : Nat) : Nat → Nat → Option Nat
  | 0, id => some id
  | level + 1, id =>
    if level + 1 ≤ goal then some id
    else do
      let parent ← parentAt? n id (level + 1)
      climb? n goal level parent

/-- Climbs from a level to a higher one, unless `target` is met on the way. -/
def climbUnless? (n : Numbering) (target goal : Nat) : Nat → Nat → Option (Option Nat)
  | 0, id => some (some id)
  | level + 1, id =>
    if level + 1 ≤ goal then some (some id)
    else do
      let parent ← parentAt? n id (level + 1)
      if parent = target then some none else climbUnless? n target goal level parent

def compareParted? (n : Numbering) : Nat → Nat → Nat → Option Ordering
  | 0, a, b => some (compare a b)
  | level + 1, a, b => do
    let parentA ← parentAt? n a (level + 1)
    let parentB ← parentAt? n b (level + 1)
    if parentA = parentB then some (compare a b) else compareParted? n level parentA parentB

def compareDocumentOrder? (n : Numbering) (a b : Nat) : Option Ordering :=
  if a = b then some .eq
  else do
    match ← climbUnless? n b (levelOf n b) (levelOf n a) a with
    | none => some .gt
    | some a' =>
      match ← climbUnless? n a' (levelOf n a) (levelOf n b) b with
      | none => some .lt
      | some b' => compareParted? n (min (levelOf n a) (levelOf n b)) a' b'

def isAncestor? (n : Numbering) (ancestor descendant : Nat) : Option Bool :=
  if levelOf n descendant ≤ levelOf n ancestor then some false
  else do
    let top ← climb? n (levelOf n ancestor) (levelOf n descendant) descendant
    return top == ancestor

end Checked

/-! ## No result is missing -/

/-- Whether a word may be climbed from on a level: below the root's, it does not come before the
level. It need not be numbered. -/
structure StandsOn (n : Numbering) (level id : Nat) : Prop where
  lt_depth : level < n.depth
  le_max : id ≤ maxIdentifier
  first_le : ∀ l, n.levels[level]? = some l → 0 < level → l.first ≤ id

theorem standsOn_levelOf (n : Numbering) (hid : id ≤ maxIdentifier) :
    n.StandsOn (n.levelOf id) id := by
  refine ⟨n.levelOf_lt_depth id, hid, fun l hl hpos => first_le ?_ hl⟩
  rintro rfl
  have hroot := first_le_iff noNode (levels_zero (n := n))
  have hlevel := n.levelOf_eq_sub_one noNode
  simp only [Level.root, rootNode, noNode] at hroot hlevel hpos
  omega

/-- One step up leads to the parent, without a result that is missing, and stays in the words. -/
theorem StandsOn.parentAt?_eq (h : n.StandsOn (level + 1) id) :
    Checked.parentAt? n id (level + 1) = some (n.parentAt id (level + 1)) ∧
      n.StandsOn level (n.parentAt id (level + 1)) := by
  have hdepth := h.lt_depth
  obtain ⟨own, hown⟩ := n.exists_level hdepth
  obtain ⟨upper, hupper⟩ := n.exists_level (i := level) (by omega)
  obtain ⟨-, hslots, -⟩ := level_next hupper hown
  have hfirst := h.first_le own hown (Nat.succ_pos level)
  have hbetween := level_end_le_first (Nat.lt_succ_self level) hupper hown
  have hdiv : (id - own.first) / own.slots ≤ id - own.first := Nat.div_le_self _ _
  have hfits : (id - own.first) / own.slots + upper.first ≤ maxIdentifier := by
    have := h.le_max
    omega
  rw [parentAt_eq hupper hown]
  refine ⟨?_, by omega, hfits, fun l hl _ => ?_⟩
  · rw [Checked.parentAt?, if_neg (by omega)]
    simp only [hown, Nat.add_sub_cancel, hupper, Word.sub?_eq hfirst, Word.div?_eq hslots,
      Word.add?_eq hfits, Option.bind_eq_bind, Option.bind_some]
  · obtain rfl := Option.some_inj.mp (hupper.symm.trans hl)
    exact Nat.le_add_left _ _

theorem climb?_eq (h : n.StandsOn level id) :
    Checked.climb? n goal level id = some (n.climb level (level - goal) id) := by
  induction level generalizing id with
  | zero => rw [Checked.climb?, Nat.zero_sub, climb]
  | succ level ih =>
    rw [Checked.climb?]
    split
    · next hle => rw [Nat.sub_eq_zero_of_le hle, climb]
    · next hgt =>
      obtain ⟨hparent, hstands⟩ := h.parentAt?_eq
      rw [hparent, Option.bind_eq_bind, Option.bind_some, ih hstands,
        show level + 1 - goal = level - goal + 1 by omega, climb, Nat.add_sub_cancel]

/-- A climb that meets nothing on its way ends in the words, on the level it was made for. -/
theorem climbUnless?_eq (target goal : Nat) (h : n.StandsOn level id) :
    Checked.climbUnless? n target goal level id =
        some (n.climbUnless target level (level - goal) id) ∧
      ∀ top, n.climbUnless target level (level - goal) id = some top →
        n.StandsOn (min level goal) top := by
  induction level generalizing id with
  | zero =>
    rw [Checked.climbUnless?, Nat.zero_sub, climbUnless, Nat.zero_min]
    exact ⟨rfl, fun top htop => Option.some_inj.mp htop ▸ h⟩
  | succ level ih =>
    rw [Checked.climbUnless?]
    split
    · next hle =>
      rw [Nat.sub_eq_zero_of_le hle, climbUnless, Nat.min_eq_left hle]
      exact ⟨rfl, fun top htop => Option.some_inj.mp htop ▸ h⟩
    · next hgt =>
      obtain ⟨hparent, hstands⟩ := h.parentAt?_eq
      obtain ⟨hclimb, htop⟩ := ih hstands
      rw [hparent, Option.bind_eq_bind, Option.bind_some,
        show level + 1 - goal = level - goal + 1 by omega, climbUnless, Nat.add_sub_cancel,
        show min (level + 1) goal = min level goal by omega]
      split
      · refine ⟨rfl, fun top hnone => ?_⟩
        cases hnone
      · exact ⟨hclimb, htop⟩

theorem compareParted?_eq (ha : n.StandsOn level a) (hb : n.StandsOn level b) :
    Checked.compareParted? n level a b = some (n.compareParted level a b) := by
  induction level generalizing a b with
  | zero => rfl
  | succ level ih =>
    obtain ⟨hparentA, hstandsA⟩ := ha.parentAt?_eq
    obtain ⟨hparentB, hstandsB⟩ := hb.parentAt?_eq
    rw [Checked.compareParted?, compareParted, hparentA, hparentB]
    simp only [Option.bind_eq_bind, Option.bind_some]
    split
    · rfl
    · exact ih hstandsA hstandsB

section

variable (hdepth : n.depth ≤ UInt32.size)

include hdepth

/-- With so few levels, none is cut off. -/
theorem checked_levelOf_eq (id : Nat) : Checked.levelOf n id = n.levelOf id := by
  have hlt := n.levelOf_lt_depth id
  have hcount : Bisection.count (·.first ≤ id) n.levels - 1 = n.levelOf id := by
    rw [Bisection.count_eq (n.ledBy_levels id), n.levelOf_eq_sub_one id]
  rw [Checked.levelOf, hcount]
  omega

theorem checked_parentOf_eq (hid : id ≤ maxIdentifier) :
    Checked.parentAt? n id (Checked.levelOf n id) = some (n.parentOf id) := by
  have hstands := n.standsOn_levelOf hid
  rw [checked_levelOf_eq hdepth, parentOf]
  cases hlevel : n.levelOf id with
  | zero => rfl
  | succ level => exact (hlevel ▸ hstands).parentAt?_eq.1

theorem checked_window?_eq (id : Nat) :
    Checked.window? n id = some ((n.window? id).map fun w => (w, w.last)) := by
  rw [Checked.window?, window?, checked_levelOf_eq hdepth]
  by_cases hnone : id = noNode
  · rw [if_pos (.inl hnone), if_pos hnone]
    rfl
  · rw [if_neg hnone]
    obtain ⟨own, hown⟩ := n.exists_level (n.levelOf_lt_depth id)
    by_cases hlast : n.depth ≤ n.levelOf id + 1
    · rw [if_pos (.inr hlast), hown, Array.getElem?_eq_none hlast]
      rfl
    · obtain ⟨lower, hlower⟩ := n.exists_level (Nat.lt_of_not_le hlast)
      obtain ⟨-, hslots, hnext⟩ := level_next hown hlower
      have hfirst := first_le hnone hown
      have hbefore := lt_first_of_next hlower
      have hfits := end_le_maxIdentifier hlower
      have hcount : lower.count = own.count * lower.slots := by rw [hnext]; rfl
      have hbegin : lower.first = own.first + own.count := by rw [hnext]; rfl
      -- the window ends in the block of its level
      have hspan : (id - own.first) * lower.slots + lower.slots ≤ lower.count := by
        rw [hcount, ← Nat.succ_mul]
        exact Nat.mul_le_mul_right _ (by omega)
      rw [if_neg (not_or.mpr ⟨hnone, hlast⟩), hown, hlower]
      simp only [Option.bind_eq_bind, Option.bind_some, Word.sub?_eq hfirst,
        Word.mul?_eq (a := id - own.first) (b := lower.slots) (by omega),
        Word.add?_eq (a := (id - own.first) * lower.slots) (b := lower.first) (by omega),
        Word.add?_eq (a := (id - own.first) * lower.slots + lower.first) (b := lower.slots)
          (by omega),
        Word.sub?_eq (a := (id - own.first) * lower.slots + lower.first + lower.slots) (b := 1)
          (by omega)]
      rfl

theorem checked_compareDocumentOrder_eq (ha : a ≤ maxIdentifier) (hb : b ≤ maxIdentifier) :
    Checked.compareDocumentOrder? n a b = some (n.compareDocumentOrder a b) := by
  rw [← compareByClimbing_eq, Checked.compareDocumentOrder?, compareByClimbing,
    checked_levelOf_eq hdepth, checked_levelOf_eq hdepth]
  split
  · rfl
  obtain ⟨hclimbA, htopA⟩ :=
    climbUnless?_eq b (n.levelOf b) (n.standsOn_levelOf ha)
  rw [hclimbA, Option.bind_eq_bind, Option.bind_some]
  cases hmeetA : n.climbUnless b (n.levelOf a) (n.levelOf a - n.levelOf b) a with
  | none => rfl
  | some a' =>
    obtain ⟨hclimbB, htopB⟩ :=
      climbUnless?_eq a' (n.levelOf a) (n.standsOn_levelOf hb)
    simp only [hclimbB, Option.bind_some]
    cases hmeetB : n.climbUnless a' (n.levelOf b) (n.levelOf b - n.levelOf a) b with
    | none => rfl
    | some b' =>
      have hstandsB := htopB b' hmeetB
      rw [Nat.min_comm] at hstandsB
      exact compareParted?_eq (htopA a' hmeetA) hstandsB

theorem checked_isAncestor_eq (hb : b ≤ maxIdentifier) :
    Checked.isAncestor? n a b = some (n.isAncestor a b) := by
  rw [← isAncestorByClimbing_eq, Checked.isAncestor?, isAncestorByClimbing,
    checked_levelOf_eq hdepth, checked_levelOf_eq hdepth]
  by_cases hle : n.levelOf b ≤ n.levelOf a
  · rw [if_pos hle, decide_eq_false (Nat.not_lt_of_le hle), Bool.false_and]
  · rw [if_neg hle, climb?_eq (n.standsOn_levelOf hb), decide_eq_true (Nat.lt_of_not_le hle),
      Bool.true_and]
    rfl

end

theorem checked_maxId_eq (n : Numbering) : Checked.maxId? n = some n.maxId := by
  have hdepth := n.depth_eq
  obtain ⟨last, hlast⟩ := n.exists_level (i := n.depth - 1) (by omega)
  have hfits := end_le_maxIdentifier hlast
  have hcount : last.count = width n.fanOut n.fanOut.length := by
    rw [(spans_level hlast).count_eq, hdepth, Nat.add_sub_cancel]
  have hproduct : n.levels.toList.foldlM (fun count l => Word.mul? count l.slots) 1 =
      some last.count := by
    have hbelow := (Level.spans_root n.fanOut).foldlM_slots List.drop_zero n.width_le_maxIdentifier
    rw [Nat.zero_add, ← hcount] at hbelow
    rw [n.tabulated, List.foldlM_cons]
    exact hbelow
  have hpos : 1 ≤ last.first + last.count := Nat.le_trans (first_pos hlast) (Nat.le_add_right _ _)
  rw [Checked.maxId?, Word.sub?_eq (show 1 ≤ n.depth by omega), maxId_eq hlast]
  simp only [Option.bind_eq_bind, Option.bind_some, hlast, hproduct, Word.add?_eq hfits,
    Word.sub?_eq hpos]

/-- Building by checked arithmetic gives the levels of the numbering, or refuses as it does. -/
theorem below?_root_eq (fanOut : List Nat) :
    (Level.root.below? 1 fanOut).map (Level.root :: ·) =
      (ofFanOut fanOut).map (·.levels.toList) := by
  have hbelow := Level.root.below?_eq 1 fanOut
  rw [ofFanOut]
  split
  · next fault hfault =>
    rw [hbelow, hfault]
    rfl
  · next hnone =>
    rw [hnone] at hbelow
    rw [hbelow]
    rfl

/-! ## The main statement -/

/-- Whatever is asked of a numbering, words are enough to answer it. -/
structure FitsWords (n : Numbering) : Prop where
  maxId : Checked.maxId? n = some n.maxId
  levelOf : ∀ id, Checked.levelOf n id = n.levelOf id
  parentOf : ∀ id ≤ maxIdentifier,
    Checked.parentAt? n id (Checked.levelOf n id) = some (n.parentOf id)
  window? : ∀ id ≤ maxIdentifier,
    Checked.window? n id = some ((n.window? id).map fun w => (w, w.last))
  compareDocumentOrder : ∀ a ≤ maxIdentifier, ∀ b ≤ maxIdentifier,
    Checked.compareDocumentOrder? n a b = some (n.compareDocumentOrder a b)
  isAncestor : ∀ a ≤ maxIdentifier, ∀ b ≤ maxIdentifier,
    Checked.isAncestor? n a b = some (n.isAncestor a b)

/-- What words make of fan-outs. -/
structure ReckonsInWords (fanOut : List Nat) : Prop where
  /-- No fan-out is zero, and the exact sum of all widths fits if there is anything to be added. -/
  accepted_iff : (∃ n, ofFanOut fanOut = .ok n) ↔
    (∀ slots ∈ fanOut, 1 ≤ slots) ∧
      (1 ≤ fanOut.length → extent fanOut fanOut.length ≤ maxIdentifier)
  refused_iff : ∀ fault, ofFanOut fanOut = .error fault ↔
    ∃ level, IsFirstFaulty fanOut level ∧ faultAt fanOut level = fault
  built : (Level.root.below? 1 fanOut).map (Level.root :: ·) =
    (ofFanOut fanOut).map (·.levels.toList)
  fits : ∀ n, ofFanOut fanOut = .ok n → n.FitsWords

theorem fitsWords (hdepth : n.depth ≤ UInt32.size) : n.FitsWords where
  maxId := n.checked_maxId_eq
  levelOf := checked_levelOf_eq hdepth
  parentOf _ hid := checked_parentOf_eq hdepth hid
  window? id _ := checked_window?_eq hdepth id
  compareDocumentOrder _ ha _ hb := checked_compareDocumentOrder_eq hdepth ha hb
  isAncestor _ _ _ hb := checked_isAncestor_eq hdepth hb

/-- Fan-outs are judged by exact sums, and what they number is reckoned with in words. -/
theorem reckonsInWords (hlevels : fanOut.length < UInt32.size) : ReckonsInWords fanOut where
  accepted_iff :=
    exists_ofFanOut_iff.trans (fault?_root_eq_none_iff.trans forall_not_isFaulty_iff)
  refused_iff _ := ofFanOut_eq_error_iff.trans fault?_root_eq_some_iff
  built := below?_root_eq fanOut
  fits n hn := by
    refine fitsWords ?_
    rw [depth_eq, fanOut_ofFanOut hn]
    exact hlevels

/-- Fan-outs whose last sum is the largest word, so that one more slot is too many. -/
theorem reckonsInWords_brim :
    ReckonsInWords [1, UInt64.size - 4] ∧ extent [1, UInt64.size - 4] 2 = maxIdentifier :=
  ⟨reckonsInWords (by decide), rfl⟩

end Numbering

end TreeAxes
