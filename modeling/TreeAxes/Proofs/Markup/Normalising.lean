import TreeAxes.Proofs.Markup.Attributes
import TreeAxes.Proofs.Markup.Building

/-!
# Text in trees that were read

Blank character data leaves no text. Character data that is not blank makes one text as long as
nothing but more of it comes, but an instruction, a document type or a declaration inside an element
ends the text and leaves nothing between it and the next one. `parse_spec` says that texts stand
side by side in a tree exactly if this happens, whatever reads the markup.
-/

namespace TreeAxes

namespace Tree

/-- The node is not a blank text. -/
def NotBlank (tree : Tree) : Prop :=
  ∀ value, tree.content = .text value → ¬value.toList.all Text.isBlank

/-- No two texts stand side by side below the node. -/
def ChildrenApart (tree : Tree) : Prop := TextsApart tree.children

/-- A text comes last. -/
def EndsInText (trees : List Tree) : Prop := ∃ tree ∈ trees.getLast?, tree.isText

variable {trees : List Tree} {tree : Tree}

theorem textsApart_concat :
    TextsApart (trees ++ [tree]) ↔ TextsApart trees ∧ ¬(EndsInText trees ∧ tree.isText) := by
  rw [TextsApart, List.isChain_append]
  constructor
  · rintro ⟨htrees, -, hboth⟩
    exact ⟨htrees, fun ⟨⟨last, hlast, htext⟩, h⟩ => hboth last hlast tree rfl ⟨htext, h⟩⟩
  · rintro ⟨htrees, hboth⟩
    refine ⟨htrees, List.isChain_singleton _, fun last hlast other hother h => ?_⟩
    obtain rfl : tree = other := Option.some_inj.mp hother
    exact hboth ⟨⟨last, hlast, h.1⟩, h.2⟩

theorem endsInText_concat : EndsInText (trees ++ [tree]) ↔ tree.isText := by
  rw [EndsInText, List.getLast?_concat]
  exact ⟨fun ⟨_, h, htext⟩ => Option.some_inj.mp h ▸ htext, fun h => ⟨tree, rfl, h⟩⟩

end Tree

namespace Markup

open TreeAxes.Tree

/-! ## Events -/

namespace Event

/-- The event brings character data that is not blank. -/
def BringsText (r : Reader) (event : Event) : Prop := ∃ data ∈ event.data? r, ¬data.all Text.isBlank

/-- The event brings blank character data. -/
def BringsBlank (r : Reader) (event : Event) : Prop := ∃ data ∈ event.data? r, data.all Text.isBlank

end Event

/-- After some events an element is open. -/
def Opens (r : Reader) (events : List Event) : Prop :=
  ∃ b, Builder.empty.takeAll r events = .ok b ∧ b.openElements ≠ []

/-- In an element, character data that is not blank stands on both sides of a declaration. Between
them is nothing but blank data and declarations. -/
def SplitsText (r : Reader) (events : List Event) : Prop :=
  ∃ before first blanks between second after,
    events = before ++ first :: (blanks ++ .declaration :: (between ++ second :: after)) ∧
      Opens r before ∧ first.BringsText r ∧ (∀ event ∈ blanks, event.BringsBlank r) ∧
        (∀ event ∈ between, event = .declaration ∨ event.BringsBlank r) ∧ second.BringsText r

/-- Some events end with one of a kind and any number of another kind behind it. -/
def EndsWith (before : List Event → Prop) (first rest : Event → Prop) (events : List Event) :
    Prop :=
  ∃ start event more, events = start ++ event :: more ∧ before start ∧ first event ∧
    ∀ other ∈ more, rest other

theorem endsWith_concat {before : List Event → Prop} {first rest : Event → Prop}
    {events : List Event} {event : Event} :
    EndsWith before first rest (events ++ [event]) ↔
      before events ∧ first event ∨ EndsWith before first rest events ∧ rest event := by
  constructor
  · rintro ⟨start, opening, more, heq, hbefore, hfirst, hrest⟩
    obtain rfl | ⟨more, last, rfl⟩ := List.eq_nil_or_concat more
    · obtain ⟨rfl, rfl⟩ := List.append_singleton_inj.mp heq
      exact .inl ⟨hbefore, hfirst⟩
    · rw [List.concat_eq_append] at heq hrest
      rw [← List.cons_append, ← List.append_assoc] at heq
      obtain ⟨rfl, rfl⟩ := List.append_singleton_inj.mp heq
      refine .inr ⟨⟨start, opening, more, rfl, hbefore, hfirst, fun other hother => ?_⟩, ?_⟩
      · exact hrest other (List.mem_append_left _ hother)
      · exact hrest event (List.mem_append_right _ (List.mem_singleton.mpr rfl))
  · rintro (⟨hbefore, hfirst⟩ | ⟨⟨start, opening, more, rfl, hbefore, hfirst, hrest⟩, hevent⟩)
    · exact ⟨events, event, [], rfl, hbefore, hfirst, nofun⟩
    · refine ⟨start, opening, more ++ [event], by simp, hbefore, hfirst, fun other hother => ?_⟩
      obtain hother | hother := List.mem_append.mp hother
      · exact hrest other hother
      · exact List.mem_singleton.mp hother ▸ hevent

/-- Character data that is not blank has come in an element, and then at most blank data. -/
def EndsInData (r : Reader) : List Event → Prop :=
  EndsWith (Opens r) (Event.BringsText r) (Event.BringsBlank r)

/-- A text has been ended by a declaration, and then nothing came that a tree keeps. -/
def EndsInGap (r : Reader) : List Event → Prop :=
  EndsWith (EndsInData r) (· = .declaration) fun event => event = .declaration ∨ event.BringsBlank r

theorem splitsText_iff {r : Reader} {events : List Event} :
    SplitsText r events ↔ EndsWith (EndsInGap r) (Event.BringsText r) (fun _ => True) events := by
  constructor
  · rintro ⟨before, first, blanks, between, second, after, rfl, hopens, hfirst, hblanks, hbetween,
      hsecond⟩
    refine ⟨before ++ first :: blanks ++ .declaration :: between, second, after, by simp, ?_,
      hsecond, fun _ _ => trivial⟩
    exact ⟨_, _, _, rfl, ⟨before, first, blanks, rfl, hopens, hfirst, hblanks⟩, rfl, hbetween⟩
  · rintro ⟨start, second, after, rfl, ⟨_, _, between, rfl, ⟨before, first, blanks, rfl, hopens,
      hfirst, hblanks⟩, rfl, hbetween⟩, hsecond, -⟩
    exact ⟨before, first, blanks, between, second, after, by simp, hopens, hfirst, hblanks,
      hbetween, hsecond⟩

namespace Builder

variable {r : Reader} {b c : Builder} {event : Event}

/-! ## Steps -/

/-- What an event does to a builder. -/
inductive Takes (r : Reader) (b : Builder) : Event → Builder → Prop
  | data {event : Event} {data : List Char} (h : event.data? r = some data) :
    Takes r b event (b.appendText data)
  | declaration : Takes r b .declaration b.flush
  | comment (data : List Char) :
    Takes r b (.comment data) (b.flush.addChild (.leaf (.comment (.ofList (Text.trim data)))))
  | start {name raw : List Char} {e : OpenElement} (hempty : e.children = []) :
    Takes r b (.start name raw) { b.flush with openElements := e :: b.flush.openElements }
  | empty {name raw : List Char} {e : OpenElement} {c : Builder} (hempty : e.children = [])
      (h : b.flush.attach e.toTree = .ok c) : Takes r b (.empty name raw) c
  | stop {name : List Char} {e : OpenElement} {es : List OpenElement} {c : Builder}
      (hopen : b.flush.openElements = e :: es)
      (h : attach { b.flush with openElements := es } e.toTree = .ok c) : Takes r b (.stop name) c

theorem children_openElement {name raw : List Char} {e : OpenElement}
    (h : openElement r name raw = .ok e) : e.children = [] := by
  obtain ⟨-, _, -, rfl⟩ := openElement_eq_ok_iff.mp h
  rfl

theorem takes_of_take (h : b.take r event = .ok c) : b.Takes r event c := by
  cases event with
  | text | cdata | reference =>
    obtain ⟨data, hdata, rfl⟩ := exists_data_of_take rfl h
    exact .data hdata
  | declaration =>
    cases h
    exact .declaration
  | comment data =>
    cases h
    exact .comment data
  | start name raw =>
    obtain ⟨e, hopen, hstart⟩ := bind_eq_ok_iff.mp h
    cases hstart
    exact .start (children_openElement hopen)
  | empty name raw =>
    obtain ⟨e, hopen, hattach⟩ := bind_eq_ok_iff.mp h
    exact .empty (children_openElement hopen) hattach
  | stop name =>
    rw [take, close] at h
    split at h
    · cases h
    · next hopen => exact .stop hopen h

/-- An element goes below the innermost open one, or becomes the root. -/
theorem attach_cases {es : List OpenElement} {root : Option Tree} {pending : List Char}
    {tree : Tree} (h : attach ⟨es, root, pending⟩ tree = .ok c) :
    (∃ e rest, es = e :: rest ∧ c = ⟨e.withChildren [tree] :: rest, root, pending⟩) ∨
      es = [] ∧ root = none ∧ c = ⟨[], some tree, pending⟩ := by
  cases es with
  | cons e rest =>
    cases h
    exact .inl ⟨e, rest, rfl, rfl⟩
  | nil =>
    cases root with
    | some other => cases h
    | none =>
      cases h
      exact .inr ⟨rfl, rfl, rfl⟩

/-- Events that bring no character data leave none pending. -/
theorem Takes.pending_eq (h : b.Takes r event c) (hnone : event.data? r = none) :
    c.pending = [] := by
  obtain ⟨es, hflush⟩ := b.exists_flush_eq
  have hattach {es : List OpenElement} {root : Option Tree} {tree : Tree} {c : Builder}
      (h : attach ⟨es, root, []⟩ tree = .ok c) : c.pending = [] := by
    obtain ⟨e, rest, -, rfl⟩ | ⟨-, -, rfl⟩ := attach_cases h <;> rfl
  cases h with
  | data hdata =>
    rw [hnone] at hdata
    cases hdata
  | declaration => rw [hflush]
  | comment data =>
    rw [hflush]
    cases es <;> rfl
  | start => rw [hflush]
  | empty _ h => exact hattach (hflush ▸ h)
  | stop hopen h =>
    rw [hflush] at h
    exact hattach h

/-! ## Text that is pending -/

/-- Character data that is not blank is pending in an element. -/
def Holds (b : Builder) : Prop := b.openElements ≠ [] ∧ ¬b.pending.all Text.isBlank

/-- The innermost open element ends in a text, and nothing but blank data is pending. -/
def Awaits (b : Builder) : Prop :=
  ∃ e es, b.openElements = e :: es ∧ b.pending.all Text.isBlank ∧ EndsInText e.children

theorem bringsText_iff {data : List Char} (h : event.data? r = some data) :
    event.BringsText r ↔ ¬data.all Text.isBlank :=
  ⟨fun ⟨_, hmem, hblank⟩ => Option.some_inj.mp (h.symm.trans hmem) ▸ hblank,
    fun hblank => ⟨data, h, hblank⟩⟩

theorem bringsBlank_iff {data : List Char} (h : event.data? r = some data) :
    event.BringsBlank r ↔ data.all Text.isBlank :=
  ⟨fun ⟨_, hmem, hblank⟩ => Option.some_inj.mp (h.symm.trans hmem) ▸ hblank,
    fun hblank => ⟨data, h, hblank⟩⟩

theorem not_brings (h : event.data? r = none) : ¬event.BringsText r ∧ ¬event.BringsBlank r := by
  constructor <;>
  · rintro ⟨data, hdata, -⟩
    rw [h] at hdata
    cases hdata

theorem Takes.holds_iff (h : b.Takes r event c) :
    c.Holds ↔ b.openElements ≠ [] ∧ event.BringsText r ∨ b.Holds ∧ event.BringsBlank r := by
  cases hdata : event.data? r with
  | none =>
    obtain ⟨htext, hblank⟩ := not_brings hdata
    rw [Holds, h.pending_eq hdata]
    simp [htext, hblank]
  | some data =>
    cases h with
    | data hdata' =>
      obtain rfl := Option.some_inj.mp (hdata.symm.trans hdata')
      rw [bringsText_iff hdata, bringsBlank_iff hdata]
      simp only [Holds, appendText, List.all_append, Bool.and_eq_true]
      tauto
    | _ => cases hdata

theorem endsInText_textOf {trees : List Tree} {pending : List Char} :
    EndsInText (trees ++ textOf pending) ↔ ¬pending.all Text.isBlank ∨ EndsInText trees := by
  by_cases hblank : pending.all Text.isBlank
  · rw [textOf_of_blank hblank, List.append_nil]
    exact ⟨.inr, fun h => h.resolve_left (not_not_intro hblank)⟩
  · rw [textOf_of_not_blank hblank, endsInText_concat]
    exact ⟨fun _ => .inl hblank, fun _ => rfl⟩

/-- An element that is attached is not a text. -/
theorem not_awaits_attach {es : List OpenElement} {root : Option Tree} {tree : Tree}
    (htree : tree.isText = false) (h : attach ⟨es, root, []⟩ tree = .ok c) : ¬c.Awaits := by
  rintro ⟨e, rest, hopen, -, hends⟩
  obtain ⟨e', rest', -, rfl⟩ | ⟨-, -, rfl⟩ := attach_cases h
  · obtain ⟨rfl, -⟩ := List.cons_eq_cons.mp hopen
    rw [OpenElement.withChildren, endsInText_concat, htree] at hends
    cases hends
  · cases hopen

theorem Takes.awaits_iff (h : b.Takes r event c) :
    c.Awaits ↔ b.Holds ∧ event = .declaration ∨
      b.Awaits ∧ (event = .declaration ∨ event.BringsBlank r) := by
  -- Events that a tree keeps put something else last.
  have hkept (hdata : event.data? r = none) (hne : event ≠ .declaration) (hnot : ¬c.Awaits) :
      c.Awaits ↔ b.Holds ∧ event = .declaration ∨
        b.Awaits ∧ (event = .declaration ∨ event.BringsBlank r) := by
    simp [hnot, hne, (not_brings hdata).2]
  obtain ⟨es, hflush⟩ := b.exists_flush_eq
  cases h with
  | @data event data hdata =>
    have hne : event ≠ .declaration := by
      rintro rfl
      cases hdata
    rw [bringsBlank_iff hdata]
    simp only [Awaits, appendText, List.all_append, Bool.and_eq_true, hne, and_false, false_or]
    constructor
    · rintro ⟨e, rest, hopen, ⟨hpending, hblank⟩, hends⟩
      exact ⟨⟨e, rest, hopen, hpending, hends⟩, hblank⟩
    · rintro ⟨⟨e, rest, hopen, hpending, hends⟩, hblank⟩
      exact ⟨e, rest, hopen, ⟨hpending, hblank⟩, hends⟩
  | declaration =>
    obtain ⟨es, root, pending⟩ := b
    simp only [Holds, Awaits, true_or, and_true]
    cases es with
    | nil => simp [flush_outside]
    | cons e es =>
      simp only [flush_open, List.cons.injEq, OpenElement.withChildren]
      have hends := @endsInText_textOf e.children pending
      constructor
      · rintro ⟨_, _, ⟨rfl, rfl⟩, -, h⟩
        by_cases hpending : pending.all Text.isBlank
        · have htext := (hends.mp h).resolve_left (not_not_intro hpending)
          exact .inr ⟨_, _, ⟨rfl, rfl⟩, hpending, htext⟩
        · exact .inl ⟨List.cons_ne_nil e es, hpending⟩
      · rintro (⟨-, hpending⟩ | ⟨_, _, ⟨rfl, rfl⟩, -, h⟩)
        · exact ⟨_, _, ⟨rfl, rfl⟩, rfl, hends.mpr (.inl hpending)⟩
        · exact ⟨_, _, ⟨rfl, rfl⟩, rfl, hends.mpr (.inr h)⟩
  | comment data =>
    refine hkept rfl Event.noConfusion ?_
    rw [hflush]
    rintro ⟨e, rest, hopen, -, hends⟩
    cases es with
    | nil => cases hopen
    | cons e' es =>
      obtain ⟨rfl, -⟩ := List.cons_eq_cons.mp hopen
      rw [OpenElement.withChild, endsInText_concat] at hends
      cases hends
  | start hempty =>
    refine hkept rfl Event.noConfusion ?_
    rintro ⟨e, rest, hopen, -, ⟨last, hlast, -⟩⟩
    obtain ⟨rfl, -⟩ := List.cons_eq_cons.mp hopen
    rw [hempty] at hlast
    cases hlast
  | empty _ h => exact hkept rfl Event.noConfusion (not_awaits_attach rfl (hflush ▸ h))
  | stop hopen h =>
    rw [hflush] at h
    exact hkept rfl Event.noConfusion (not_awaits_attach rfl h)

/-! ## Texts side by side -/

end Builder

/-- No two texts stand side by side in or below an element that is open. -/
def OpenElement.Apart (e : OpenElement) : Prop :=
  TextsApart e.children ∧ ∀ child ∈ e.children, child.Everywhere ChildrenApart

namespace OpenElement

variable {e : OpenElement} {tree : Tree} {pending : List Char}

theorem everywhere_toTree : e.toTree.Everywhere ChildrenApart ↔ e.Apart :=
  ⟨fun h => ⟨h.here, h.of_mem⟩, fun h => .node h.1 h.2⟩

theorem apart_of_empty (h : e.children = []) : e.Apart := by
  rw [Apart, h]
  exact ⟨.nil, nofun⟩

theorem apart_withChildren (htree : tree.isText = false) :
    (e.withChildren [tree]).Apart ↔ e.Apart ∧ tree.Everywhere ChildrenApart := by
  simp only [Apart, withChildren, textsApart_concat, htree, List.forall_mem_append,
    List.forall_mem_singleton]
  simp [and_assoc]

/-- What is pending stands apart from the children unless both are texts. -/
theorem apart_withText : (e.withChildren (textOf pending)).Apart ↔
    e.Apart ∧ (pending.all Text.isBlank ∨ ¬EndsInText e.children) := by
  by_cases hblank : pending.all Text.isBlank
  · rw [textOf_of_blank hblank, withChildren, List.append_nil]
    simp [hblank]
  · have hleaf : (leaf (.text (.ofList pending))).Everywhere ChildrenApart := .leaf .nil
    rw [textOf_of_not_blank hblank]
    simp only [Apart, withChildren, textsApart_concat, List.forall_mem_append,
      List.forall_mem_singleton, hleaf, and_true, hblank, Bool.false_eq_true, false_or]
    have htext : (leaf (.text (.ofList pending))).isText := rfl
    simp only [htext, and_true]
    exact and_right_comm

end OpenElement

namespace Builder

variable {r : Reader} {b c : Builder} {event : Event}

/-- No two texts stand side by side in what was built, and none will when what is pending becomes
a text. -/
def Clean (b : Builder) : Prop :=
  (∀ e ∈ b.flush.openElements, e.Apart) ∧ ∀ tree ∈ b.root, tree.Everywhere ChildrenApart

theorem clean_open {e : OpenElement} {es : List OpenElement} {root : Option Tree}
    {pending : List Char} :
    Clean ⟨e :: es, root, pending⟩ ↔
      (e.Apart ∧ (pending.all Text.isBlank ∨ ¬EndsInText e.children)) ∧
        (∀ e ∈ es, e.Apart) ∧ ∀ tree ∈ root, tree.Everywhere ChildrenApart := by
  rw [Clean, flush_open, List.forall_mem_cons, OpenElement.apart_withText, and_assoc]

theorem clean_outside {root : Option Tree} {pending : List Char} :
    Clean ⟨[], root, pending⟩ ↔ ∀ tree ∈ root, tree.Everywhere ChildrenApart := by
  rw [Clean, flush_outside]
  exact and_iff_right nofun

theorem clean_settled {es : List OpenElement} {root : Option Tree} :
    Clean ⟨es, root, []⟩ ↔
      (∀ e ∈ es, e.Apart) ∧ ∀ tree ∈ root, tree.Everywhere ChildrenApart := by
  cases es with
  | nil => rw [clean_outside, and_iff_right nofun]
  | cons e es =>
    rw [clean_open, List.forall_mem_cons]
    simp [and_assoc]

/-- What is attached is clean if it is and what it is attached to. -/
theorem clean_attach {es : List OpenElement} {root : Option Tree} {tree : Tree}
    (htree : tree.isText = false) (h : attach ⟨es, root, []⟩ tree = .ok c) :
    c.Clean ↔ Clean ⟨es, root, []⟩ ∧ tree.Everywhere ChildrenApart := by
  obtain ⟨e, rest, rfl, rfl⟩ | ⟨rfl, rfl, rfl⟩ := attach_cases h
  · rw [clean_settled, clean_settled, List.forall_mem_cons, List.forall_mem_cons,
      OpenElement.apart_withChildren htree]
    tauto
  · simp [clean_outside]

theorem clean_flush : b.flush.Clean ↔ b.Clean := by
  obtain ⟨es, hflush⟩ := b.exists_flush_eq
  rw [hflush, clean_settled, Clean, hflush]

/-- Texts come to stand side by side when character data comes behind a text that was ended. -/
theorem Takes.clean_iff (h : b.Takes r event c) :
    c.Clean ↔ b.Clean ∧ ¬(b.Awaits ∧ event.BringsText r) := by
  have hkept (hdata : event.data? r = none) (hiff : c.Clean ↔ b.Clean) :
      c.Clean ↔ b.Clean ∧ ¬(b.Awaits ∧ event.BringsText r) := by
    simp [hiff, (not_brings hdata).1]
  obtain ⟨es, hflush⟩ := b.exists_flush_eq
  have hclean : Clean ⟨es, b.root, []⟩ ↔ b.Clean := hflush ▸ clean_flush
  cases h with
  | @data event data hdata =>
    rw [bringsText_iff hdata]
    obtain ⟨es, root, pending⟩ := b
    cases es with
    | nil =>
      rw [appendText, clean_outside, clean_outside]
      simp [Awaits]
    | cons e es =>
      have hawaits : Awaits ⟨e :: es, root, pending⟩ ↔
          pending.all Text.isBlank ∧ EndsInText e.children :=
        ⟨fun ⟨_, _, hopen, h⟩ => (List.cons_eq_cons.mp hopen).1 ▸ h, fun h => ⟨e, es, rfl, h⟩⟩
      rw [appendText, clean_open, clean_open, hawaits]
      -- Behind a text only what is not blank matters, and only the first of it.
      by_cases hends : EndsInText e.children
      · by_cases hpending : pending.all Text.isBlank
        · simp [hends, hpending, and_right_comm]
        · simp [hends, hpending]
      · simp [hends]
  | declaration => exact hkept rfl clean_flush
  | comment data =>
    refine hkept rfl (Iff.trans ?_ hclean)
    rw [hflush]
    cases es with
    | nil => rfl
    | cons e es =>
      have hleaf : (leaf (.comment (.ofList (Text.trim data)))).Everywhere ChildrenApart :=
        .leaf .nil
      show Clean ⟨e.withChildren [_] :: es, b.root, []⟩ ↔ _
      rw [clean_settled, clean_settled, List.forall_mem_cons, List.forall_mem_cons,
        OpenElement.apart_withChildren rfl, and_iff_left hleaf]
  | start hempty =>
    refine hkept rfl (Iff.trans ?_ hclean)
    rw [hflush, clean_settled, clean_settled, List.forall_mem_cons,
      and_iff_right (OpenElement.apart_of_empty hempty)]
  | empty hempty h =>
    rw [hflush] at h
    refine hkept rfl ?_
    rw [clean_attach rfl h, hclean, OpenElement.everywhere_toTree]
    exact and_iff_left (OpenElement.apart_of_empty hempty)
  | stop hopen h =>
    rw [hflush] at h hopen
    obtain rfl : es = _ := hopen
    refine hkept rfl ?_
    rw [clean_attach rfl h, ← hclean, OpenElement.everywhere_toTree, clean_settled, clean_settled,
      List.forall_mem_cons]
    tauto

/-! ## Runs -/

theorem exists_of_takeAll_concat {events : List Event}
    (h : b.takeAll r (events ++ [event]) = .ok c) :
    ∃ between, b.takeAll r events = .ok between ∧ between.Takes r event c := by
  rw [takeAll_append] at h
  obtain ⟨between, hevents, hlast⟩ := bind_eq_ok_iff.mp h
  rw [takeAll_cons] at hlast
  obtain ⟨last, htake, hdone⟩ := bind_eq_ok_iff.mp hlast
  cases hdone
  exact ⟨between, hevents, takes_of_take htake⟩

theorem opens_iff {events : List Event} (h : empty.takeAll r events = .ok b) :
    Opens r events ↔ b.openElements ≠ [] :=
  ⟨fun ⟨_, hother, hopen⟩ => Except.ok.inj (h.symm.trans hother) ▸ hopen,
    fun hopen => ⟨b, h, hopen⟩⟩

/-- What a builder holds and awaits is what the events so far end in. The induction takes off the
last event, because only the end of the events matters. -/
theorem endsIn_of_takeAll {events : List Event} (h : empty.takeAll r events = .ok b) :
    (b.Holds ↔ EndsInData r events) ∧ (b.Awaits ↔ EndsInGap r events) := by
  induction events using List.reverseRecOn generalizing b with
  | nil =>
    cases h
    have hnever {before : List Event → Prop} {first rest : Event → Prop} :
        ¬EndsWith before first rest [] := by
      rintro ⟨start, event, more, heq, -⟩
      cases start <;> cases heq
    refine ⟨iff_of_false (fun hholds => hholds.1 rfl) hnever, iff_of_false ?_ hnever⟩
    rintro ⟨e, es, hopen, -⟩
    cases hopen
  | append_singleton events event ih =>
    obtain ⟨between, hevents, htakes⟩ := exists_of_takeAll_concat h
    obtain ⟨hholds, hawaits⟩ := ih hevents
    constructor
    · rw [htakes.holds_iff, EndsInData, endsWith_concat, ← EndsInData, opens_iff hevents, hholds]
    · rw [htakes.awaits_iff, EndsInGap, endsWith_concat, ← EndsInGap, hholds, hawaits]

/-- What was built is clean unless the events split a text. -/
theorem clean_of_takeAll {events : List Event} (h : empty.takeAll r events = .ok b) :
    b.Clean ↔ ¬SplitsText r events := by
  induction events using List.reverseRecOn generalizing b with
  | nil =>
    cases h
    refine iff_of_true (clean_outside.mpr nofun) ?_
    rintro ⟨before, first, blanks, between, second, after, heq, -⟩
    cases before <;> cases heq
  | append_singleton events event ih =>
    obtain ⟨between, hevents, htakes⟩ := exists_of_takeAll_concat h
    rw [htakes.clean_iff, ih hevents, (endsIn_of_takeAll hevents).2, splitsText_iff, splitsText_iff,
      endsWith_concat, and_true]
    tauto

/-! ## Blank texts -/

/-- No text in what was built is blank. -/
def Dense (b : Builder) : Prop :=
  (∀ e ∈ b.openElements, ∀ child ∈ e.children, child.Everywhere NotBlank) ∧
    ∀ tree ∈ b.root, tree.Everywhere NotBlank

theorem everywhere_notBlank_toTree {e : OpenElement}
    (h : ∀ child ∈ e.children, child.Everywhere NotBlank) : e.toTree.Everywhere NotBlank :=
  .node nofun h

theorem Dense.withChildren {e : OpenElement} {es : List OpenElement} {root : Option Tree}
    {pending pending' : List Char} (h : Dense ⟨e :: es, root, pending⟩) {trees : List Tree}
    (htrees : ∀ tree ∈ trees, tree.Everywhere NotBlank) :
    Dense ⟨e.withChildren trees :: es, root, pending'⟩ := by
  obtain ⟨hopen, hroot⟩ := h
  obtain ⟨hinner, houter⟩ := List.forall_mem_cons.mp hopen
  refine ⟨List.forall_mem_cons.mpr ⟨fun child hchild => ?_, houter⟩, hroot⟩
  obtain hchild | hchild := List.mem_append.mp hchild
  · exact hinner child hchild
  · exact htrees child hchild

theorem Dense.flush (h : b.Dense) : b.flush.Dense := by
  obtain ⟨es, root, pending⟩ := b
  cases es with
  | nil =>
    rw [flush_outside]
    exact h
  | cons e es =>
    rw [flush_open]
    refine h.withChildren fun tree htree => ?_
    by_cases hblank : pending.all Text.isBlank
    · rw [textOf_of_blank hblank] at htree
      cases htree
    · rw [textOf_of_not_blank hblank, List.mem_singleton] at htree
      subst htree
      refine .leaf fun value hvalue => ?_
      cases hvalue
      rwa [String.toList_ofList]

theorem Dense.attach {es : List OpenElement} {root : Option Tree} {tree : Tree}
    (h : Dense ⟨es, root, []⟩) (htree : tree.Everywhere NotBlank)
    (hattach : Builder.attach ⟨es, root, []⟩ tree = .ok c) : c.Dense := by
  obtain ⟨e, rest, rfl, rfl⟩ | ⟨rfl, rfl, rfl⟩ := attach_cases hattach
  · refine h.withChildren fun other hother => ?_
    rwa [List.mem_singleton.mp hother]
  · refine ⟨nofun, fun other hother => ?_⟩
    rwa [← Option.some_inj.mp hother]

theorem Takes.dense (h : b.Takes r event c) (hdense : b.Dense) : c.Dense := by
  obtain ⟨es, hflush⟩ := b.exists_flush_eq
  have hdone := hdense.flush
  rw [hflush] at hdone
  cases h with
  | data => exact hdense
  | declaration => exact hflush ▸ hdone
  | comment data =>
    rw [hflush]
    cases es with
    | nil => exact hdone
    | cons e es =>
      refine hdone.withChildren fun tree htree => ?_
      rw [List.mem_singleton.mp htree]
      exact .leaf nofun
  | start hempty =>
    rw [hflush]
    refine ⟨List.forall_mem_cons.mpr ⟨?_, hdone.1⟩, hdone.2⟩
    rw [hempty]
    exact nofun
  | empty hempty h =>
    rw [hflush] at h
    refine hdone.attach (everywhere_notBlank_toTree ?_) h
    rw [hempty]
    exact nofun
  | stop hopen h =>
    rw [hflush] at h hopen
    obtain rfl : es = _ := hopen
    obtain ⟨hinner, houter⟩ := List.forall_mem_cons.mp hdone.1
    exact Dense.attach ⟨houter, hdone.2⟩ (everywhere_notBlank_toTree hinner) h

theorem dense_of_takeAll {events : List Event} (h : empty.takeAll r events = .ok b) : b.Dense := by
  induction events using List.reverseRecOn generalizing b with
  | nil =>
    cases h
    exact ⟨nofun, nofun⟩
  | append_singleton events event ih =>
    obtain ⟨between, hevents, htakes⟩ := exists_of_takeAll_concat h
    exact htakes.dense (ih hevents)

end Builder

/-! ## Trees of texts -/

/-- No text in a tree that was read is blank. Texts stand side by side somewhere in it exactly if a
declaration in an element splits a text. -/
theorem parse_spec {r : Reader} {text : String} {tree : Tree} (h : r.parse text = .ok tree) :
    tree.Everywhere NotBlank ∧
      (tree.Everywhere ChildrenApart ↔ ¬SplitsText r (r.events text).1) := by
  obtain ⟨-, pending, htake⟩ := Builder.readOn_eq_ok_iff.mp h
  refine ⟨(Builder.dense_of_takeAll htake).2 tree rfl, ?_⟩
  rw [← Builder.clean_of_takeAll htake, Builder.clean_outside]
  exact ⟨fun hclean _ htree => Option.some_inj.mp htree ▸ hclean, fun hclean => hclean tree rfl⟩

/-- A text in which an instruction stands between two letters. -/
def interrupted : String := "<a>x<?p?>y</a>"

/-- An element with two texts. -/
def doubled : Tree := .node (.element "a") [] [.leaf (.text "x"), .leaf (.text "y")]

theorem parse_interrupted : scanner.parse interrupted = .ok doubled := by
  have hevents : scanner.events interrupted =
      ([.start ['a'] [], .text ['x'], .declaration, .text ['y'], .stop ['a']], none) := by
    decide +kernel
  rw [Reader.parse, hevents, Builder.readOn_cons, Builder.take, openElement_scanner]
  rfl

/-- The two letters are two texts because the instruction splits them. -/
theorem parse_spec_interrupted :
    scanner.parse interrupted = .ok doubled ∧ doubled.Everywhere NotBlank ∧
      (doubled.Everywhere ChildrenApart ↔
        ¬SplitsText scanner (scanner.events interrupted).1) :=
  ⟨parse_interrupted, parse_spec parse_interrupted⟩

/-- The texts of a tree that was read can stand side by side. -/
theorem doubled_not_apart :
    parse interrupted = .ok doubled ∧ ¬doubled.Everywhere ChildrenApart := by
  refine ⟨parse_interrupted, fun h => ?_⟩
  have hapart : TextsApart doubled.children := h.here
  revert hapart
  decide

end Markup

end TreeAxes
