import TreeAxes.Proofs.Markup.Attributes
import TreeAxes.Proofs.Markup.Building

/-!
# Trees from events

A tree can be written as many sequences of events: a text comes in pieces of any size and kind, an
element without children as one tag or as two. `Writes` says which sequences these are, along the
structure of the tree. The builder, which knows no recursion, makes the same tree of each of them,
whatever reads the markup: it has to undo the ways in which values and attributes are written.
-/

namespace TreeAxes.Markup

/-- A node that keeps its form when it is written and read: an element whose attributes declare no
namespaces, or a leaf that is a trimmed comment or a text that is not blank. Texts are never
adjacent. -/
inductive Tidy : Tree → Prop
  | element {name : String} {attributes : List Attribute} {children : List Tree}
      (hattributes : ∀ a ∈ attributes, Builder.isNamespaceDeclaration a.name.toList = false)
      (hapart : Tree.TextsApart children) :
    Tidy (.node (.element name) attributes children)
  | comment {value : String} (h : Text.trim value.toList = value.toList) :
    Tidy (.leaf (.comment value))
  | text {value : String} (h : ¬value.toList.all Text.isBlank) : Tidy (.leaf (.text value))

theorem Tidy.not_blank {value : String} (h : Tidy (.leaf (.text value))) :
    ¬value.toList.all Text.isBlank := by
  cases h with
  | text h => exact h

theorem Tidy.of_element {name : String} {attributes : List Attribute} {children : List Tree}
    (h : Tidy (.node (.element name) attributes children)) :
    (∀ a ∈ attributes, Builder.isNamespaceDeclaration a.name.toList = false) ∧
      Tree.TextsApart children := by
  cases h with
  | element hattributes hapart => exact ⟨hattributes, hapart⟩

/-! ## Ways to write trees -/

section

variable (r : Reader)

/-- A way to write character data: pieces without ampersands, quoted pieces and references. -/
inductive Spells : List Char → List Event → Prop
  | nil : Spells [] []
  | text {data value : List Char} {pieces : List Event} (hdata : '&' ∉ data)
      (h : Spells value pieces) : Spells (data ++ value) (.text data :: pieces)
  | cdata {data value : List Char} {pieces : List Event} (h : Spells value pieces) :
    Spells (data ++ value) (.cdata data :: pieces)
  | reference {name data value : List Char} {pieces : List Event}
      (hdata : r.reference? name = some data) (h : Spells value pieces) :
    Spells (data ++ value) (.reference name :: pieces)

/-- A way to write trees side by side. -/
inductive Writes : List Tree → List Event → Prop
  | nil : Writes [] []
  | text {value : String} {trees : List Tree} {pieces events : List Event}
      (hvalue : Spells r value.toList pieces) (h : Writes trees events) :
    Writes (.leaf (.text value) :: trees) (pieces ++ events)
  | comment {value : String} {data : List Char} {trees : List Tree} {events : List Event}
      (hdata : Text.trim data = value.toList) (h : Writes trees events) :
    Writes (.leaf (.comment value) :: trees) (.comment data :: events)
  | element {name : String} {attributes : List Attribute} {children trees : List Tree}
      {raw : List Char} {inner events : List Event} (hraw : WritesAttributes attributes raw)
      (hinner : Writes children inner) (h : Writes trees events) :
    Writes (.node (.element name) attributes children :: trees)
      (.start name.toList raw :: (inner ++ [.stop name.toList]) ++ events)
  | empty {name : String} {attributes : List Attribute} {trees : List Tree} {raw : List Char}
      {events : List Event} (hraw : WritesAttributes attributes raw) (h : Writes trees events) :
    Writes (.node (.element name) attributes [] :: trees) (.empty name.toList raw :: events)

/-- What may stand beside the root. -/
inductive IsAside : Event → Prop
  | declaration : IsAside .declaration
  | comment (data : List Char) : IsAside (.comment data)
  | space {data : List Char} (h : data.all Text.isBlank) : IsAside (.text data)

/-- A way to write a document with a tree. -/
structure WritesDocument (tree : Tree) (before body after : List Event) : Prop where
  before : ∀ event ∈ before, IsAside event
  body : Writes r [tree] body
  after : ∀ event ∈ after, IsAside event

end

/-! ## Reading -/

variable {r : Reader}

theorem data?_text (hr : r.UndoesWriting) {data : List Char} (h : '&' ∉ data) :
    (Event.text data).data? r = some data := by
  rw [Event.data?, hr.unescape (escapes_self h)]
  rfl

namespace Builder

theorem takeAll_spells (hr : r.UndoesWriting) {value : List Char} {pieces : List Event}
    (h : Spells r value pieces) (b : Builder) (events : List Event) :
    b.takeAll r (pieces ++ events) = (b.appendText value).takeAll r events := by
  have hpiece {event : Event} {data value : List Char} {pieces : List Event}
      (hdata : event.data? r = some data)
      (ih : ∀ b : Builder, b.takeAll r (pieces ++ events) = (b.appendText value).takeAll r events)
      (b : Builder) : b.takeAll r (event :: pieces ++ events) =
        (b.appendText (data ++ value)).takeAll r events := by
    rw [List.cons_append, takeAll_cons, take_of_data hdata]
    show (b.appendText data).takeAll r (pieces ++ events) = _
    rw [ih, appendText, appendText, appendText, List.append_assoc]
  induction h generalizing b with
  | nil =>
    show b.takeAll r events = takeAll r { b with pending := b.pending ++ [] } events
    rw [List.append_nil]
  | text hdata _ ih => exact hpiece (data?_text hr hdata) ih b
  | cdata _ ih => exact hpiece rfl ih b
  | @reference name data value pieces hdata _ ih =>
    exact @hpiece (.reference name) data value pieces hdata ih b

theorem unescapeAll_writes (hr : r.UndoesWriting) {attributes : List Attribute}
    {raws : List RawAttribute} (h : List.Forall₂ IsWrittenAs attributes raws)
    (hplain : ∀ a ∈ attributes, isNamespaceDeclaration a.name.toList = false) :
    unescapeAll r raws = .ok attributes := by
  induction h with
  | nil => rfl
  | @cons a raw attributes raws hraw _ ih =>
    obtain ⟨ha, hplain⟩ := List.forall_mem_cons.mp hplain
    rw [unescapeAll, hraw.key, ha, hr.unescape hraw.value, ih hplain]
    show Except.ok (⟨.ofList a.name.toList, .ofList a.value.toList⟩ :: attributes) = _
    rw [String.ofList_toList, String.ofList_toList]

theorem openElement_writes (hr : r.UndoesWriting) {name : String} {attributes : List Attribute}
    {raw : List Char} (hraw : WritesAttributes attributes raw)
    (hplain : ∀ a ∈ attributes, isNamespaceDeclaration a.name.toList = false) :
    openElement r name.toList raw = .ok ⟨name.toList, attributes, []⟩ := by
  obtain ⟨raws, hlists, hraws⟩ := hraw
  rw [openElement_eq_ok_iff, hr.attributes hlists]
  exact ⟨rfl, attributes, unescapeAll_writes hr hraws hplain, rfl⟩

/-- An element is attached once its end tag is there. -/
theorem takeAll_element {name : String} {attributes : List Attribute} {children : List Tree}
    {raw : List Char} {inner : List Event}
    (hopen : openElement r name.toList raw = .ok ⟨name.toList, attributes, []⟩)
    (hinner : ∀ es root, ∃ b,
      takeAll r ⟨⟨name.toList, attributes, []⟩ :: es, root, []⟩ inner = .ok b ∧
        b.flush = ⟨⟨name.toList, attributes, children⟩ :: es, root, []⟩)
    (b : Builder) :
    b.takeAll r (.start name.toList raw :: (inner ++ [.stop name.toList])) =
      b.flush.attach (.node (.element name) attributes children) := by
  obtain ⟨filled, hfilled, hflush⟩ := hinner b.flush.openElements b.flush.root
  have hpending : b.flush.pending = [] := by
    rw [flush]
    split
    · rfl
    · rw [addChild]
      split <;> rfl
  have hstart : b.take r (.start name.toList raw) =
      .ok ⟨⟨name.toList, attributes, []⟩ :: b.flush.openElements, b.flush.root, []⟩ := by
    rw [take, hopen, ← hpending]
    rfl
  rw [takeAll_cons, hstart]
  show takeAll r _ (inner ++ [.stop name.toList]) = _
  rw [takeAll_append, hfilled]
  show takeAll r filled [.stop name.toList] = _
  have hstop : filled.take r (.stop name.toList) =
      b.flush.attach (.node (.element name) attributes children) := by
    rw [take, hflush, close]
    simp only [OpenElement.toTree, String.ofList_toList, ← hpending]
  rw [takeAll_cons, hstop]
  cases b.flush.attach (.node (.element name) attributes children) <;> rfl

theorem take_empty {name : String} {attributes : List Attribute} {raw : List Char}
    (hopen : openElement r name.toList raw = .ok ⟨name.toList, attributes, []⟩) (b : Builder) :
    b.take r (.empty name.toList raw) = b.flush.attach (.node (.element name) attributes []) := by
  rw [take, hopen]
  show b.flush.attach (OpenElement.toTree ⟨name.toList, attributes, []⟩) = _
  rw [OpenElement.toTree, String.ofList_toList]

theorem append_behind (e : OpenElement) (es : List OpenElement) (root : Option Tree)
    (first : List Tree) (tree : Tree) (rest : List Tree) :
    (⟨((e.withChildren first).withChildren [tree]).withChildren (textOf [] ++ rest) :: es, root,
      []⟩ : Builder) = ⟨e.withChildren (first ++ tree :: rest) :: es, root, []⟩ := by
  rw [OpenElement.withChildren_withChildren, OpenElement.withChildren_withChildren]
  rfl

/-- Trees that are written inside an element become its children, behind the text that is pending.
The induction is on how they are written. A text at the end is still pending afterwards. -/
theorem takeAll_writes (hr : r.UndoesWriting) {trees : List Tree} {events : List Event}
    (h : Writes r trees events)
    (htidy : ∀ tree ∈ trees, tree.Everywhere Tidy) (hapart : Tree.TextsApart trees)
    (e : OpenElement) (es : List OpenElement) (root : Option Tree) {pending : List Char}
    (hpending : pending = [] ∨ ∀ tree ∈ trees.head?, tree.isText = false) :
    ∃ b, takeAll r ⟨e :: es, root, pending⟩ events = .ok b ∧
      b.flush = ⟨e.withChildren (textOf pending ++ trees) :: es, root, []⟩ := by
  induction h generalizing e es root pending with
  | nil =>
    refine ⟨_, rfl, ?_⟩
    rw [flush_open, List.append_nil]
  | @text value trees pieces events hvalue _ ih =>
    obtain ⟨hvalueTidy, htidy⟩ := List.forall_mem_cons.mp htidy
    -- Texts are apart, so nothing is pending in front of one and no text follows it.
    obtain rfl : pending = [] := hpending.resolve_right fun hnone => by cases hnone _ rfl
    have hnext : ∀ tree ∈ trees.head?, tree.isText = false := by
      intro tree hhead
      have hboth := (List.isChain_cons.mp hapart).1 tree hhead
      exact Bool.eq_false_iff.mpr fun htext => hboth ⟨rfl, htext⟩
    obtain ⟨b, htake, hflush⟩ := @ih htidy (List.isChain_cons.mp hapart).2 e es root
      value.toList (.inr hnext)
    refine ⟨b, ?_, ?_⟩
    · rw [takeAll_spells hr hvalue]
      exact htake
    · rw [hflush, textOf_of_not_blank hvalueTidy.here.not_blank, String.ofList_toList]
      rfl
  | @comment value data trees events hdata _ ih =>
    obtain ⟨-, htidy⟩ := List.forall_mem_cons.mp htidy
    obtain ⟨b, htake, hflush⟩ := ih htidy (List.isChain_cons.mp hapart).2
      ((e.withChildren (textOf pending)).withChildren [.leaf (.comment value)]) es root (.inl rfl)
    refine ⟨b, ?_, hflush.trans (append_behind _ _ _ _ _ _)⟩
    rw [takeAll_cons, take, flush_open, hdata, String.ofList_toList]
    exact htake
  | @element name attributes children trees raw inner events hraw _ _ ihinner ih =>
    obtain ⟨helement, htidy⟩ := List.forall_mem_cons.mp htidy
    obtain ⟨hplain, hchildren⟩ := helement.here.of_element
    obtain ⟨b, htake, hflush⟩ := ih htidy (List.isChain_cons.mp hapart).2
      ((e.withChildren (textOf pending)).withChildren [.node (.element name) attributes children])
      es root (.inl rfl)
    have hinner (es : List OpenElement) (root : Option Tree) :=
      ihinner helement.of_mem hchildren ⟨name.toList, attributes, []⟩ es root (.inl rfl)
    refine ⟨b, ?_, hflush.trans (append_behind _ _ _ _ _ _)⟩
    rw [takeAll_append, takeAll_element (openElement_writes hr hraw hplain) hinner, flush_open]
    exact htake
  | @empty name attributes trees raw events hraw _ ih =>
    obtain ⟨helement, htidy⟩ := List.forall_mem_cons.mp htidy
    obtain ⟨hplain, -⟩ := helement.here.of_element
    obtain ⟨b, htake, hflush⟩ := ih htidy (List.isChain_cons.mp hapart).2
      ((e.withChildren (textOf pending)).withChildren [.node (.element name) attributes []])
      es root (.inl rfl)
    refine ⟨b, ?_, hflush.trans (append_behind _ _ _ _ _ _)⟩
    rw [takeAll_cons, take_empty (openElement_writes hr hraw hplain), flush_open]
    exact htake

/-- What stands beside the root leaves no trace but blank data that is pending. -/
theorem takeAll_aside (hr : r.UndoesWriting) {events : List Event}
    (h : ∀ event ∈ events, IsAside event)
    (root : Option Tree) (pending : List Char) :
    ∃ pending', takeAll r ⟨[], root, pending⟩ events = .ok ⟨[], root, pending'⟩ := by
  induction events generalizing pending with
  | nil => exact ⟨pending, rfl⟩
  | cons event events ih =>
    obtain ⟨hevent, hevents⟩ := List.forall_mem_cons.mp h
    rw [takeAll_cons]
    cases hevent with
    | declaration =>
      rw [take, flush_outside]
      exact ih hevents []
    | comment data =>
      rw [take, flush_outside]
      exact ih hevents []
    | @space data hblank =>
      have hdata : '&' ∉ data := fun hmem =>
        absurd (List.all_eq_true.mp hblank _ hmem) (by decide)
      rw [take_of_data (data?_text hr hdata)]
      exact ih hevents _

/-- The root is made of whatever is written for it. -/
theorem takeAll_root (hr : r.UndoesWriting) {tree : Tree} {body : List Event}
    (h : Writes r [tree] body)
    (htidy : tree.Everywhere Tidy) {name : String} (hroot : tree.content = .element name)
    (pending : List Char) :
    takeAll r ⟨[], none, pending⟩ body = .ok ⟨[], some tree, []⟩ := by
  cases h with
  | text => cases hroot
  | comment => cases hroot
  | element hraw hinner hrest =>
    obtain ⟨hplain, hchildren⟩ := htidy.here.of_element
    cases hrest with
    | nil =>
      rw [List.append_nil, takeAll_element (openElement_writes hr hraw hplain) fun es root =>
        takeAll_writes hr hinner htidy.of_mem hchildren _ es root (.inl rfl), flush_outside]
      rfl
  | empty hraw hrest =>
    obtain ⟨hplain, -⟩ := htidy.here.of_element
    cases hrest with
    | nil =>
      rw [takeAll_cons, take_empty (openElement_writes hr hraw hplain), flush_outside]
      rfl

end Builder

/-! ## Ways exist -/

/-- Attributes that can be written: their names are keys, and no two are the same. -/
def HasKeys (tree : Tree) : Prop :=
  (tree.attributes.map (·.name)).Nodup ∧ ∀ a ∈ tree.attributes, IsKey a.name.toList

theorem Writes.append {tree : Tree} {trees : List Tree} {events later : List Event}
    (h : Writes r [tree] events) (hrest : Writes r trees later) :
    Writes r (tree :: trees) (events ++ later) := by
  cases h with
  | text hvalue hnil =>
    cases hnil
    rw [List.append_nil]
    exact .text hvalue hrest
  | comment hdata hnil =>
    cases hnil
    exact .comment hdata hrest
  | element hraw hinner hnil =>
    cases hnil
    rw [List.append_nil]
    exact .element hraw hinner hrest
  | empty hraw hnil =>
    cases hnil
    exact .empty hraw hrest

theorem exists_writes_all {trees : List Tree}
    (h : ∀ tree ∈ trees, ∃ events, Writes r [tree] events) : ∃ events, Writes r trees events := by
  induction trees with
  | nil => exact ⟨[], .nil⟩
  | cons tree trees ih =>
    obtain ⟨⟨events, hevents⟩, htrees⟩ := List.forall_mem_cons.mp h
    obtain ⟨later, hlater⟩ := ih htrees
    exact ⟨events ++ later, hevents.append hlater⟩

/-- Every tidy tree with attributes that can be written can be written. -/
theorem exists_writes {tree : Tree} (htidy : tree.Everywhere Tidy)
    (hkeys : tree.Everywhere HasKeys) : ∃ events, Writes r [tree] events := by
  induction htidy with
  | node here _ ih =>
    obtain ⟨inner, hinner⟩ := exists_writes_all fun child hchild =>
      ih child hchild (hkeys.of_mem child hchild)
    cases here with
    | element =>
      obtain ⟨raw, hraw⟩ := exists_writesAttributes hkeys.here.1 hkeys.here.2
      exact ⟨_, .element hraw hinner .nil⟩
    | comment hvalue => exact ⟨_, .comment hvalue .nil⟩
    | @text value =>
      have hvalue : Spells r value.toList [.cdata value.toList] := by
        have hspells : Spells r (value.toList ++ []) [.cdata value.toList] := .cdata .nil
        rwa [List.append_nil] at hspells
      exact ⟨_, .text hvalue .nil⟩

/-! ## Rebuilding -/

/-- A tree is rebuilt from every sequence of events that writes it. If its attributes can be
written, there is one. -/
structure Rebuilt (r : Reader) (tree : Tree) : Prop where
  events : ∀ before body after, WritesDocument r tree before body after →
    r.treeOfEvents (before ++ body ++ after) = .ok tree
  text : ∀ (text : String) (before body after : List Event),
    WritesDocument r tree before body after →
      r.events text = (before ++ body ++ after, none) → r.parse text = .ok tree
  exists_body : tree.Everywhere HasKeys → ∃ body, WritesDocument r tree [] body []

/-- Every tidy element is rebuilt from whatever is written for it, if the reader undoes writing. -/
theorem rebuilt (hr : r.UndoesWriting) {tree : Tree} {name : String}
    (hroot : tree.content = .element name) (htidy : tree.Everywhere Tidy) : Rebuilt r tree := by
  have hevents {before body after : List Event} (h : WritesDocument r tree before body after) :
      r.treeOfEvents (before ++ body ++ after) = .ok tree := by
    obtain ⟨pending, hbefore⟩ := Builder.takeAll_aside hr h.before none []
    obtain ⟨pending', hafter⟩ := Builder.takeAll_aside hr h.after (some tree) []
    have hempty : Builder.empty.takeAll r before = .ok ⟨[], none, pending⟩ := hbefore
    rw [Reader.treeOfEvents, Builder.readOn_eq_ok_iff, Builder.takeAll_append,
      Builder.takeAll_append, hempty]
    show none = none ∧ ∃ pending, ((Builder.takeAll r ⟨[], none, _⟩ body).bind _) = _
    rw [Builder.takeAll_root hr h.body htidy hroot]
    exact ⟨rfl, pending', hafter⟩
  constructor
  · intro before body after h
    exact hevents h
  · intro text before body after h htext
    rw [Reader.parse, htext]
    exact hevents h
  · intro hkeys
    obtain ⟨body, hbody⟩ := exists_writes htidy hkeys
    exact ⟨body, nofun, hbody, nofun⟩

/-- A tree with a text between a leaf and a comment. -/
def note : Tree :=
  .node (.element "r") [⟨"k", "1 & 2"⟩]
    [.node (.element "a") [] [], .leaf (.text "x & y"), .leaf (.comment "z")]

theorem tidy_note : note.Everywhere Tidy := by
  refine .node (.element (by decide) (by decide)) fun child hchild => ?_
  simp only [List.mem_cons, List.not_mem_nil, or_false] at hchild
  obtain rfl | rfl | rfl := hchild
  · exact .node (.element nofun .nil) nofun
  · exact .leaf (.text (by decide))
  · exact .leaf (.comment (by decide))

theorem writesAttributes_note : WritesAttributes note.attributes " k='1 &amp; 2'".toList := by
  have hwritten : " k='1 &amp; 2'".toList =
      [' '] ++ (['k'] ++ ([] ++ '=' :: ([] ++ '\'' :: ("1 &amp; 2".toList ++ ['\''])))) := by
    decide +kernel
  have hvalue : "1 & 2".toList = ['1', ' ', '&', ' ', '2'] := by decide +kernel
  have hraw : "1 &amp; 2".toList =
      '1' :: ' ' :: referenceBefore ['a', 'm', 'p'] [' ', '2'] := by decide +kernel
  have hamp : StandsFor ['a', 'm', 'p'] '&' := .inl (by simp [IsNamed, namedCharacters])
  have hescapes : Escapes "1 & 2".toList "1 &amp; 2".toList := by
    rw [hvalue, hraw]
    exact .plain (by decide) (.plain (by decide) (.reference (by decide) hamp
      (escapes_self (by decide))))
  refine ⟨[⟨['k'], "1 &amp; 2".toList⟩], ?_, .cons ⟨rfl, hescapes⟩ .nil⟩
  have hkey : IsKey ['k'] := ⟨List.cons_ne_nil _ _, by simp [isSpace]⟩
  rw [hwritten]
  exact @Lists.cons ⟨['k'], "1 &amp; 2".toList⟩ [] [' '] [] [] [] '\'' rfl hkey rfl rfl (.inr rfl)
    (by decide) List.not_mem_nil (.nil rfl)

/-- The tree is rebuilt from a text that writes it in pieces. -/
theorem rebuilt_note :
    scanner.UndoesWriting ∧ note.content = .element "r" ∧ note.Everywhere Tidy ∧
      parse "<?xml?> <r k='1 &amp; 2'><a/>x <![CDATA[& ]]>&#121;<!-- z --></r>" = .ok note := by
  have hpieces : Spells scanner "x & y".toList
      [.text "x ".toList, .cdata "& ".toList, .reference "#121".toList] := by
    have hvalue : "x & y".toList = "x ".toList ++ ("& ".toList ++ (['y'] ++ [])) := by
      decide +kernel
    rw [hvalue]
    exact .text (by decide) (.cdata (.reference (by decide) .nil))
  have hbody : Writes scanner [note] (.start "r".toList " k='1 &amp; 2'".toList ::
      ((.empty "a".toList [] :: ([.text "x ".toList, .cdata "& ".toList,
        .reference "#121".toList] ++ [.comment " z ".toList])) ++ [.stop "r".toList]) ++ []) :=
    .element writesAttributes_note
      (.empty ⟨[], .nil rfl, .nil⟩ (.text hpieces (.comment (by decide) .nil))) .nil
  have hbefore : ∀ event ∈ [.declaration, .text " ".toList], IsAside event := by
    intro event hevent
    obtain rfl | rfl := List.mem_pair.mp hevent
    · exact .declaration
    · exact .space (by decide)
  have hrebuilt := rebuilt scanner_undoesWriting rfl tidy_note
  exact ⟨scanner_undoesWriting, rfl, tidy_note,
    hrebuilt.text _ _ _ [] ⟨hbefore, hbody, nofun⟩ (by decide +kernel)⟩

end TreeAxes.Markup
