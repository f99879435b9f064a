import TreeAxes.Proofs.Markup.Building
import TreeAxes.Proofs.Markup.Reading

/-!
# References in text and in attribute values

Text and attribute values read the same reference by different rules, at different times: text when
a builder takes the event, by rules of its own; a value when the tag around it opens an element, by
the rules of the reader. Wherever it stands, a reference either brings its character or ends reading
with an error. If the reader knows the names of characters, delivers references and reads the values
that can be written, the two places agree on every name but loose numerals, which bring a character
in text and an error in a value.
-/

namespace TreeAxes.Markup

variable {r : Reader} {name first rest value raw : List Char} {c : Char} {event : Event}
  {after : List Event} {fault : Option Fault} {text : String}

/-! ## Values -/

theorem escapes_nil_iff : Escapes value [] ↔ value = [] := by
  constructor
  · intro h
    cases h
    rfl
  · rintro rfl
    exact .nil

namespace Reader.ReadsValues

/-- A reference on its own is read as the character that it stands for. -/
theorem reference (hr : r.ReadsValues) (hname : IsName name) :
    r.unescape (referenceBefore name []) = .ok value ↔ ∃ c, value = [c] ∧ StandsFor name c := by
  simp only [hr _ _, Escapes.referenceBefore_iff hname, escapes_nil_iff]
  constructor
  · rintro ⟨c, _, rfl, hc, rfl⟩
    exact ⟨c, rfl, hc⟩
  · rintro ⟨c, rfl, hc⟩
    exact ⟨c, [], rfl, hc, rfl⟩

/-- A value is read in front of a reference and behind it. -/
theorem around (hr : r.ReadsValues) (hname : IsName name) :
    r.unescape (first ++ referenceBefore name rest) = .ok value ↔
      ∃ x c y, value = x ++ c :: y ∧ r.unescape first = .ok x ∧
        r.unescape (referenceBefore name []) = .ok [c] ∧ r.unescape rest = .ok y := by
  have hc (c : Char) : r.unescape (referenceBefore name []) = .ok [c] ↔ StandsFor name c := by
    simp [hr.reference hname]
  simp only [hc, hr _ _, Escapes.around_iff hname]

end Reader.ReadsValues

namespace Builder

theorem unescapeAll_cons_eq_ok_iff {raw : RawAttribute} {raws : List RawAttribute}
    {attributes : List Attribute} (hraw : isNamespaceDeclaration raw.key = false) :
    unescapeAll r (raw :: raws) = .ok attributes ↔
      ∃ value rest, r.unescape raw.value = .ok value ∧ unescapeAll r raws = .ok rest ∧
        attributes = ⟨.ofList raw.key, .ofList value⟩ :: rest := by
  rw [unescapeAll, hraw]
  show ((r.unescape raw.value).bind fun value => (unescapeAll r raws).bind fun rest =>
    .ok (⟨.ofList raw.key, .ofList value⟩ :: rest)) = _ ↔ _
  simp only [bind_eq_ok_iff, Except.ok.injEq]
  constructor
  · rintro ⟨value, hvalue, rest, hrest, rfl⟩
    exact ⟨value, rest, hvalue, hrest, rfl⟩
  · rintro ⟨value, rest, hvalue, hrest, rfl⟩
    exact ⟨value, hvalue, rest, hrest, rfl⟩

theorem unescapeAll_append_eq_ok_iff {front back : List RawAttribute}
    {attributes : List Attribute} :
    unescapeAll r (front ++ back) = .ok attributes ↔
      ∃ first last, unescapeAll r front = .ok first ∧ unescapeAll r back = .ok last ∧
        attributes = first ++ last := by
  induction front generalizing attributes with
  | nil => simp [unescapeAll]
  | cons raw front ih =>
    rw [List.cons_append]
    cases hraw : isNamespaceDeclaration raw.key with
    | true => simpa [unescapeAll, hraw] using ih
    | false =>
      simp only [unescapeAll_cons_eq_ok_iff hraw, ih]
      constructor
      · rintro ⟨value, _, hvalue, ⟨first, last, hfirst, hlast, rfl⟩, rfl⟩
        exact ⟨_, last, ⟨value, first, hvalue, hfirst, rfl⟩, hlast, rfl⟩
      · rintro ⟨_, last, ⟨value, first, hvalue, hfirst, rfl⟩, hlast, rfl⟩
        exact ⟨value, _, hvalue, ⟨first, last, hfirst, hlast, rfl⟩, rfl⟩

end Builder

/-- A place in a tag, in the value of an attribute. -/
structure ValuePlace where
  closed : Bool
  tag : List Char
  front : List RawAttribute
  key : List Char
  first : List Char
  rest : List Char
  back : List RawAttribute

namespace ValuePlace

variable {p : ValuePlace} {e : OpenElement}

/-- The tag around the place. -/
def opening (p : ValuePlace) (raw : List Char) : Event :=
  if p.closed then .empty p.tag raw else .start p.tag raw

/-- The attributes as they are written, with a reference at the place. -/
def Holds (r : Reader) (p : ValuePlace) (name raw : List Char) : Prop :=
  r.attributes raw =
    (p.front ++ ⟨p.key, p.first ++ referenceBefore name p.rest⟩ :: p.back, none)

/-- The tag opens an element with a character at the place. -/
def Opens (r : Reader) (p : ValuePlace) (c : Char) (e : OpenElement) : Prop :=
  ∃ front x y back, Builder.unescapeAll r p.front = .ok front ∧ r.unescape p.first = .ok x ∧
    r.unescape p.rest = .ok y ∧ Builder.unescapeAll r p.back = .ok back ∧
      e = ⟨p.tag, front ++ ⟨.ofList p.key, .ofList (x ++ c :: y)⟩ :: back, []⟩

/-- The tag opens an element without the attribute that the place is in. -/
def OpensWithout (r : Reader) (p : ValuePlace) (e : OpenElement) : Prop :=
  ∃ attributes, Builder.unescapeAll r (p.front ++ p.back) = .ok attributes ∧
    e = ⟨p.tag, attributes, []⟩

theorem openElement_eq_ok_iff (hr : r.ReadsValues) (hname : IsName name) (hp : p.Holds r name raw)
    (hkey : Builder.isNamespaceDeclaration p.key = false) :
    Builder.openElement r p.tag raw = .ok e ↔
      ∃ c, r.unescape (referenceBefore name []) = .ok [c] ∧ p.Opens r c e := by
  have hcons {attributes : List Attribute} := @Builder.unescapeAll_cons_eq_ok_iff r
    ⟨p.key, p.first ++ referenceBefore name p.rest⟩ p.back attributes hkey
  rw [Builder.openElement_eq_ok_iff, hp]
  simp only [Builder.unescapeAll_append_eq_ok_iff, hcons, hr.around hname]
  constructor
  · rintro ⟨-, _, ⟨front, _, hfront, ⟨_, back, ⟨x, c, y, rfl, hx, hc, hy⟩, hback, rfl⟩, rfl⟩, rfl⟩
    exact ⟨c, hc, front, x, y, back, hfront, hx, hy, hback, rfl⟩
  · rintro ⟨c, hc, front, x, y, back, hfront, hx, hy, hback, rfl⟩
    refine ⟨trivial, _, ⟨front, _, hfront, ⟨_, back, ?_, hback, rfl⟩, rfl⟩, rfl⟩
    exact ⟨x, c, y, rfl, hx, hc, hy⟩

theorem openElement_declaration (hp : p.Holds r name raw)
    (hkey : Builder.isNamespaceDeclaration p.key) :
    Builder.openElement r p.tag raw = .ok e ↔ p.OpensWithout r e := by
  have hskipped :
      Builder.unescapeAll r (⟨p.key, p.first ++ referenceBefore name p.rest⟩ :: p.back) =
        Builder.unescapeAll r p.back := by
    rw [Builder.unescapeAll, hkey]
    rfl
  rw [Builder.openElement_eq_ok_iff, hp, and_iff_right rfl, OpensWithout]
  simp only [Builder.unescapeAll_append_eq_ok_iff, hskipped]

end ValuePlace

/-! ## Texts -/

namespace Builder

variable {b : Builder} {before : List Char}

/-- A builder has read a text: no event is left open, and it took all of them. -/
structure HasRead (r : Reader) (b : Builder) (before : List Char) : Prop where
  complete : (r.events (.ofList before)).2 = none
  taken : empty.takeAll r (r.events (.ofList before)).1 = .ok b

/-- A builder comes to an event of a text. Others follow, and there may be a fault behind them. -/
def ComesTo (r : Reader) (b : Builder) (text : String) (event : Event) (after : List Event)
    (fault : Option Fault) : Prop :=
  ∃ before, r.events text = (before ++ event :: after, fault) ∧ empty.takeAll r before = .ok b

/-- Puts an element where a tag stands. -/
def enter (b : Builder) (closed : Bool) (e : OpenElement) : Except Error Builder :=
  if closed then b.flush.attach e.toTree
  else .ok { b.flush with openElements := e :: b.flush.openElements }

theorem ComesTo.parse_eq (h : b.ComesTo r text event after fault) :
    r.parse text = (b.take r event).bind (·.readOn r after fault) := by
  obtain ⟨before, hevents, htaken⟩ := h
  rw [Reader.parse, hevents, readOn_append htaken, readOn_cons]

theorem HasRead.comesTo (hr : r.DeliversReferences) (h : b.HasRead r before) (hname : IsName name)
    (hopen : '<' ∉ name) :
    ∃ later fault, b.ComesTo r (.ofList (before ++ referenceBefore name rest))
      (.reference name) later fault := by
  obtain ⟨later, fault, hevents⟩ := hr.delivered h.complete hname hopen
  exact ⟨later, fault, _, hevents, h.taken⟩

/-- A tag cannot begin in a reference. -/
theorem HasRead.unclosed (hr : r.DeliversReferences) (h : b.HasRead r before) (hname : IsName name)
    (hopen : '<' ∈ name) :
    ∃ fault,
      r.parse (.ofList (before ++ referenceBefore name rest)) = .error (.malformed fault) := by
  obtain ⟨fault, hevents⟩ := hr.unclosed h.complete hname hopen
  refine ⟨fault, ?_⟩
  rw [Reader.parse, hevents, readOn, h.taken]
  rfl

theorem take_opening (b : Builder) (p : ValuePlace) (raw : List Char) :
    b.take r (p.opening raw) = (openElement r p.tag raw).bind (b.enter p.closed) := by
  rw [ValuePlace.opening]
  cases hclosed : p.closed <;> rfl

/-- At a tag, a tree is reached through an element that the tag opens. -/
theorem ComesTo.parse_eq_ok_iff {p : ValuePlace} {tree : Tree}
    (h : b.ComesTo r text (p.opening raw) after fault) :
    r.parse text = .ok tree ↔ ∃ e, openElement r p.tag raw = .ok e ∧
      (b.enter p.closed e).bind (·.readOn r after fault) = .ok tree := by
  rw [h.parse_eq, take_opening]
  cases openElement r p.tag raw with
  | error error => simp [Except.bind]
  | ok e => simp [Except.bind]

end Builder

/-- What a reference does, by what its name stands for in text and in a value. -/
structure ReadsReference (r : Reader) (name : List Char) : Prop where
  /-- In text, a reference brings its character data. -/
  inText {b : Builder} {before rest data : List Char} (h : b.HasRead r before)
    (hdata : r.reference? name = some data) :
    ∃ later fault,
      b.ComesTo r (.ofList (before ++ referenceBefore name rest)) (.reference name) later fault ∧
        r.parse (.ofList (before ++ referenceBefore name rest)) =
          (b.appendText data).readOn r later fault
  inText_error {b : Builder} {before rest : List Char} (h : b.HasRead r before)
    (hnone : r.reference? name = none) :
    ∃ error, r.parse (.ofList (before ++ referenceBefore name rest)) = .error error ∧
      ('<' ∉ name → error = .unknownEntity (.ofList name))
  /-- In a value, a reference brings its character into the element that the tag opens. -/
  inValue {b : Builder} {text : String} {raw : List Char} {after : List Event}
    {fault : Option Fault} {p : ValuePlace} {c : Char}
    (h : b.ComesTo r text (p.opening raw) after fault) (hp : p.Holds r name raw)
    (hkey : Builder.isNamespaceDeclaration p.key = false)
    (hc : r.unescape (referenceBefore name []) = .ok [c]) (tree : Tree) :
    r.parse text = .ok tree ↔ ∃ e, p.Opens r c e ∧
      (b.enter p.closed e).bind (·.readOn r after fault) = .ok tree
  inValue_error {b : Builder} {text : String} {raw : List Char} {after : List Event}
    {fault : Option Fault} {p : ValuePlace} (h : b.ComesTo r text (p.opening raw) after fault)
    (hp : p.Holds r name raw) (hkey : Builder.isNamespaceDeclaration p.key = false)
    (hnone : ∀ data, r.unescape (referenceBefore name []) ≠ .ok data) :
    ∃ fault, r.parse text = .error (.malformed fault)
  /-- Values of declarations of namespaces are not looked at. -/
  inDeclaration {b : Builder} {text : String} {raw : List Char} {after : List Event}
    {fault : Option Fault} {p : ValuePlace} (h : b.ComesTo r text (p.opening raw) after fault)
    (hp : p.Holds r name raw) (hkey : Builder.isNamespaceDeclaration p.key) (tree : Tree) :
    r.parse text = .ok tree ↔ ∃ e, p.OpensWithout r e ∧
      (b.enter p.closed e).bind (·.readOn r after fault) = .ok tree
  accepted (data : List Char) : r.unescape (referenceBefore name []) = .ok data ↔
    ∃ c, data = [c] ∧ StandsFor name c
  /-- Both places accept the same names for the same characters, but for loose numerals. -/
  agree (data : List Char) : r.reference? name = some data ↔
    r.unescape (referenceBefore name []) = .ok data ∨ ∃ c, data = [c] ∧ IsLoose name c
  loose {c : Char} (h : IsLoose name c) (data : List Char) :
    r.unescape (referenceBefore name []) ≠ .ok data

/-- Every name without ampersands and semicolons is read in this way. -/
theorem readsReference (hnames : r.KnowsNames) (hvalues : r.ReadsValues)
    (htexts : r.DeliversReferences) (hname : IsName name) : ReadsReference r name where
  inText := by
    intro b before rest data h hdata
    obtain ⟨later, fault, hcomes⟩ :=
      h.comesTo htexts hname (Reader.not_mem_of_reference? hnames hdata)
    refine ⟨later, fault, hcomes, ?_⟩
    rw [hcomes.parse_eq, Builder.take, hdata]
    rfl
  inText_error := by
    intro b before rest h hnone
    by_cases hopen : '<' ∈ name
    · obtain ⟨fault, hparse⟩ := h.unclosed htexts hname hopen
      exact ⟨_, hparse, fun hnot => absurd hopen hnot⟩
    · obtain ⟨later, fault, hcomes⟩ := h.comesTo htexts hname hopen
      refine ⟨_, ?_, fun _ => rfl⟩
      rw [hcomes.parse_eq, Builder.take, hnone]
      rfl
  inValue := by
    intro b text raw after fault p c h hp hkey hc tree
    have hopen (e : OpenElement) :
        Builder.openElement r p.tag raw = .ok e ↔ p.Opens r c e := by
      simp [ValuePlace.openElement_eq_ok_iff hvalues hname hp hkey, hc]
    simp only [h.parse_eq_ok_iff, hopen]
  inValue_error := by
    intro b text raw after fault p h hp hkey hnone
    have hclosed (e : OpenElement) : Builder.openElement r p.tag raw ≠ .ok e := by
      intro he
      obtain ⟨c, hc, -⟩ := (ValuePlace.openElement_eq_ok_iff hvalues hname hp hkey).mp he
      exact hnone [c] hc
    obtain ⟨malformed, hmalformed⟩ := Builder.exists_fault_of_openElement hclosed
    refine ⟨malformed, ?_⟩
    rw [h.parse_eq, Builder.take_opening, hmalformed]
    rfl
  inDeclaration := by
    intro b text raw after fault p h hp hkey tree
    simp only [h.parse_eq_ok_iff, ValuePlace.openElement_declaration hp hkey]
  accepted _ := hvalues.reference hname
  agree data := by
    rw [Reader.reference?_iff hnames, hvalues.reference hname]
    simp only [and_or_left, exists_or]
  loose h data hdata := by
    obtain ⟨c, -, hc⟩ := (hvalues.reference hname).mp hdata
    exact h.not_standsFor hc

/-- A number with a sign in front. -/
def signedName : List Char := ['#', '+', '6', '5']

def signedText : String := "<a>&#+65;</a>"

def signedValue : String := "<a k='&#+65;'></a>"

/-- An element with one letter in it. -/
def lettered : Tree := .node (.element "a") [] [.leaf (.text "A")]

/-- The value of the only attribute of a tag. -/
def onlyValue : ValuePlace := ⟨false, ['a'], [], ['k'], [], [], []⟩

theorem isName_signedName : IsName signedName := by
  decide

theorem isLoose_signedName : IsLoose signedName 'A' :=
  ⟨⟨false, true, ['6', '5']⟩, rfl, ⟨by decide, [6, 5], by decide, by decide⟩, .inl rfl⟩

/-- The attributes of the tag. -/
def signedList : List Char := [' ', 'k', '=', '\''] ++ referenceBefore signedName ['\'']

theorem holds_onlyValue : onlyValue.Holds scanner signedName signedList := by
  have hlists := @Lists.cons ⟨['k'], referenceBefore signedName []⟩ [] [' '] [] [] [] '\'' rfl
    ⟨List.cons_ne_nil _ _, by simp [isSpace]⟩ rfl rfl (.inr rfl) (by decide) List.not_mem_nil
    (.nil rfl)
  exact scanner_undoesWriting.attributes hlists

theorem comesTo_signedValue :
    Builder.empty.ComesTo scanner signedValue (onlyValue.opening signedList) [.stop ['a']] none :=
  ⟨[], by decide +kernel, rfl⟩

/-- The builder behind the start tag of an element without attributes. -/
def opened : Builder := ⟨[⟨['a'], [], []⟩], none, []⟩

theorem takeAll_opened : Builder.empty.takeAll scanner [.start ['a'] []] = .ok opened := by
  rw [Builder.takeAll_cons, Builder.take, openElement_scanner]
  rfl

theorem opened_hasRead : opened.HasRead scanner ['<', 'a', '>'] := by
  have hevents : scanner.events (.ofList ['<', 'a', '>']) = ([.start ['a'] []], none) := by
    decide +kernel
  constructor
  · rw [hevents]
  · rw [hevents]
    exact takeAll_opened

theorem comesTo_signedText :
    opened.ComesTo scanner signedText (.reference signedName) [.stop ['a']] none :=
  ⟨[.start ['a'] []], by decide +kernel, takeAll_opened⟩

/-- The reference brings a letter into the text of an element, and an error into a value. -/
theorem readsReference_signed :
    scanner.KnowsNames ∧ scanner.ReadsValues ∧ scanner.DeliversReferences ∧ IsName signedName ∧
      scanner.reference? signedName = some ['A'] ∧
        (∃ later fault, scanner.parse (.ofList (['<', 'a', '>'] ++ referenceBefore signedName
          ['<', '/', 'a', '>'])) = (opened.appendText ['A']).readOn scanner later fault) ∧
          ∃ fault, scanner.parse signedValue = .error (.malformed fault) := by
  have hreads := readsReference scanner_knowsNames scanner_readsValues scanner_deliversReferences
    isName_signedName
  have htext := (hreads.agree ['A']).mpr (.inr ⟨'A', rfl, isLoose_signedName⟩)
  obtain ⟨later, fault, -, hparse⟩ := hreads.inText opened_hasRead htext
  exact ⟨scanner_knowsNames, scanner_readsValues, scanner_deliversReferences, isName_signedName,
    htext, ⟨later, fault, hparse⟩, hreads.inValue_error comesTo_signedValue holds_onlyValue
      (by decide) (hreads.loose isLoose_signedName)⟩

/-- A reference can mean a letter in text and nothing in a value. -/
theorem signed_in_text_only :
    parse signedText = .ok lettered ∧
      parse signedValue = .error (.malformed (.invalidReference (.ofList signedName))) := by
  constructor
  · have hdata : scanner.reference? signedName = some ['A'] :=
      (Reader.reference?_iff scanner_knowsNames).mpr ⟨'A', rfl, .inr isLoose_signedName⟩
    show scanner.parse signedText = _
    rw [comesTo_signedText.parse_eq, Builder.take, hdata]
    rfl
  · show scanner.parse signedValue = _
    rw [comesTo_signedValue.parse_eq, Builder.take_opening, Builder.openElement, holds_onlyValue]
    rfl

end TreeAxes.Markup
