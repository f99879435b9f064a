import Mathlib.Data.List.Forall2
import TreeAxes.Proofs.Markup.Numerals
import TreeAxes.Tree

/-!
# Written values and attributes

A value can be written with references for some of its characters, and a list of attributes with
more or less space and with either kind of quotes. `Escapes` and `Lists` are the ways to write them.
There is a way for every value, and for every list with distinct names in which no space and no
equals sign occurs. What is asked of readers is stated by these ways: `Reader.UndoesWriting`,
`Reader.ReadsValues` and `Reader.DeliversReferences`.
-/

namespace TreeAxes.Markup

variable {value raw name first rest : List Char} {c : Char}

/-- Taking stops at the first character that does not count. -/
theorem span_append {p : Char → Bool} {xs ys : List Char} (hxs : ∀ x ∈ xs, p x)
    (hys : ∀ y ∈ ys.head?, p y = false) :
    (xs ++ ys).takeWhile p = xs ∧ (xs ++ ys).dropWhile p = ys := by
  rw [List.takeWhile_append_of_pos hxs, List.dropWhile_append_of_pos hxs]
  cases ys with
  | nil => exact ⟨List.append_nil _, rfl⟩
  | cons y ys =>
    have hy : p y = false := hys y rfl
    rw [List.takeWhile_cons, List.dropWhile_cons, hy]
    exact ⟨List.append_nil _, rfl⟩

/-! ## Values -/

/-- Whether a name can stand in a reference: the reference ends behind it. -/
def IsName (name : List Char) : Prop := ∀ x ∈ name, x ≠ ';' ∧ x ≠ '&'

instance : DecidablePred IsName := fun name =>
  List.decidableBAll (fun x => x ≠ ';' ∧ x ≠ '&') name

/-- A reference in front of a text. -/
def referenceBefore (name rest : List Char) : List Char := '&' :: (name ++ ';' :: rest)

/-- A way to write a value: characters are written as they are, or as references. -/
inductive Escapes : List Char → List Char → Prop
  | nil : Escapes [] []
  | plain {c : Char} {value raw : List Char} (hc : c ≠ '&') (h : Escapes value raw) :
    Escapes (c :: value) (c :: raw)
  | reference {c : Char} {name value raw : List Char} (hname : IsName name)
      (hc : StandsFor name c) (h : Escapes value raw) :
    Escapes (c :: value) (referenceBefore name raw)

/-- A value without ampersands can be written as it is. -/
theorem escapes_self (h : '&' ∉ value) : Escapes value value := by
  induction value with
  | nil => exact .nil
  | cons c value ih =>
    rw [List.mem_cons, not_or] at h
    exact .plain (Ne.symm h.1) (ih h.2)

/-- Every value can be written between quotation marks. -/
theorem exists_escapes (value : List Char) : ∃ raw, Escapes value raw ∧ '"' ∉ raw := by
  induction value with
  | nil => exact ⟨[], .nil, nofun⟩
  | cons c value ih =>
    obtain ⟨raw, hraw, hquote⟩ := ih
    have hreference (name : List Char) (hname : IsName name) (hplain : '"' ∉ name)
        (hc : IsNamed name c) : ∃ raw, Escapes (c :: value) raw ∧ '"' ∉ raw := by
      refine ⟨referenceBefore name raw, .reference hname (.inl hc) hraw, ?_⟩
      simp only [referenceBefore, List.mem_cons, List.mem_append, not_or]
      exact ⟨by decide, hplain, by decide, hquote⟩
    by_cases hamp : c = '&'
    · subst hamp
      exact hreference ['a', 'm', 'p'] (by decide) (by decide) (by simp [IsNamed, namedCharacters])
    · by_cases hquot : c = '"'
      · subst hquot
        exact hreference ['q', 'u', 'o', 't'] (by decide) (by decide)
          (by simp [IsNamed, namedCharacters])
      · refine ⟨c :: raw, .plain hamp hraw, ?_⟩
        rw [List.mem_cons, not_or]
        exact ⟨Ne.symm hquot, hquote⟩

/-- A reference ends at the first semicolon. -/
theorem name_inj {other more : List Char} (hname : IsName name) (hother : IsName other)
    (h : name ++ ';' :: rest = other ++ ';' :: more) : name = other ∧ rest = more := by
  have hsplit {name rest : List Char} (hname : IsName name) :=
    @span_append (fun x => decide (x ≠ ';')) name (';' :: rest)
      (fun x hx => decide_eq_true (hname x hx).1) (by rintro x ⟨⟩; rfl)
  have htaken := congrArg (List.takeWhile fun x => decide (x ≠ ';')) h
  have hdropped := congrArg (List.dropWhile fun x => decide (x ≠ ';')) h
  rw [(hsplit hname).1, (hsplit hother).1] at htaken
  rw [(hsplit hname).2, (hsplit hother).2] at hdropped
  exact ⟨htaken, (List.cons.inj hdropped).2⟩

/-- A reference cannot begin in the name of another one. -/
theorem exists_behind_name {other more : List Char} (hother : IsName other)
    (h : first ++ referenceBefore name rest = other ++ ';' :: more) :
    ∃ between, first = other ++ ';' :: between ∧ more = between ++ referenceBefore name rest := by
  induction other generalizing first with
  | nil =>
    cases first with
    | nil => exact absurd (List.cons.inj h).1 (by decide)
    | cons c first =>
      obtain ⟨rfl, htail⟩ := List.cons.inj h
      exact ⟨first, rfl, htail.symm⟩
  | cons d other ih =>
    obtain ⟨⟨-, hampersand⟩, hnames⟩ := List.forall_mem_cons.mp hother
    cases first with
    | nil => exact absurd (List.cons.inj h).1.symm hampersand
    | cons c first =>
      obtain ⟨rfl, htail⟩ := List.cons.inj h
      obtain ⟨between, rfl, hmore⟩ := ih hnames htail
      exact ⟨between, rfl, hmore⟩

namespace Escapes

theorem append {more written : List Char} (h : Escapes value raw) (hmore : Escapes more written) :
    Escapes (value ++ more) (raw ++ written) := by
  induction h with
  | nil => exact hmore
  | plain hc _ ih => exact .plain hc ih
  | @reference c name value raw hname hc _ ih =>
    have hwritten :
        referenceBefore name raw ++ written = referenceBefore name (raw ++ written) := by
      simp [referenceBefore]
    rw [hwritten]
    exact .reference hname hc ih

/-- A reference in front is written for one character. -/
theorem referenceBefore_iff (hname : IsName name) :
    Escapes value (referenceBefore name rest) ↔
      ∃ c y, value = c :: y ∧ StandsFor name c ∧ Escapes y rest := by
  constructor
  · intro h
    generalize hraw : referenceBefore name rest = raw at h
    cases h with
    | nil => cases hraw
    | plain hc => exact absurd (List.cons.inj hraw).1.symm hc
    | reference hother hc hrest =>
      obtain ⟨rfl, rfl⟩ := name_inj hname hother (List.cons.inj hraw).2
      exact ⟨_, _, rfl, hc, hrest⟩
  · rintro ⟨c, y, rfl, hc, hrest⟩
    exact .reference hname hc hrest

/-- What stands in front of a reference is written on its own. -/
theorem around_iff (hname : IsName name) :
    Escapes value (first ++ referenceBefore name rest) ↔
      ∃ x c y, value = x ++ c :: y ∧ Escapes x first ∧ StandsFor name c ∧ Escapes y rest := by
  constructor
  · intro h
    generalize hraw : first ++ referenceBefore name rest = raw at h
    induction h generalizing first with
    | nil => simp [referenceBefore] at hraw
    | @plain c value raw hc _ ih =>
      cases first with
      | nil => exact absurd (List.cons.inj hraw).1.symm hc
      | cons d first =>
        obtain ⟨rfl, htail⟩ := List.cons.inj hraw
        obtain ⟨x, e, y, rfl, hx, he, hy⟩ := ih htail
        exact ⟨d :: x, e, y, rfl, .plain hc hx, he, hy⟩
    | @reference c other value raw hother hc hrest ih =>
      cases first with
      | nil =>
        obtain ⟨rfl, rfl⟩ := name_inj hname hother (List.cons.inj hraw).2
        exact ⟨[], c, value, rfl, .nil, hc, hrest⟩
      | cons d first =>
        obtain ⟨rfl, htail⟩ := List.cons.inj hraw
        obtain ⟨between, rfl, hbehind⟩ := exists_behind_name hother htail
        obtain ⟨x, e, y, rfl, hx, he, hy⟩ := ih hbehind.symm
        exact ⟨c :: x, e, y, rfl, .reference hother hc hx, he, hy⟩
  · rintro ⟨x, c, y, rfl, hx, hc, hy⟩
    exact hx.append (.reference hname hc hy)

end Escapes

/-! ## Attributes -/

/-- A key as it can be written: some characters, but neither space nor the equals sign. -/
def IsKey (key : List Char) : Prop := key ≠ [] ∧ ∀ c ∈ key, c ≠ '=' ∧ isSpace c = false

/-- A way to write a list of attributes: keys and quoted values with space around them. -/
inductive Lists : List RawAttribute → List Char → Prop
  | nil {space : List Char} (hspace : space.all isSpace) : Lists [] space
  | cons {a : RawAttribute} {attributes : List RawAttribute}
      {before beforeEquals afterEquals rest : List Char} {quote : Char}
      (hbefore : before.all isSpace) (hkey : IsKey a.key)
      (hbeforeEquals : beforeEquals.all isSpace) (hafterEquals : afterEquals.all isSpace)
      (hquote : quote = '"' ∨ quote = '\'') (hunquoted : quote ∉ a.value)
      (hnew : a.key ∉ attributes.map (·.key)) (h : Lists attributes rest) :
    Lists (a :: attributes) (before ++ (a.key ++
      (beforeEquals ++ '=' :: (afterEquals ++ quote :: (a.value ++ quote :: rest)))))

/-- A way to write an attribute: its name is the key, and its value is escaped. -/
structure IsWrittenAs (a : Attribute) (raw : RawAttribute) : Prop where
  key : raw.key = a.name.toList
  value : Escapes a.value.toList raw.value

/-- A way to write the attributes of an element. -/
def WritesAttributes (attributes : List Attribute) (raw : List Char) : Prop :=
  ∃ raws, Lists raws raw ∧ List.Forall₂ IsWrittenAs attributes raws

/-- Attributes with distinct names can be written. -/
theorem exists_writesAttributes {attributes : List Attribute}
    (hdistinct : (attributes.map (·.name)).Nodup)
    (hkeys : ∀ a ∈ attributes, IsKey a.name.toList) :
    ∃ raw, WritesAttributes attributes raw := by
  suffices h : ∃ raws raw, Lists raws raw ∧ List.Forall₂ IsWrittenAs attributes raws ∧
      raws.map (·.key) = attributes.map (·.name.toList) by
    obtain ⟨raws, raw, hraw, hspells, -⟩ := h
    exact ⟨raw, raws, hraw, hspells⟩
  induction attributes with
  | nil => exact ⟨[], [], .nil rfl, .nil, rfl⟩
  | cons a attributes ih =>
    obtain ⟨hnew, hdistinct⟩ := List.nodup_cons.mp hdistinct
    obtain ⟨hkey, hkeys⟩ := List.forall_mem_cons.mp hkeys
    obtain ⟨raws, rest, hrest, hspells, hnames⟩ := ih hdistinct hkeys
    obtain ⟨value, hvalue, hunquoted⟩ := exists_escapes a.value.toList
    have hother : a.name.toList ∉ raws.map (·.key) := by
      rw [hnames]
      intro hmem
      obtain ⟨b, hb, heq⟩ := List.mem_map.mp hmem
      exact hnew (List.mem_map.mpr ⟨b, hb, String.toList_inj.mp heq⟩)
    have hlists := @Lists.cons ⟨a.name.toList, value⟩ raws [' '] [] [] rest '"' rfl hkey rfl rfl
      (.inl rfl) hunquoted hother hrest
    exact ⟨_, _, hlists, .cons ⟨rfl, hvalue⟩ hspells, by simp [hnames]⟩

/-! ## Readers -/

/-- A reader reads back what was written. -/
structure Reader.UndoesWriting (r : Reader) : Prop where
  unescape {value raw : List Char} (h : Escapes value raw) : r.unescape raw = .ok value
  attributes {raws : List RawAttribute} {raw : List Char} (h : Lists raws raw) :
    r.attributes raw = (raws, none)

/-- A reader reads the values that can be written and no others. -/
def Reader.ReadsValues (r : Reader) : Prop :=
  ∀ raw value, r.unescape raw = .ok value ↔ Escapes value raw

/-- Behind a text that it has read, a reader delivers a reference by its name. One in which a tag
begins is a fault. -/
structure Reader.DeliversReferences (r : Reader) : Prop where
  delivered {before name after : List Char} (h : (r.events (.ofList before)).2 = none)
    (hname : IsName name) (hopen : '<' ∉ name) :
    ∃ later fault, r.events (.ofList (before ++ referenceBefore name after)) =
      ((r.events (.ofList before)).1 ++ .reference name :: later, fault)
  unclosed {before name after : List Char} (h : (r.events (.ofList before)).2 = none)
    (hname : IsName name) (hopen : '<' ∈ name) :
    ∃ fault, r.events (.ofList (before ++ referenceBefore name after)) =
      ((r.events (.ofList before)).1, some fault)

end TreeAxes.Markup
