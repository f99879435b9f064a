import Mathlib.Data.Nat.Digits.Defs
import TreeAxes.Markup.Reference

/-!
# Numeric references

A numeric reference writes the code point of its character in positional notation. A name is such a
numeral in one way at most, so this way decides what the name stands for. By the rules of markup,
numerals with a plus sign and numerals of the code point zero stand for nothing. Text takes these as
well, and no others.
-/

namespace TreeAxes.Markup

variable {base n : Nat} {cs name code : List Char} {c d : Char}

/-! ## Digits -/

/-- A value in front of the digits counts as a digit of its own. -/
theorem digitsFrom?_eq (base value : Nat) (cs : List Char) :
    digitsFrom? base value cs =
      (cs.mapM (digit? base)).map fun values => Nat.ofDigits base (values.reverse ++ [value]) := by
  induction cs generalizing value with
  | nil => simp [digitsFrom?]
  | cons c cs ih =>
    rw [digitsFrom?, List.mapM_cons]
    cases digit? base c with
    | none => rfl
    | some d =>
      have hshift (values : List Nat) : Nat.ofDigits base (values.reverse ++ [value * base + d]) =
          Nat.ofDigits base ((d :: values).reverse ++ [value]) := by
        rw [List.reverse_cons, List.append_assoc, Nat.ofDigits_append, Nat.ofDigits_append]
        simp [Nat.ofDigits, Nat.mul_comm, Nat.add_comm]
      simp only [ih, hshift]
      cases cs.mapM (digit? base) <;> rfl

theorem number?_eq_some_iff : number? base cs = some n ↔
    cs ≠ [] ∧ n < UInt32.size ∧
      ∃ values, cs.mapM (digit? base) = some values ∧ Nat.ofDigits base values.reverse = n := by
  cases cs with
  | nil => simp [number?]
  | cons c cs =>
    rw [number?, if_neg (by simp), digitsFrom?_eq, Option.filter_eq_some_iff,
      Option.map_eq_some_iff]
    simp only [Nat.ofDigits_append_zero, decide_eq_true_eq]
    constructor
    · intro ⟨hvalues, hsize⟩
      exact ⟨List.cons_ne_nil c cs, hsize, hvalues⟩
    · intro ⟨_, hsize, hvalues⟩
      exact ⟨hvalues, hsize⟩

/-- The first character of a number is a digit. -/
theorem number?_of_digit?_eq_none (h : digit? base c = none) : number? base (c :: cs) = none := by
  rw [number?, if_neg (by simp), digitsFrom?, h]
  rfl

theorem digit?_ne_none_of_mem {values : List Nat} (h : cs.mapM (digit? base) = some values)
    (hc : c ∈ cs) : digit? base c ≠ none := by
  induction cs generalizing values with
  | nil => cases hc
  | cons first cs ih =>
    rw [List.mapM_cons] at h
    obtain ⟨d, hd, h⟩ := Option.bind_eq_some_iff.mp h
    obtain ⟨values, hvalues, -⟩ := Option.bind_eq_some_iff.mp h
    cases hc with
    | head => simp [hd]
    | tail _ hc => exact ih hvalues hc

theorem digit?_plus : digit? base '+' = none := by
  simp [digit?]

theorem digit?_x : digit? base 'x' = none := by
  simp [digit?]

theorem scalar?_eq_some_iff : scalar? n = some c ↔ n = c.toNat := by
  constructor
  · intro h
    by_cases hvalid : n.isValidChar
    · rw [scalar?, dif_pos hvalid] at h
      cases h
      rfl
    · rw [scalar?, dif_neg hvalid] at h
      cases h
  · rintro rfl
    have hvalid : c.toNat.isValidChar := c.valid
    rw [scalar?, dif_pos hvalid]
    rfl

/-! ## Numerals -/

/-- A code point as a reference can write it. -/
structure Numeral where
  hexadecimal : Bool
  signed : Bool
  digits : List Char

namespace Numeral

variable {m : Numeral}

def radix (m : Numeral) : Nat := if m.hexadecimal then 16 else 10

/-- The name that a numeral gives a reference. -/
def spelling (m : Numeral) : List Char :=
  '#' :: ((if m.hexadecimal then ['x'] else []) ++ ((if m.signed then ['+'] else []) ++ m.digits))

/-- The digits of a numeral, the most significant one first, make the code point of a character. -/
def Denotes (m : Numeral) (c : Char) : Prop :=
  m.digits ≠ [] ∧ ∃ values, m.digits.mapM (digit? m.radix) = some values ∧
    Nat.ofDigits m.radix values.reverse = c.toNat

theorem denotes_iff : m.Denotes c ↔ number? m.radix m.digits = some c.toNat := by
  rw [Denotes, number?_eq_some_iff]
  constructor
  · intro ⟨hdigits, hvalues⟩
    exact ⟨hdigits, c.val.toNat_lt_size, hvalues⟩
  · intro ⟨hdigits, _, hvalues⟩
    exact ⟨hdigits, hvalues⟩

/-- A numeral denotes one character. -/
theorem Denotes.inj (hc : m.Denotes c) (hd : m.Denotes d) : c = d :=
  Char.toNat_inj.mp (Option.some.inj ((denotes_iff.mp hc).symm.trans (denotes_iff.mp hd)))

/-- The numeral that is written behind `#`. -/
def ofCode : List Char → Numeral
  | 'x' :: '+' :: digits => ⟨true, true, digits⟩
  | 'x' :: digits => ⟨true, false, digits⟩
  | '+' :: digits => ⟨false, true, digits⟩
  | digits => ⟨false, false, digits⟩

theorem spelling_ofCode (code : List Char) : (ofCode code).spelling = '#' :: code := by
  fun_cases ofCode code <;> rfl

/-- A name is a numeral in one way at most. -/
theorem Denotes.eq_ofCode (h : m.Denotes c) (hname : m.spelling = '#' :: code) :
    m = ofCode code := by
  obtain ⟨hexadecimal, signed, digits⟩ := m
  obtain ⟨first, more, rfl⟩ := List.exists_cons_of_ne_nil h.1
  have hdigit (hnone : digit? (radix _) first = none) : False :=
    Option.some_ne_none _ ((denotes_iff.mp h).symm.trans (number?_of_digit?_eq_none hnone))
  have hplus : first ≠ '+' := by
    rintro rfl
    exact hdigit digit?_plus
  have hx : first ≠ 'x' := by
    rintro rfl
    exact hdigit digit?_x
  obtain rfl := (List.cons.inj hname).2
  cases hexadecimal <;> cases signed <;> simp [ofCode, hplus, hx]

/-- A name is a numeral if the one that is written in it is one. -/
theorem exists_spelling {p : Numeral → Prop} :
    (∃ m : Numeral, m.spelling = '#' :: code ∧ m.Denotes c ∧ p m) ↔
      (ofCode code).Denotes c ∧ p (ofCode code) := by
  constructor
  · rintro ⟨m, hspelling, hdenotes, hm⟩
    obtain rfl := hdenotes.eq_ofCode hspelling
    exact ⟨hdenotes, hm⟩
  · intro ⟨hdenotes, hm⟩
    exact ⟨ofCode code, spelling_ofCode code, hdenotes, hm⟩

/-- A numeral that may have a sign is read by its digits. -/
theorem signedNumber?_numeric (code : List Char) :
    signedNumber? (numeric code).1 (numeric code).2 =
      number? (ofCode code).radix (ofCode code).digits := by
  fun_cases ofCode code with
  | case1 digits => rfl
  | case2 digits hplus => simp [numeric, signedNumber?, radix]
  | case3 digits => simp [numeric, signedNumber?, radix]
  | case4 => simp [numeric, signedNumber?, radix]

/-- Without signs, a numeral that has one is not a number. -/
theorem number?_numeric (code : List Char) :
    number? (numeric code).1 (numeric code).2 =
      if (ofCode code).signed then none else number? (ofCode code).radix (ofCode code).digits := by
  fun_cases ofCode code with
  | case1 digits => exact number?_of_digit?_eq_none digit?_plus
  | case2 digits hplus => simp [numeric, radix]
  | case3 digits => exact number?_of_digit?_eq_none digit?_plus
  | case4 => simp [numeric, radix]

end Numeral

theorem reference?_code {r : Reader} {data : List Char} :
    r.reference? ('#' :: code) = some data ↔
      ∃ c, data = [c] ∧ (Numeral.ofCode code).Denotes c := by
  rw [Reader.reference?, Numeral.signedNumber?_numeric, Option.map_eq_some_iff]
  simp only [Numeral.denotes_iff, Option.bind_eq_some_iff, scalar?_eq_some_iff]
  constructor
  · rintro ⟨c, ⟨_, hnumber, rfl⟩, rfl⟩
    exact ⟨c, rfl, hnumber⟩
  · rintro ⟨c, rfl, hnumber⟩
    exact ⟨c, ⟨_, hnumber, rfl⟩, rfl⟩

/-! ## Names -/

/-- The characters that have a name. -/
def namedCharacters : List (String × Char) :=
  [("lt", '<'), ("gt", '>'), ("amp", '&'), ("apos", '\''), ("quot", '"')]

/-- Whether a name is that of a character. -/
def IsNamed (name : List Char) (c : Char) : Prop := (String.ofList name, c) ∈ namedCharacters

/-- The names of characters are no numerals, and no tag begins in them. -/
theorem IsNamed.plain (h : IsNamed name c) : name.head? ≠ some '#' ∧ '<' ∉ name := by
  have hplain : ∀ named ∈ namedCharacters,
      named.1.toList.head? ≠ some '#' ∧ '<' ∉ named.1.toList := by decide
  simpa using hplain _ h

theorem not_isNamed_code : ¬IsNamed ('#' :: code) c := fun h => h.plain.1 rfl

/-- A numeral without a sign whose code point is not zero. -/
def IsStrict (name : List Char) (c : Char) : Prop :=
  ∃ m : Numeral, m.spelling = name ∧ m.Denotes c ∧ m.signed = false ∧ c ≠ '\x00'

/-- A numeral with a sign or of code point zero. -/
def IsLoose (name : List Char) (c : Char) : Prop :=
  ∃ m : Numeral, m.spelling = name ∧ m.Denotes c ∧ (m.signed ∨ c = '\x00')

/-- What a name stands for by the rules of markup. -/
def StandsFor (name : List Char) (c : Char) : Prop := IsNamed name c ∨ IsStrict name c

theorem isStrict_code : IsStrict ('#' :: code) c ↔
    (Numeral.ofCode code).Denotes c ∧ (Numeral.ofCode code).signed = false ∧ c ≠ '\x00' :=
  Numeral.exists_spelling

theorem isLoose_code : IsLoose ('#' :: code) c ↔
    (Numeral.ofCode code).Denotes c ∧ ((Numeral.ofCode code).signed ∨ c = '\x00') :=
  Numeral.exists_spelling

/-- A numeral is strict or loose. -/
theorem isStrict_or_isLoose_iff : IsStrict name c ∨ IsLoose name c ↔
    ∃ m : Numeral, m.spelling = name ∧ m.Denotes c := by
  constructor
  · rintro (⟨m, hspelling, hdenotes, -⟩ | ⟨m, hspelling, hdenotes, -⟩)
    · exact ⟨m, hspelling, hdenotes⟩
    · exact ⟨m, hspelling, hdenotes⟩
  · rintro ⟨m, hspelling, hdenotes⟩
    by_cases hloose : m.signed ∨ c = '\x00'
    · exact .inr ⟨m, hspelling, hdenotes, hloose⟩
    · rw [not_or, Bool.not_eq_true] at hloose
      exact .inl ⟨m, hspelling, hdenotes, hloose⟩

/-- A loose numeral stands for nothing. -/
theorem IsLoose.not_standsFor (h : IsLoose name c) : ¬StandsFor name d := by
  have hspelling : ∃ code, name = '#' :: code := by
    obtain ⟨m, rfl, -⟩ := h
    exact ⟨_, rfl⟩
  obtain ⟨code, rfl⟩ := hspelling
  obtain ⟨hc, hloose⟩ := isLoose_code.mp h
  rintro (hnamed | hstrict)
  · exact not_isNamed_code hnamed
  · obtain ⟨hd, hsigned, hzero⟩ := isStrict_code.mp hstrict
    obtain rfl := hc.inj hd
    cases hloose with
    | inl hsign =>
      rw [hsigned] at hsign
      cases hsign
    | inr hnul => exact hzero hnul

/-- A reader knows the names of characters and no others. -/
def Reader.KnowsNames (r : Reader) : Prop :=
  ∀ name data, r.predefined? name = some data ↔ ∃ c, data = [c] ∧ IsNamed name c

namespace Reader

variable {r : Reader} {data : List Char}

/-- What a reference stands for in text: a named character or what a numeral denotes. -/
theorem reference?_eq_some_iff (hr : r.KnowsNames) : r.reference? name = some data ↔
    ∃ c, data = [c] ∧ (IsNamed name c ∨ ∃ m : Numeral, m.spelling = name ∧ m.Denotes c) := by
  by_cases hname : ∃ code, name = '#' :: code
  · obtain ⟨code, rfl⟩ := hname
    have hspelling (c : Char) := @Numeral.exists_spelling code c fun _ => True
    simp only [and_true] at hspelling
    simp [reference?_code, not_isNamed_code, hspelling]
  · have hnone (m : Numeral) : m.spelling ≠ name := fun heq => hname ⟨_, heq.symm⟩
    rw [reference?]
    · simp [hr name data, hnone]
    · exact fun code heq => hname ⟨code, heq⟩

/-- Text takes what names stand for by the rules of markup, and loose numerals. -/
theorem reference?_iff (hr : r.KnowsNames) : r.reference? name = some data ↔
    ∃ c, data = [c] ∧ (StandsFor name c ∨ IsLoose name c) := by
  simp only [reference?_eq_some_iff hr, StandsFor, or_assoc, isStrict_or_isLoose_iff]

/-- No tag begins in a name that stands for a character. -/
theorem not_mem_of_reference? (hr : r.KnowsNames) (h : r.reference? name = some data) :
    '<' ∉ name := by
  obtain ⟨c, -, hnamed | ⟨m, rfl, -, values, hvalues, -⟩⟩ := (reference?_eq_some_iff hr).mp h
  · exact hnamed.plain.2
  · intro hmem
    have hdigits : '<' ∈ m.digits := by
      cases hx : m.hexadecimal <;> cases hplus : m.signed <;>
        simpa [Numeral.spelling, hx, hplus] using hmem
    exact digit?_ne_none_of_mem hvalues hdigits (by simp [digit?])

end Reader

end TreeAxes.Markup
