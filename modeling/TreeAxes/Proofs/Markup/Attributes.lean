import Mathlib.Data.List.TakeWhile
import TreeAxes.Markup.Build
import TreeAxes.Proofs.Markup.Writing

/-!
# Scanning values and attributes

The scanner reads exactly the values that can be written, and it reads lists of attributes back
however they were written.
-/

namespace TreeAxes.Markup

variable {value raw name cs : List Char} {c : Char}

/-! ## Names -/

theorem predefined?_eq_some_iff : predefined? name = some c ↔ IsNamed name c := by
  rw [predefined?, IsNamed, namedCharacters]
  split
  · next heq => simp [heq, eq_comm]
  · next heq => simp [heq, eq_comm]
  · next heq => simp [heq, eq_comm]
  · next heq => simp [heq, eq_comm]
  · next heq => simp [heq, eq_comm]
  · simp_all

theorem attributeReference?_code : attributeReference? ('#' :: cs) = some c ↔
    IsStrict ('#' :: cs) c := by
  have hzero : c.toNat ≠ 0 ↔ c ≠ '\x00' := not_congr (@Char.toNat_inj c '\x00')
  rw [attributeReference?, Numeral.number?_numeric, isStrict_code, Numeral.denotes_iff, ← hzero]
  cases (Numeral.ofCode cs).signed with
  | true => simp
  | false => simp [Option.bind_eq_some_iff, Option.filter_eq_some_iff, scalar?_eq_some_iff]

theorem attributeReference?_eq_some_iff :
    attributeReference? name = some c ↔ StandsFor name c := by
  by_cases hname : ∃ code, name = '#' :: code
  · obtain ⟨code, rfl⟩ := hname
    simp [attributeReference?_code, StandsFor, not_isNamed_code]
  · have hstrict : ¬IsStrict name c := by
      rintro ⟨m, rfl, -⟩
      exact hname ⟨_, rfl⟩
    rw [attributeReference?]
    · simp [predefined?_eq_some_iff, StandsFor, hstrict]
    · exact fun code heq => hname ⟨code, heq⟩

/-! ## Values -/

theorem unescapeFrom_reference (hname : IsName name) (begun raw : List Char) :
    unescapeFrom (some begun) (name ++ ';' :: raw) =
      unescapeFrom (some (name.reverse ++ begun)) (';' :: raw) := by
  induction name generalizing begun with
  | nil => rfl
  | cons x name ih =>
    obtain ⟨⟨hsemicolon, hampersand⟩, hname⟩ := List.forall_mem_cons.mp hname
    rw [List.cons_append, unescapeFrom, if_neg hsemicolon, if_neg hampersand, ih hname,
      List.reverse_cons, List.append_assoc]
    rfl

/-- Reading a value undoes the way it is written. -/
theorem Escapes.unescape (h : Escapes value raw) : Markup.unescape raw = .ok value := by
  rw [Markup.unescape]
  induction h with
  | nil => rfl
  | plain hc _ ih =>
    rw [unescapeFrom, if_neg hc, ih]
    rfl
  | @reference c name value raw hname hc _ ih =>
    rw [referenceBefore, unescapeFrom, if_pos rfl, unescapeFrom_reference hname, unescapeFrom,
      if_pos rfl, List.append_nil, List.reverse_reverse, attributeReference?_eq_some_iff.mpr hc, ih]
    rfl

theorem exists_of_map_eq_ok {ε α β : Type} {x : Except ε α} {f : α → β} {b : β}
    (h : x.map f = .ok b) : ∃ a, x = .ok a ∧ b = f a := by
  cases x with
  | error fault => cases h
  | ok a =>
    cases h
    exact ⟨a, rfl, rfl⟩

/-- What is read is written, behind the part of a reference that has begun. -/
theorem escapes_of_unescapeFrom {begun : Option (List Char)} (hbegun : ∀ name ∈ begun, IsName name)
    (h : unescapeFrom begun cs = .ok value) :
    Escapes value (begun.elim cs fun name => '&' :: (name.reverse ++ cs)) := by
  fun_induction unescapeFrom begun cs generalizing value with
  | case1 =>
    cases h
    exact .nil
  | case2 => cases h
  | case3 cs ih => exact ih (by simp [IsName]) h
  | case4 c cs hc ih =>
    obtain ⟨value, hvalue, rfl⟩ := exists_of_map_eq_ok h
    exact .plain hc (ih hbegun hvalue)
  | case5 begun cs d hd ih =>
    obtain ⟨value, hvalue, rfl⟩ := exists_of_map_eq_ok h
    have hname : IsName begun.reverse := fun x hx => hbegun begun rfl x (List.mem_reverse.mp hx)
    exact .reference hname (attributeReference?_eq_some_iff.mp hd) (ih nofun hvalue)
  | case6 => cases h
  | case7 => cases h
  | case8 begun c cs hsemicolon hampersand ih =>
    have hname : IsName (c :: begun) :=
      List.forall_mem_cons.mpr ⟨⟨hsemicolon, hampersand⟩, hbegun begun rfl⟩
    simpa using ih (by rintro name ⟨⟩; exact hname) h

/-! ## Lists -/

theorem dropWhile_space {space cs : List Char} (hspace : space.all isSpace)
    (hcs : ∀ c ∈ cs.head?, isSpace c = false) : (space ++ cs).dropWhile isSpace = cs :=
  (span_append (List.all_eq_true.mp hspace) hcs).2

theorem readValue?_eq {key beforeEquals afterEquals raw rest : List Char} {quote : Char}
    (hbeforeEquals : beforeEquals.all isSpace) (hafterEquals : afterEquals.all isSpace)
    (hquote : quote = '"' ∨ quote = '\'') (hunquoted : quote ∉ raw) :
    readValue? key (beforeEquals ++ '=' :: (afterEquals ++ quote :: (raw ++ quote :: rest))) =
      .ok (raw, rest) := by
  have hspace : ∀ c ∈ (quote :: (raw ++ quote :: rest)).head?, isSpace c = false := by
    rintro c ⟨⟩
    obtain rfl | rfl := hquote <;> rfl
  obtain ⟨htake, hdrop⟩ := @span_append (fun c => decide (c ≠ quote)) raw (quote :: rest)
    (fun c hc => decide_eq_true fun heq => hunquoted (heq ▸ hc)) (by rintro c ⟨⟩; simp)
  rw [readValue?, dropWhile_space hbeforeEquals (by rintro c ⟨⟩; rfl)]
  simp only [dropWhile_space hafterEquals hspace, if_pos hquote, hdrop, htake]

theorem readAttributes_of_space {known : List (List Char)} (h : cs.all isSpace) :
    readAttributes known cs = ([], none) := by
  have hnone : cs.dropWhile isSpace = [] := List.dropWhile_eq_nil_iff.mpr (List.all_eq_true.mp h)
  rw [readAttributes]
  split
  · rfl
  · next hsome =>
    rw [hnone] at hsome
    cases hsome

/-- An attribute with a new key is read before the rest. -/
theorem readAttributes_cons {known : List (List Char)} {key text value rest : List Char}
    {first : Char} (hcs : cs.dropWhile isSpace = first :: text)
    (hkey : (splitKey first text).1 = key) (hnew : key ∉ known)
    (hvalue : readValue? key (splitKey first text).2 = .ok (value, rest)) :
    readAttributes known cs =
      (⟨key, value⟩ :: (readAttributes (key :: known) rest).1,
        (readAttributes (key :: known) rest).2) := by
  subst hkey
  rw [readAttributes]
  split
  · next hnone =>
    rw [hcs] at hnone
    cases hnone
  · next hsome =>
    rw [hcs] at hsome
    cases hsome
    rw [if_neg fun h => hnew (List.contains_iff_mem.mp h)]
    split
    · next hfault =>
      rw [hvalue] at hfault
      cases hfault
    · next hread =>
      rw [hvalue] at hread
      cases hread
      rfl

/-- A key is split off where space or the equals sign follows it. -/
theorem splitKey_eq {key beforeEquals text : List Char} (hkey : IsKey key)
    (hbeforeEquals : beforeEquals.all isSpace) :
    ∃ first more, key = first :: more ∧ isSpace first = false ∧
      splitKey first (more ++ (beforeEquals ++ '=' :: text)) =
        (key, beforeEquals ++ '=' :: text) := by
  obtain ⟨hne, hkey⟩ := hkey
  obtain ⟨first, more, rfl⟩ := List.exists_cons_of_ne_nil hne
  have hmore : ∀ c ∈ more, (decide (c ≠ '=') && !isSpace c) = true := by
    intro c hc
    obtain ⟨hequals, hspace⟩ := hkey c (List.mem_cons_of_mem first hc)
    simp [hequals, hspace]
  have hstop : ∀ c ∈ (beforeEquals ++ '=' :: text).head?,
      (decide (c ≠ '=') && !isSpace c) = false := by
    cases beforeEquals with
    | nil => rintro c ⟨⟩; rfl
    | cons space more =>
      rintro c ⟨⟩
      rw [List.all_cons, Bool.and_eq_true_iff] at hbeforeEquals
      simp [hbeforeEquals.1]
  obtain ⟨htake, hdrop⟩ := span_append hmore hstop
  refine ⟨first, more, rfl, (hkey first List.mem_cons_self).2, ?_⟩
  rw [splitKey, htake, hdrop]

/-- Reading a list undoes the way it is written. -/
theorem Lists.read {raws : List RawAttribute} (h : Lists raws raw) {known : List (List Char)}
    (hknown : ∀ a ∈ raws, a.key ∉ known) : readAttributes known raw = (raws, none) := by
  induction h generalizing known with
  | nil hspace => exact readAttributes_of_space hspace
  | @cons a raws before beforeEquals afterEquals rest quote hbefore hkey hbeforeEquals hafterEquals
      hquote hunquoted hnew _ ih =>
    obtain ⟨first, more, hname, hfirst, hsplit⟩ :=
      @splitKey_eq _ _ (afterEquals ++ quote :: (a.value ++ quote :: rest)) hkey hbeforeEquals
    have hcs : (before ++ (a.key ++
        (beforeEquals ++ '=' :: (afterEquals ++ quote :: (a.value ++ quote :: rest))))).dropWhile
          isSpace = first :: (more ++
            (beforeEquals ++ '=' :: (afterEquals ++ quote :: (a.value ++ quote :: rest)))) := by
      rw [hname]
      exact dropWhile_space hbefore (by rintro c ⟨⟩; exact hfirst)
    have hvalue := @readValue?_eq a.key _ _ _ rest _ hbeforeEquals hafterEquals hquote hunquoted
    have hothers : ∀ b ∈ raws, b.key ∉ a.key :: known := by
      intro b hb hmem
      obtain heq | hmem := List.mem_cons.mp hmem
      · exact hnew (List.mem_map.mpr ⟨b, hb, heq⟩)
      · exact hknown b (List.mem_cons_of_mem a hb) hmem
    rw [readAttributes_cons hcs (by rw [hsplit]) (hknown a List.mem_cons_self)
      (by rw [hsplit]; exact hvalue), ih hothers]

/-! ## The scanner -/

theorem scanner_knowsNames : scanner.KnowsNames := by
  intro name data
  show (predefined? name).map ([·]) = some data ↔ _
  simp only [Option.map_eq_some_iff, predefined?_eq_some_iff]
  exact exists_congr fun c => and_comm.trans (and_congr_left' eq_comm)

/-- The values that are read are those that can be written. -/
theorem scanner_readsValues : scanner.ReadsValues :=
  fun _ _ => ⟨escapes_of_unescapeFrom nofun, Escapes.unescape⟩

theorem scanner_undoesWriting : scanner.UndoesWriting where
  unescape h := h.unescape
  attributes h := h.read fun _ _ => List.not_mem_nil

/-- A tag without attributes opens an element without any. -/
theorem openElement_scanner (name : List Char) :
    Builder.openElement scanner name [] = .ok ⟨name, [], []⟩ := by
  have hnone : scanner.attributes [] = ([], none) := readAttributes_of_space rfl
  rw [Builder.openElement, hnone]
  rfl

end TreeAxes.Markup
