import TreeAxes.Proofs.Markup.Attributes

/-!
# Scanning on

An event is scanned up to its own end, so what follows does not change it; only a piece of character
data goes on until markup or a reference begins. Hence a text can be scanned in two parts wherever
one of these begins, and a reference is an event of its own behind any text that was scanned.
-/

namespace TreeAxes.Markup

variable {cs rest before after separator : List Char} {event : Event}

/-- Whether no piece of character data goes on with a text. -/
def BreaksText (cs : List Char) : Prop := ∀ c ∈ cs.head?, isInText c = false

/-! ## Events -/

/-- Characters that another one ends are the same however the text goes on behind it. -/
theorem span_append_of_dropWhile {p : Char → Bool} {c : Char} (h : cs.dropWhile p = c :: rest)
    (more : List Char) :
    (cs ++ more).takeWhile p = cs.takeWhile p ∧
      (cs ++ more).dropWhile p = c :: (rest ++ more) := by
  have hlength : (cs.takeWhile p).length ≠ cs.length := by
    have hwhole := congrArg List.length (@List.takeWhile_append_dropWhile _ p cs)
    rw [List.length_append, h, List.length_cons] at hwhole
    omega
  constructor
  · rw [List.takeWhile_append, if_neg hlength]
  · rw [List.dropWhile_append, h]
    rfl

theorem length_le_of_splitAt?_eq_some (h : splitAt? separator cs = some (before, after)) :
    separator.length ≤ cs.length := by
  induction cs generalizing before after with
  | nil =>
    rw [splitAt?] at h
    split at h
    · next hempty => simp [List.isEmpty_iff.mp hempty]
    · cases h
  | cons c cs ih =>
    rw [splitAt?] at h
    split at h
    · next hprefix => exact (List.isPrefixOf_iff_prefix.mp hprefix).length_le
    · obtain ⟨⟨before, after⟩, hsplit, -⟩ := Option.map_eq_some_iff.mp h
      exact Nat.le_succ_of_le (ih hsplit)

/-- What is long enough begins with a text or does not, whatever follows. -/
theorem isPrefixOf_append (hlength : separator.length ≤ cs.length) (more : List Char) :
    separator.isPrefixOf (cs ++ more) = separator.isPrefixOf cs := by
  rw [Bool.eq_iff_iff, List.isPrefixOf_iff_prefix, List.isPrefixOf_iff_prefix]
  constructor
  · intro hprefix
    exact List.prefix_of_prefix_length_le hprefix (List.prefix_append cs more) hlength
  · intro hprefix
    exact hprefix.trans (List.prefix_append cs more)

theorem splitAt?_append (h : splitAt? separator cs = some (before, after)) (more : List Char) :
    splitAt? separator (cs ++ more) = some (before, after ++ more) := by
  induction cs generalizing before with
  | nil =>
    rw [splitAt?] at h
    split at h
    · next hempty =>
      cases h
      rw [List.isEmpty_iff.mp hempty]
      cases more <;> rfl
    · cases h
  | cons c cs ih =>
    have hlength := length_le_of_splitAt?_eq_some h
    have hprefix := isPrefixOf_append hlength more
    rw [splitAt?] at h
    rw [List.cons_append] at hprefix ⊢
    rw [splitAt?, hprefix]
    split at h
    · next hbegins =>
      cases h
      rw [if_pos hbegins, ← List.cons_append, List.drop_append_of_le_length hlength]
    · next hbegins =>
      obtain ⟨⟨before, after⟩, hsplit, heq⟩ := Option.map_eq_some_iff.mp h
      cases heq
      rw [if_neg hbegins, ih hsplit]
      rfl

theorem splitTag?_append {quote : Option Char} (h : splitTag? quote cs = some (before, after))
    (more : List Char) : splitTag? quote (cs ++ more) = some (before, after ++ more) := by
  induction cs generalizing quote before with
  | nil => cases h
  | cons c cs ih =>
    rw [List.cons_append]
    cases quote with
    | none =>
      rw [splitTag?] at h ⊢
      dsimp only at h ⊢
      split at h
      · next hend =>
        cases h
        rw [if_pos hend]
      · next hend =>
        obtain ⟨⟨before, after⟩, hsplit, heq⟩ := Option.map_eq_some_iff.mp h
        cases heq
        rw [if_neg hend, ih hsplit]
        rfl
    | some q =>
      rw [splitTag?] at h ⊢
      dsimp only at h ⊢
      obtain ⟨⟨before, after⟩, hsplit, heq⟩ := Option.map_eq_some_iff.mp h
      cases heq
      rw [ih hsplit]
      rfl

theorem afterDoctype?_append {depth : Nat} (h : afterDoctype? depth cs = some rest)
    (more : List Char) : afterDoctype? depth (cs ++ more) = some (rest ++ more) := by
  fun_induction afterDoctype? depth cs with
  | case1 => cases h
  | case2 depth cs ih => simpa [afterDoctype?] using ih h
  | case3 cs =>
    cases h
    rfl
  | case4 cs depth _ ih => simpa [afterDoctype?] using ih h
  | case5 depth c cs hopens hcloses ih => simpa [afterDoctype?, hopens, hcloses] using ih h

/-- Space alone does not end a document type. -/
theorem afterDoctype?_of_space {depth : Nat} (h : cs.all isSpace) :
    afterDoctype? depth cs = none := by
  fun_induction afterDoctype? depth cs with
  | case1 => rfl
  | case2 => simp [isSpace] at h
  | case3 => simp [isSpace] at h
  | case4 => simp [isSpace] at h
  | case5 depth c cs _ _ ih =>
    rw [List.all_cons, Bool.and_eq_true] at h
    exact ih h.2

/-- A document type that ends and has a name keeps it, whatever follows. -/
theorem exists_name_of_afterDoctype? {depth : Nat} (h : afterDoctype? depth cs = some rest)
    (hnamed : ∀ tail, cs.dropWhile isSpace ≠ '>' :: tail) (more : List Char) :
    ∃ c tail, c ≠ '>' ∧ (cs ++ more).dropWhile isSpace = c :: tail := by
  cases hname : cs.dropWhile isSpace with
  | nil =>
    rw [List.dropWhile_eq_nil_iff] at hname
    rw [afterDoctype?_of_space (List.all_eq_true.mpr hname)] at h
    cases h
  | cons c tail =>
    have hne : c ≠ '>' := fun heq => hnamed tail (by rw [hname, heq])
    exact ⟨c, _, hne, (span_append_of_dropWhile hname more).2⟩

theorem readDeclaration_append (h : readDeclaration cs = .ok (event, rest)) (more : List Char) :
    readDeclaration (cs ++ more) = .ok (event, rest ++ more) := by
  have hbegins {separator : List Char} (hlength : separator.length ≤ cs.length) :=
    isPrefixOf_append hlength more
  rw [readDeclaration] at h ⊢
  split at h
  · next hcomment =>
    have hlength : 2 ≤ cs.length := (List.isPrefixOf_iff_prefix.mp hcomment).length_le
    rw [hbegins (by exact hlength), if_pos hcomment, List.drop_append_of_le_length hlength]
    split at h
    · next hsplit =>
      cases h
      rw [splitAt?_append hsplit]
    · cases h
  next hcomment =>
  split at h
  · next hcdata =>
    have hlength : 7 ≤ cs.length := (List.isPrefixOf_iff_prefix.mp hcdata).length_le
    rw [hbegins (Nat.le_trans (by decide) hlength), if_neg hcomment, hbegins (by exact hlength),
      if_pos hcdata, List.drop_append_of_le_length hlength]
    split at h
    · next hsplit =>
      cases h
      rw [splitAt?_append hsplit]
    · cases h
  next hcdata =>
  split at h
  · next hdoctype =>
    have hlength : 7 ≤ cs.length := by
      have htake : min 7 cs.length = 7 := by
        simpa using congrArg List.length hdoctype
      omega
    rw [hbegins (Nat.le_trans (by decide) hlength), if_neg hcomment, hbegins (by exact hlength),
      if_neg hcdata, List.take_append_of_le_length hlength,
      if_pos hdoctype, List.drop_append_of_le_length hlength]
    split at h
    · cases h
    · next hnamed =>
      split at h
      · next hafter =>
        cases h
        obtain ⟨c, tail, hne, hname⟩ := exists_name_of_afterDoctype? hafter hnamed more
        simp [hname, hne, afterDoctype?_append hafter]
      · cases h
  · cases h

theorem readMarkup_append (h : readMarkup cs = .ok (event, rest)) (more : List Char) :
    readMarkup (cs ++ more) = .ok (event, rest ++ more) := by
  rw [readMarkup.eq_def] at h
  split at h
  · exact readDeclaration_append h more
  · cases h
  · next cs hnonempty =>
    split at h
    · next hsplit =>
      cases h
      have hlength := length_le_of_splitAt?_eq_some hsplit
      cases cs with
      | nil => cases hlength
      | cons c cs =>
        have hne : c ≠ '>' := fun heq => hnonempty cs (by rw [heq])
        have hmore := splitAt?_append hsplit more
        rw [List.cons_append] at hmore
        simp [readMarkup, hne, hmore]
    · cases h
  · next cs =>
    split at h
    · next hsplit =>
      cases h
      simp [readMarkup, splitTag?_append hsplit]
    · cases h
  · next hdeclaration hinstruction hopen hstop =>
    split at h
    · next hsplit =>
      cases h
      have hmore := splitTag?_append hsplit more
      cases cs with
      | nil => cases hsplit
      | cons c cs =>
        have hexclamation : c ≠ '!' := fun heq => hdeclaration cs (by rw [heq])
        have hquestion : c ≠ '?' := fun heq => hopen cs (by rw [heq])
        have hslash : c ≠ '/' := fun heq => hstop cs (by rw [heq])
        rw [List.cons_append] at hmore ⊢
        simp [readMarkup, hexclamation, hquestion, hslash, hmore]
    · cases h

/-- Inside a reference, all goes on until it ends. -/
theorem readReference_append (h : readReference cs = .ok (event, rest)) (more : List Char) :
    readReference (cs ++ more) = .ok (event, rest ++ more) := by
  rw [readReference] at h
  split at h
  · next hdrop =>
    cases h
    obtain ⟨htaken, hdropped⟩ := span_append_of_dropWhile hdrop more
    rw [readReference, htaken, hdropped]
    rfl
  · cases h

/-- A piece of character data goes on until something breaks it. -/
theorem span_append_of_breaksText {more : List Char} (hmore : BreaksText more)
    (cs : List Char) :
    (cs ++ more).takeWhile isInText = cs.takeWhile isInText ∧
      (cs ++ more).dropWhile isInText = cs.dropWhile isInText ++ more := by
  cases hdrop : cs.dropWhile isInText with
  | nil =>
    have hall : ∀ c ∈ cs, isInText c := List.dropWhile_eq_nil_iff.mp hdrop
    obtain ⟨htaken, hdropped⟩ := span_append hall hmore
    constructor
    · rw [htaken, List.takeWhile_eq_self_iff.mpr hall]
    · exact hdropped
  | cons c rest => exact span_append_of_dropWhile hdrop more

/-- An event does not depend on what follows it, if this breaks a text. -/
theorem readEvent_append {c : Char} {more : List Char} (h : readEvent c cs = .ok (event, rest))
    (hmore : BreaksText more) : readEvent c (cs ++ more) = .ok (event, rest ++ more) := by
  rw [readEvent] at h ⊢
  split at h
  · next hmarkup =>
    rw [if_pos hmarkup]
    exact readMarkup_append h more
  · next hmarkup =>
    rw [if_neg hmarkup]
    split at h
    · next hreference =>
      rw [if_pos hreference]
      exact readReference_append h more
    · next hreference =>
      cases h
      obtain ⟨htaken, hdropped⟩ := span_append_of_breaksText hmore cs
      rw [if_neg hreference, htaken, hdropped]

/-! ## Texts -/

theorem eventsOf_of_readEvent {c : Char} (h : readEvent c cs = .ok (event, rest)) :
    eventsOf (c :: cs) = (event :: (eventsOf rest).1, (eventsOf rest).2) := by
  rw [eventsOf]
  split
  · next hfault =>
    rw [h] at hfault
    cases hfault
  · next hread =>
    rw [h] at hread
    cases hread
    rfl

theorem eventsOf_of_fault {c : Char} {fault : Fault} (h : readEvent c cs = .error fault) :
    eventsOf (c :: cs) = ([], some fault) := by
  rw [eventsOf]
  split
  · next hfault =>
    rw [h] at hfault
    cases hfault
    rfl
  · next hread =>
    rw [h] at hread
    cases hread

/-- The events of a text that is read to its end come before those of what follows. -/
theorem eventsOf_append {more : List Char} (hmore : BreaksText more)
    (hcomplete : (eventsOf cs).2 = none) :
    eventsOf (cs ++ more) = ((eventsOf cs).1 ++ (eventsOf more).1, (eventsOf more).2) := by
  fun_induction eventsOf cs with
  | case1 => rfl
  | case2 => cases hcomplete
  | case3 c cs event rest hread events fault heq ih =>
    rw [heq] at ih
    rw [List.cons_append, eventsOf_of_readEvent (readEvent_append hread hmore), ih hcomplete]
    rfl

/-- A byte order mark belongs to character data. -/
theorem dropMark_append {more : List Char} (hmore : BreaksText more) :
    dropMark (before ++ more) = dropMark before ++ more := by
  cases before with
  | cons c before =>
    by_cases hmark : c = '\uFEFF'
    · rw [hmark]
      rfl
    · simp [dropMark, hmark]
  | nil =>
    cases more with
    | nil => rfl
    | cons c more =>
      have hmark : c ≠ '\uFEFF' := by
        rintro rfl
        cases hmore _ rfl
      simp [dropMark, hmark]

/-! ## Tags -/

/-- Events whose tags match leave some of them open, and go on with what matches these. -/
theorem matchTags_append {tags : List (List Char)} {fault : Option Fault} {first : List Event}
    (h : (matchTags tags fault first).2 = none) :
    fault = none ∧ (matchTags tags fault first).1 = first ∧ ∃ inner, ∀ later more,
      matchTags tags later (first ++ more) =
        (first ++ (matchTags inner later more).1, (matchTags inner later more).2) := by
  induction first generalizing tags with
  | nil => exact ⟨h, rfl, tags, fun _ _ => rfl⟩
  | cons event first ih =>
    rw [matchTags] at h ⊢
    cases hbehind : tagsBehind tags event with
    | error mismatch =>
      rw [hbehind] at h
      cases h
    | ok between =>
      rw [hbehind] at h
      obtain ⟨hfault, hfirst, inner, hmore⟩ := ih h
      refine ⟨hfault, congrArg (event :: ·) hfirst, inner, fun later more => ?_⟩
      rw [List.cons_append, matchTags, hbehind]
      simp only [hmore]
      rfl

/-! ## References -/

variable {name : List Char}

theorem breaksText_referenceBefore : BreaksText (referenceBefore name rest) := by
  rintro c ⟨⟩
  rfl

theorem readEvent_reference (hname : IsName name) (hopen : '<' ∉ name) :
    readEvent '&' (name ++ ';' :: rest) = .ok (.reference name, rest) := by
  have hin : ∀ x ∈ name, isInReference x := by
    intro x hx
    have hne : x ≠ '<' := fun heq => hopen (heq ▸ hx)
    simp [isInReference, hname x hx, hne]
  have hstop : ∀ x ∈ (';' :: rest).head?, isInReference x = false := by
    rintro x ⟨⟩
    rfl
  obtain ⟨htaken, hdropped⟩ := span_append hin hstop
  rw [readEvent, if_neg (by decide), if_pos rfl, readReference, htaken, hdropped]
  rfl

/-- A tag cannot begin in a reference. -/
theorem readEvent_unclosed (hname : IsName name) (hopen : '<' ∈ name) :
    readEvent '&' (name ++ ';' :: rest) = .error .unclosedReference := by
  cases hdrop : name.dropWhile isInReference with
  | nil =>
    have hin := List.dropWhile_eq_nil_iff.mp hdrop '<' hopen
    cases hin
  | cons c behind =>
    have hstop := List.head?_dropWhile_not isInReference name
    have hc : c ∈ name := (List.dropWhile_sublist isInReference).mem (hdrop ▸ List.mem_cons_self)
    rw [hdrop] at hstop
    obtain rfl : c = '<' := by simpa [isInReference, hname c hc] using hstop
    obtain ⟨-, hdropped⟩ := span_append_of_dropWhile hdrop (';' :: rest)
    rw [readEvent, if_neg (by decide), if_pos rfl, readReference, hdropped]
    rfl

/-- Behind a text that was scanned, scanning goes on in the tags that are open. -/
theorem exists_scanner_events_append {more : List Char} (hmore : BreaksText more)
    (h : (scanner.events (.ofList before)).2 = none) :
    ∃ tags, scanner.events (.ofList (before ++ more)) =
      ((scanner.events (.ofList before)).1 ++
        (matchTags tags (eventsOf more).2 (eventsOf more).1).1,
          (matchTags tags (eventsOf more).2 (eventsOf more).1).2) := by
  have hevents (cs : List Char) : scanner.events (.ofList cs) =
      matchTags [] (eventsOf (dropMark cs)).2 (eventsOf (dropMark cs)).1 := by
    show matchTags [] (eventsOf (dropMark (String.ofList cs).toList)).2
      (eventsOf (dropMark (String.ofList cs).toList)).1 = _
    rw [String.toList_ofList]
  rw [hevents] at h
  obtain ⟨hcomplete, hmatched, tags, htags⟩ := matchTags_append h
  refine ⟨tags, ?_⟩
  rw [hevents, hevents, hmatched, dropMark_append hmore, eventsOf_append hmore hcomplete, htags]

theorem scanner_deliversReferences : scanner.DeliversReferences where
  delivered := by
    intro before name after h hname hopen
    obtain ⟨tags, hevents⟩ := exists_scanner_events_append
      (@breaksText_referenceBefore after name) h
    rw [referenceBefore, eventsOf_of_readEvent (readEvent_reference hname hopen)] at hevents
    exact ⟨_, _, hevents⟩
  unclosed := by
    intro before name after h hname hopen
    obtain ⟨tags, hevents⟩ := exists_scanner_events_append
      (@breaksText_referenceBefore after name) h
    rw [referenceBefore, eventsOf_of_fault (readEvent_unclosed hname hopen)] at hevents
    exact ⟨.unclosedReference, hevents.trans (congrArg (·, _) (List.append_nil _))⟩

end TreeAxes.Markup
