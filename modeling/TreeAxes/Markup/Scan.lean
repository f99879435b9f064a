import TreeAxes.Markup.Event

/-!
# Scanning for events

A text is scanned for tags, pieces of character data, references, comments and declarations. A tag
ends at the first `>` outside quotes, and names are not checked. Events go on as long as every end
tag names the innermost open one.
-/

namespace TreeAxes.Markup

/-- Splits a text at the first occurrence of a separator. -/
def splitAt? (separator : List Char) : List Char → Option (List Char × List Char)
  | [] => if separator.isEmpty then some ([], []) else none
  | c :: cs =>
    if separator.isPrefixOf (c :: cs) then some ([], (c :: cs).drop separator.length)
    else (splitAt? separator cs).map fun (before, after) => (c :: before, after)

/-- Splits a tag from what follows it, at the first `>` outside quotes. -/
def splitTag? (quote : Option Char) : List Char → Option (List Char × List Char)
  | [] => none
  | c :: cs =>
    match quote with
    | none =>
      if c = '>' then some ([], cs)
      else
        (splitTag? (if c = '"' ∨ c = '\'' then some c else none) cs).map
          fun (before, after) => (c :: before, after)
    | some q =>
      (splitTag? (if c = q then none else some q) cs).map
        fun (before, after) => (c :: before, after)

/-- What follows a document type declaration: it ends at the first `>` that closes no `<`
within it, and `depth` of those are still open. Quotes and comments are not told apart. -/
def afterDoctype? (depth : Nat) : List Char → Option (List Char)
  | [] => none
  | c :: cs =>
    if c = '<' then afterDoctype? (depth + 1) cs
    else if c = '>' then
      match depth with
      | 0 => some cs
      | depth + 1 => afterDoctype? depth cs
    else afterDoctype? depth cs

/-- A start tag or an empty tag, by what stands between `<` and `>`. -/
def ofTag (body : List Char) : Event :=
  let split (cs : List Char) : List Char × List Char :=
    (cs.takeWhile (!isSpace ·), cs.dropWhile (!isSpace ·))
  match body.reverse with
  | '/' :: reversed =>
    let (name, attributes) := split reversed.reverse
    .empty name attributes
  | _ =>
    let (name, attributes) := split body
    .start name attributes

/-- The name in an end tag, without space behind it. -/
def endTagName (body : List Char) : List Char :=
  if body.all isSpace then body else (body.reverse.dropWhile isSpace).reverse

/-- Reads a declaration behind `<!`. -/
def readDeclaration (cs : List Char) : Except Fault (Event × List Char) :=
  if ['-', '-'].isPrefixOf cs then
    match splitAt? ['-', '-', '>'] (cs.drop 2) with
    | some (data, rest) => .ok (.comment data, rest)
    | none => .error .unclosedComment
  else if "[CDATA[".toList.isPrefixOf cs then
    match splitAt? [']', ']', '>'] (cs.drop 7) with
    | some (data, rest) => .ok (.cdata data, rest)
    | none => .error .unclosedCData
  else if (cs.take 7).map Char.toUpper = "DOCTYPE".toList then
    match (cs.drop 7).dropWhile isSpace with
    | '>' :: _ => .error .unnamedDoctype
    | _ =>
      match afterDoctype? 0 (cs.drop 7) with
      | some rest => .ok (.declaration, rest)
      | none => .error .unclosedDoctype
  else .error .unknownDeclaration

/-- Reads markup behind `<`. -/
def readMarkup : List Char → Except Fault (Event × List Char)
  | '!' :: cs => readDeclaration cs
  | '?' :: '>' :: _ => .error .unclosedInstruction
  | '?' :: cs =>
    match splitAt? ['?', '>'] cs with
    | some (_, rest) => .ok (.declaration, rest)
    | none => .error .unclosedInstruction
  | '/' :: cs =>
    match splitTag? none cs with
    | some (body, rest) => .ok (.stop (endTagName body), rest)
    | none => .error .unclosedTag
  | cs =>
    match splitTag? none cs with
    | some (body, rest) => .ok (ofTag body, rest)
    | none => .error .unclosedTag

/-- Whether a character can stand between `&` and `;`. -/
def isInReference (c : Char) : Bool := c ≠ ';' && c ≠ '&' && c ≠ '<'

/-- Reads a reference behind `&`. -/
def readReference (cs : List Char) : Except Fault (Event × List Char) :=
  match cs.dropWhile isInReference with
  | ';' :: rest => .ok (.reference (cs.takeWhile isInReference), rest)
  | _ => .error .unclosedReference

/-- Whether a character can stand in a piece of character data. -/
def isInText (c : Char) : Bool := c ≠ '<' && c ≠ '&'

/-- Reads the event at the start of a text that begins with `c`. -/
def readEvent (c : Char) (cs : List Char) : Except Fault (Event × List Char) :=
  if c = '<' then readMarkup cs
  else if c = '&' then readReference cs
  else .ok (.text (c :: cs.takeWhile isInText), cs.dropWhile isInText)

theorem length_le_of_splitAt? {separator cs before after : List Char}
    (h : splitAt? separator cs = some (before, after)) : after.length ≤ cs.length := by
  induction cs generalizing before with
  | nil =>
    unfold splitAt? at h
    split at h
    · cases h; simp
    · cases h
  | cons c cs ih =>
    unfold splitAt? at h
    split at h
    · cases h; simp
    · obtain ⟨⟨b, a⟩, h, heq⟩ := Option.map_eq_some_iff.1 h
      cases heq
      exact Nat.le_succ_of_le (ih h)

theorem length_le_of_splitTag? {quote : Option Char} {cs before after : List Char}
    (h : splitTag? quote cs = some (before, after)) : after.length ≤ cs.length := by
  induction cs generalizing before quote with
  | nil => simp [splitTag?] at h
  | cons c cs ih =>
    unfold splitTag? at h
    split at h
    · split at h
      · cases h; simp
      · obtain ⟨⟨b, a⟩, h, heq⟩ := Option.map_eq_some_iff.1 h
        cases heq
        exact Nat.le_succ_of_le (ih h)
    · obtain ⟨⟨b, a⟩, h, heq⟩ := Option.map_eq_some_iff.1 h
      cases heq
      exact Nat.le_succ_of_le (ih h)

theorem length_le_of_afterDoctype? {depth : Nat} {cs rest : List Char}
    (h : afterDoctype? depth cs = some rest) : rest.length ≤ cs.length := by
  fun_induction afterDoctype? depth cs
  all_goals grind

theorem length_le_of_readDeclaration {cs rest : List Char} {event : Event}
    (h : readDeclaration cs = .ok (event, rest)) : rest.length ≤ cs.length := by
  unfold readDeclaration at h
  split at h
  · split at h
    · next hs => cases h; have := length_le_of_splitAt? hs; simp at this; omega
    · cases h
  · split at h
    · split at h
      · next hs => cases h; have := length_le_of_splitAt? hs; simp at this; omega
      · cases h
    · split at h
      · split at h
        · cases h
        · split at h
          · next hs => cases h; have := length_le_of_afterDoctype? hs; simp at this; omega
          · cases h
      · cases h

theorem length_le_of_readMarkup {cs rest : List Char} {event : Event}
    (h : readMarkup cs = .ok (event, rest)) : rest.length ≤ cs.length := by
  unfold readMarkup at h
  split at h
  · exact Nat.le_succ_of_le (length_le_of_readDeclaration h)
  · cases h
  · split at h
    · next hs => cases h; exact Nat.le_succ_of_le (length_le_of_splitAt? hs)
    · cases h
  · split at h
    · next hs => cases h; exact Nat.le_succ_of_le (length_le_of_splitTag? hs)
    · cases h
  · split at h
    · next hs => cases h; exact length_le_of_splitTag? hs
    · cases h

theorem length_le_of_readReference {cs rest : List Char} {event : Event}
    (h : readReference cs = .ok (event, rest)) : rest.length ≤ cs.length := by
  unfold readReference at h
  split at h
  · next hd =>
    cases h
    have := (@List.dropWhile_sublist _ cs isInReference).length_le
    rw [hd] at this
    simp at this
    omega
  · cases h

/-- Every event takes at least one character. -/
theorem length_le_of_readEvent {c : Char} {cs rest : List Char} {event : Event}
    (h : readEvent c cs = .ok (event, rest)) : rest.length ≤ cs.length := by
  unfold readEvent at h
  split at h
  · exact length_le_of_readMarkup h
  · split at h
    · exact length_le_of_readReference h
    · cases h
      exact (List.dropWhile_sublist isInText).length_le

/-- The events of a text, and the fault that ended reading if there was one. -/
def eventsOf : List Char → List Event × Option Fault
  | [] => ([], none)
  | c :: cs =>
    match _h : readEvent c cs with
    | .error fault => ([], some fault)
    | .ok (event, rest) =>
      let (events, fault) := eventsOf rest
      (event :: events, fault)
termination_by cs => cs.length
decreasing_by
  have := length_le_of_readEvent ‹readEvent c cs = _›
  simp only [List.length_cons]
  omega

/-- A text without a byte order mark in front. -/
def dropMark : List Char → List Char
  | '\uFEFF' :: cs => cs
  | cs => cs

/-- The open tags behind an event, the innermost one first. -/
def tagsBehind (tags : List (List Char)) : Event → Except Fault (List (List Char))
  | .start name _ => .ok (name :: tags)
  | .stop name =>
    match tags with
    | [] => .error (.unmatchedEndTag (.ofList name))
    | tag :: tags =>
      if tag = name then .ok tags
      else .error (.mismatchedEndTag (.ofList tag) (.ofList name))
  | .empty _ _ | .text _ | .reference _ | .cdata _ | .comment _ | .declaration => .ok tags

/-- The events behind open tags, up to the first end tag that does not match. -/
def matchTags (tags : List (List Char)) (fault : Option Fault) :
    List Event → List Event × Option Fault
  | [] => ([], fault)
  | event :: events =>
    match tagsBehind tags event with
    | .error mismatch => ([], some mismatch)
    | .ok tags =>
      let (matched, fault) := matchTags tags fault events
      (event :: matched, fault)

end TreeAxes.Markup
