import TreeAxes.Markup.Scan

/-!
# Attribute lists

What follows the name in a start tag is a list of keys and quoted values. Space may surround
the equals sign and is not needed between attributes. Every character but space and the
equals sign can belong to a key; keys must differ.
-/

namespace TreeAxes.Markup

/-- Reads `=` and a quoted value behind a key. -/
def readValue? (key : List Char) (cs : List Char) : Except Fault (List Char × List Char) :=
  match cs.dropWhile isSpace with
  | '=' :: afterEquals =>
    match afterEquals.dropWhile isSpace with
    | [] => .error (.missingValue (.ofList key))
    | quote :: text =>
      if quote = '"' ∨ quote = '\'' then
        match text.dropWhile (· ≠ quote) with
        | [] => .error (.unclosedValue (.ofList key))
        | _ :: rest => .ok (text.takeWhile (· ≠ quote), rest)
      else .error (.unquotedValue (.ofList key))
  | _ => .error (.missingEquals (.ofList key))

/-- A value takes at least one character. -/
theorem length_lt_of_readValue? {key cs value rest : List Char}
    (h : readValue? key cs = .ok (value, rest)) : rest.length < cs.length := by
  unfold readValue? at h
  split at h
  · next afterEquals he =>
    have h1 := (@List.dropWhile_sublist _ cs isSpace).length_le
    rw [he] at h1
    split at h
    · cases h
    · next quote text hq =>
      have h2 := (@List.dropWhile_sublist _ afterEquals isSpace).length_le
      rw [hq] at h2
      split at h
      · split at h
        · cases h
        · next hd =>
          cases h
          have h3 := (@List.dropWhile_sublist _ text (· ≠ quote)).length_le
          rw [hd] at h3
          simp at h1 h2 h3
          omega
      · cases h
  · cases h

/-- The key that begins with `first`, and what follows it. -/
def splitKey (first : Char) (cs : List Char) : List Char × List Char :=
  (first :: cs.takeWhile fun c => c ≠ '=' && !isSpace c,
    cs.dropWhile fun c => c ≠ '=' && !isSpace c)

/-- Reads attributes up to the first fault; `known` are the keys in front of them. -/
def readAttributes (known : List (List Char)) (cs : List Char) :
    List RawAttribute × Option Fault :=
  match _hcs : cs.dropWhile isSpace with
  | [] => ([], none)
  | first :: text =>
    if known.contains (splitKey first text).1 then
      ([], some (.duplicateAttribute (.ofList (splitKey first text).1)))
    else
      match _hv : readValue? (splitKey first text).1 (splitKey first text).2 with
      | .error fault => ([], some fault)
      | .ok (value, rest) =>
        let (raws, fault) := readAttributes ((splitKey first text).1 :: known) rest
        (⟨(splitKey first text).1, value⟩ :: raws, fault)
termination_by cs.length
decreasing_by
  have h1 := (@List.dropWhile_sublist _ cs isSpace).length_le
  rw [‹cs.dropWhile isSpace = _›] at h1
  have h2 := length_lt_of_readValue? ‹readValue? _ _ = _›
  have h3 := (@List.dropWhile_sublist _ text fun c => c ≠ '=' && !isSpace c).length_le
  simp only [splitKey, List.length_cons] at h1 h2 h3
  omega

end TreeAxes.Markup
