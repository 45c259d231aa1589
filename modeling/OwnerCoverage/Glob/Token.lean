/-!
# Tokens of a pattern

A pattern is read from left to right into tokens: literal characters, wildcards, bracket
expressions and separators. A backslash makes the next character literal. A run of stars matches
inside one path component, unless it has at least two stars and is a whole segment of the pattern:
then it stands for any number of components. A bracket expression that is not closed, or that meets
a separator where a member should stand, is no bracket expression, and its `[` is literal.
-/

namespace OwnerCoverage

namespace Glob

/-- A member of a class. -/
inductive ClassItem where
  | single (char : Char)
  | range (first last : Char)
deriving DecidableEq, Repr

/-- What a pattern is made of. -/
inductive Token where
  | literal (char : Char)
  /-- One character inside a component. -/
  | anyChar
  /-- Any run of characters inside a component. -/
  | star
  /-- Any number of components. -/
  | anyDepth
  /-- One character inside a component that is, or if negated is not, among the members. -/
  | charClass (negated : Bool) (items : List ClassItem)
  | separator
deriving DecidableEq, Repr

/-- A character of a bracket expression; a backslash takes the next character as it is. -/
def readMember? : List Char → Option (Char × List Char)
  | [] => none
  | ['\\'] => none
  | '\\' :: char :: rest => some (char, rest)
  | char :: rest => some (char, rest)

/-- A member of a bracket expression: one character, or two that a hyphen joins. A hyphen right
before the closing bracket joins nothing. -/
def readItem? (text : List Char) : Option (ClassItem × List Char) :=
  match readMember? text with
  | none => none
  | some (first, '-' :: next :: rest) =>
      if next = ']' then some (.single first, '-' :: next :: rest)
      else
        match readMember? (next :: rest) with
        | none => none
        | some (last, rest) => some (.range first last, rest)
  | some (first, rest) => some (.single first, rest)

theorem length_lt_of_readMember? {text rest : List Char} {char : Char}
    (read : readMember? text = some (char, rest)) : rest.length < text.length := by
  unfold readMember? at read
  split at read
  · simp at read
  · simp at read
  all_goals
    simp only [Option.some.injEq, Prod.mk.injEq] at read
    rw [← read.2]
    simp only [List.length_cons]
    omega

theorem length_lt_of_readItem? {text rest : List Char} {item : ClassItem}
    (read : readItem? text = some (item, rest)) : rest.length < text.length := by
  unfold readItem? at read
  split at read
  · simp at read
  · rename_i first next tail readFirst
    have firstShorter := length_lt_of_readMember? readFirst
    split at read
    · simp only [Option.some.injEq, Prod.mk.injEq] at read
      rw [← read.2]
      simpa using firstShorter
    · split at read
      · simp at read
      · rename_i last tail' readLast
        have lastShorter := length_lt_of_readMember? readLast
        simp only [Option.some.injEq, Prod.mk.injEq] at read
        simp_all
        omega
  · rename_i first tail _ readFirst
    have firstShorter := length_lt_of_readMember? readFirst
    simp only [Option.some.injEq, Prod.mk.injEq] at read
    simp_all

/-- The members up to the closing bracket, and the text after it. A closing bracket in first place
is a member. -/
def readItems? (opening : Bool) (text : List Char) : Option (List ClassItem × List Char) :=
  if !opening && text.head? == some ']' then some ([], text.tail)
  else if text.head? == some '/' then none
  else
    match _read : readItem? text with
    | none => none
    | some (item, rest) =>
        (readItems? false rest).map fun (items, after) => (item :: items, after)
termination_by text.length
decreasing_by exact length_lt_of_readItem? _read

theorem length_le_of_readItems? {opening : Bool} {text rest : List Char} {items : List ClassItem}
    (read : readItems? opening text = some (items, rest)) : rest.length ≤ text.length := by
  fun_induction readItems? opening text generalizing items rest with
  | case1 opening text closed =>
      simp only [Option.some.injEq, Prod.mk.injEq] at read
      rw [← read.2]
      simp
  | case2 => simp at read
  | case3 => simp at read
  | case4 opening text _ _ item tail readFirst ih =>
      obtain ⟨⟨items', rest'⟩, readRest, equal⟩ := Option.map_eq_some_iff.1 read
      simp only [Prod.mk.injEq] at equal
      have shorter := length_lt_of_readItem? readFirst
      have notLonger := ih readRest
      rw [← equal.2]
      omega

/-- The bracket expression whose opening bracket stands before the text, and the text after it. -/
def readClass? : List Char → Option (Token × List Char)
  | '!' :: rest => (readItems? true rest).map fun (items, after) => (.charClass true items, after)
  | '^' :: rest => (readItems? true rest).map fun (items, after) => (.charClass true items, after)
  | text => (readItems? true text).map fun (items, after) => (.charClass false items, after)

theorem length_le_of_readClass? {text rest : List Char} {token : Token}
    (read : readClass? text = some (token, rest)) : rest.length ≤ text.length := by
  unfold readClass? at read
  split at read <;>
  · obtain ⟨⟨items, after⟩, readRest, equal⟩ := Option.map_eq_some_iff.1 read
    simp only [Prod.mk.injEq] at equal
    have notLonger := length_le_of_readItems? readRest
    simp_all
    try omega

/-- Whether a segment of the pattern ends before this text. -/
def segmentEnds : List Char → Bool
  | [] => true
  | char :: _ => char == '/'

/-- The tokens of a text. The flag tells whether a segment of the pattern starts here. -/
def tokensFrom (segmentStarts : Bool) (text : List Char) : List Token :=
  match text with
  | [] => []
  | ['\\'] => [.literal '\\']
  | '\\' :: char :: rest => .literal char :: tokensFrom false rest
  | '*' :: rest =>
      let after := rest.dropWhile (· == '*')
      let wholeSegment := segmentStarts && rest.head? == some '*' && segmentEnds after
      (if wholeSegment then .anyDepth else .star) :: tokensFrom false after
  | '?' :: rest => .anyChar :: tokensFrom false rest
  | '[' :: rest =>
      match _read : readClass? rest with
      | some (token, after) =>
          token :: tokensFrom false after
      | none => .literal '[' :: tokensFrom false rest
  | '/' :: rest => .separator :: tokensFrom true rest
  | char :: rest => .literal char :: tokensFrom false rest
termination_by text.length
decreasing_by
  · simp only [List.length_cons]
    omega
  · have := (List.dropWhile_suffix (· == '*') (l := rest)).length_le
    simp only [List.length_cons]
    omega
  · simp
  · have := length_le_of_readClass? _read
    simp only [List.length_cons]
    omega
  all_goals simp

/-- The tokens of the text of a pattern. -/
def tokens (pattern : List Char) : List Token := tokensFrom true pattern

end Glob

end OwnerCoverage
