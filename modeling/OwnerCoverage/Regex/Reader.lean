import OwnerCoverage.Regex.Basic

/-!
# Reading regular expressions

The text of a regular expression is read from left to right in one pass. What is open at a place is
kept beside it: the alternatives and the items of the group that is being read, the groups around
it, and the classes that are open there. So reading a text that starts with a complete item is the
same as reading what follows it with that item added.

Groups, alternatives, repetitions by `*`, `+` and `?`, anchors, the dot, escapes, and classes with
ranges, nested classes and the three set operations are read. Counted repetitions, flags, named
groups and named classes are refused.
-/

namespace OwnerCoverage

namespace Regex

/-- What is wrong with a text that is no expression. -/
inductive FaultKind where
  | invertedRange
  | unclosedClass
  | unclosedGroup
  | unopenedGroup
  | missingOperand
  | unrecognizedEscape
  | incompleteEscape
  | unsupported
deriving DecidableEq, Repr

/-- A fault, and the stretch of the text where it lies. -/
structure Fault where
  kind : FaultKind
  /-- How many characters of the text follow the start of the stretch. -/
  remaining : Nat
  /-- How many characters the stretch has. -/
  width : Nat
deriving DecidableEq, Repr

/-- What is said of a fault. -/
def FaultKind.message : FaultKind → String
  | .invertedRange => "invalid character class range, the start must be <= the end"
  | .unclosedClass => "unclosed character class"
  | .unclosedGroup => "unclosed group"
  | .unopenedGroup => "unopened group"
  | .missingOperand => "repetition operator missing expression"
  | .unrecognizedEscape => "unrecognized escape sequence"
  | .incompleteEscape => "incomplete escape sequence, reached end of pattern prematurely"
  | .unsupported => "unsupported construct"

/-- The description of a fault in a text: the text, and under it a mark below each character of the
faulty stretch. The layout is that of a text of one line; for a text with a line feed in it, which
no rules file can bring about, the lines would be numbered, and that is left out here. -/
def Fault.message (fault : Fault) (text : String) : String :=
  let offset := text.length - fault.remaining
  "regex parse error:\n    " ++ text ++ "\n    " ++
    String.ofList (List.replicate offset ' ' ++ List.replicate fault.width '^') ++
    "\nerror: " ++ fault.kind.message

/-- A class whose closing bracket has not been read yet. -/
structure OpenClass where
  negated : Bool
  /-- The last set operation, and what stands before it. -/
  pending : Option (SetOperation × CharSet)
  /-- The members since then. -/
  members : CharSet
deriving DecidableEq, Repr

/-- What the members and operations read so far amount to. -/
def OpenClass.body (frame : OpenClass) : CharSet :=
  match frame.pending with
  | none => frame.members
  | some (operation, left) => .combine operation left frame.members

/-- The set that a class is when its closing bracket is read. -/
def OpenClass.close (frame : OpenClass) : CharSet :=
  if frame.negated then .complement frame.body else frame.body

/-- Adds a set to the members since the last operation. -/
def OpenClass.add (frame : OpenClass) (set : CharSet) : OpenClass :=
  { frame with members := .union frame.members set }

/-- Reads a set operation, which binds all that stands before it in the class. -/
def OpenClass.operate (frame : OpenClass) (operation : SetOperation) : OpenClass :=
  { frame with pending := some (operation, frame.body), members := .empty }

/-- The class that opens before a text. Hyphens right after its opening, or else a closing bracket
there, are members. -/
def OpenClass.start (negated : Bool) : List Char → OpenClass × List Char
  | '-' :: rest => (⟨negated, none, .single '-'⟩, rest.dropWhile (· == '-'))
  | ']' :: rest => (⟨negated, none, .single ']'⟩, rest)
  | text => (⟨negated, none, .empty⟩, text)

theorem OpenClass.length_start_le (negated : Bool) (text : List Char) :
    (OpenClass.start negated text).2.length ≤ text.length := by
  unfold OpenClass.start
  split
  · have := (List.dropWhile_suffix (· == '-') (l := ‹List Char›)).length_le
    simp only [List.length_cons]
    omega
  · simp
  · simp

/-- A group whose closing parenthesis has not been read yet: the alternatives before the current
one, and the items of the current one, both in reverse. -/
structure OpenGroup where
  alternatives : List (Regex CharSet)
  items : List (Regex CharSet)
deriving DecidableEq, Repr

def OpenGroup.start : OpenGroup := ⟨[], []⟩

/-- Adds an item to the alternative that is being read. -/
def OpenGroup.add (group : OpenGroup) (item : Regex CharSet) : OpenGroup :=
  { group with items := item :: group.items }

/-- The alternatives of a group at its closing parenthesis. -/
def OpenGroup.close (group : OpenGroup) : Regex CharSet :=
  match group.alternatives.reverse with
  | [] => sequence group.items.reverse
  | first :: rest => choice first (rest ++ [sequence group.items.reverse])

/-- What is open at a place of the text. -/
structure Reader where
  group : OpenGroup
  /-- The groups around the current one, from the inside out. -/
  groups : List OpenGroup
  /-- The open classes, from the inside out. -/
  classes : List OpenClass
deriving DecidableEq, Repr

namespace Reader

/-- A reader that has read nothing yet. -/
def start : Reader := ⟨.start, [], []⟩

/-- Adds an item to the group that is being read. -/
def add (reader : Reader) (item : Regex CharSet) : Reader :=
  { reader with group := reader.group.add item }

/-- The characters that a backslash makes literal: ASCII marks other than the angle brackets. -/
def isEscapable (char : Char) : Bool :=
  decide (char.toNat < 128) && !char.isAlphanum && char != '<' && char != '>'

/-- A literal character, with or without a backslash before it. -/
def readLiteral : List Char → Except Fault (Char × List Char)
  | [] => .error ⟨.incompleteEscape, 0, 0⟩
  | ['\\'] => .error ⟨.incompleteEscape, 1, 1⟩
  | '\\' :: char :: rest =>
      if isEscapable char then .ok (char, rest)
      else .error ⟨.unrecognizedEscape, rest.length + 2, 2⟩
  | char :: rest => .ok (char, rest)

/-- A member of a class: a character or a range. A hyphen before the closing bracket or before
another hyphen makes no range. -/
def readMember (text : List Char) : Except Fault (CharSet × List Char) :=
  match readLiteral text with
  | .error fault => .error fault
  | .ok (first, '-' :: next :: rest) =>
      if next = ']' ∨ next = '-' then .ok (.single first, '-' :: next :: rest)
      else
        match readLiteral (next :: rest) with
        | .error fault => .error fault
        | .ok (last, after) =>
            if first ≤ last then .ok (.range first last, after)
            else .error ⟨.invertedRange, text.length, text.length - after.length⟩
  | .ok (first, rest) => .ok (.single first, rest)

/-- Opens a class behind its bracket. Gives what is left to be read as well. -/
def openClass (reader : Reader) : List Char → Reader × List Char
  | '^' :: rest =>
      let (frame, after) := OpenClass.start true rest
      ({ reader with classes := frame :: reader.classes }, after)
  | text =>
      let (frame, after) := OpenClass.start false text
      ({ reader with classes := frame :: reader.classes }, after)

/-- Reads what comes next inside a class: a member, an operation, a class within it, or its end. -/
def classStep (reader : Reader) (frame : OpenClass) (outer : List OpenClass) :
    List Char → Except Fault (Reader × List Char)
  | '[' :: ':' :: rest => .error ⟨.unsupported, rest.length + 2, 2⟩
  | '[' :: rest => .ok (reader.openClass rest)
  | ']' :: rest =>
      match outer with
      | [] => .ok ({ reader with classes := [] }.add (.oneOf frame.close), rest)
      | next :: more => .ok ({ reader with classes := next.add frame.close :: more }, rest)
  | '&' :: '&' :: rest =>
      .ok ({ reader with classes := frame.operate .intersection :: outer }, rest)
  | '-' :: '-' :: rest =>
      .ok ({ reader with classes := frame.operate .difference :: outer }, rest)
  | '~' :: '~' :: rest =>
      .ok ({ reader with classes := frame.operate .symmetricDifference :: outer }, rest)
  | text =>
      match readMember text with
      | .error fault => .error fault
      | .ok (set, rest) => .ok ({ reader with classes := frame.add set :: outer }, rest)

/-- Repeats the last item; a question mark after the operator only changes which match is
preferred. -/
def repeatLast (reader : Reader) (operator : Regex CharSet → Regex CharSet) (rest : List Char) :
    Except Fault (Reader × List Char) :=
  match reader.group.items with
  | [] => .error ⟨.missingOperand, rest.length + 1, 1⟩
  | item :: items =>
      let after := match rest with
        | '?' :: after => after
        | rest => rest
      .ok ({ reader with group := { reader.group with items := operator item :: items } }, after)

/-- Closes the innermost group, which becomes an item of the group around it. -/
def closeGroup (reader : Reader) (rest : List Char) : Except Fault (Reader × List Char) :=
  match reader.groups with
  | [] => .error ⟨.unopenedGroup, rest.length + 1, 1⟩
  | outer :: groups =>
      .ok ({ reader with group := outer.add reader.group.close, groups := groups }, rest)

/-- Opens a group. -/
def openGroup (reader : Reader) : Reader :=
  { reader with group := .start, groups := reader.group :: reader.groups }

/-- Ends an alternative, behind which another one begins. -/
def nextAlternative (reader : Reader) : Reader :=
  let current := sequence reader.group.items.reverse
  { reader with group := ⟨current :: reader.group.alternatives, []⟩ }

/-- Reads what comes next outside classes: an item, a repetition, or a mark that opens, closes or
separates. -/
def itemStep (reader : Reader) : List Char → Except Fault (Reader × List Char)
  | '\\' :: 'A' :: rest => .ok (reader.add .textStart, rest)
  | '\\' :: 'z' :: rest => .ok (reader.add .textEnd, rest)
  | '^' :: rest => .ok (reader.add .textStart, rest)
  | '$' :: rest => .ok (reader.add .textEnd, rest)
  | '.' :: rest => .ok (reader.add (.oneOf .notLineFeed), rest)
  | '(' :: '?' :: ':' :: rest => .ok (reader.openGroup, rest)
  | '(' :: '?' :: rest => .error ⟨.unsupported, rest.length + 2, 2⟩
  | '(' :: rest => .ok (reader.openGroup, rest)
  | ')' :: rest => reader.closeGroup rest
  | '|' :: rest => .ok (reader.nextAlternative, rest)
  | '*' :: rest => reader.repeatLast .star rest
  | '+' :: rest => reader.repeatLast plus rest
  | '?' :: rest => reader.repeatLast optional rest
  | '\x7b' :: rest => .error ⟨.unsupported, rest.length + 1, 1⟩
  | '[' :: rest => .ok (reader.openClass rest)
  | text =>
      match readLiteral text with
      | .error fault => .error fault
      | .ok (char, rest) => .ok (reader.add (.oneOf (.single char)), rest)

/-- One step: what is open after the next item, and the text behind it. -/
def step (reader : Reader) (text : List Char) : Except Fault (Reader × List Char) :=
  match reader.classes with
  | [] => reader.itemStep text
  | frame :: outer => reader.classStep frame outer text

/-- The expression that has been read, if nothing is open at the end of the text. -/
def finish (reader : Reader) : Except Fault (Regex CharSet) :=
  match reader.classes, reader.groups with
  | [], [] => .ok reader.group.close
  | _ :: _, _ => .error ⟨.unclosedClass, 0, 0⟩
  | [], _ :: _ => .error ⟨.unclosedGroup, 0, 0⟩

theorem length_lt_of_readLiteral {text rest : List Char} {char : Char}
    (read : readLiteral text = .ok (char, rest)) : rest.length < text.length := by
  unfold readLiteral at read
  split at read
  · simp at read
  · simp at read
  · split at read
    · simp only [Except.ok.injEq, Prod.mk.injEq] at read
      rw [← read.2]
      simp only [List.length_cons]
      omega
    · simp at read
  · simp_all

theorem length_lt_of_readMember {text rest : List Char} {set : CharSet}
    (read : readMember text = .ok (set, rest)) : rest.length < text.length := by
  unfold readMember at read
  split at read
  · simp at read
  · rename_i first next tail readFirst
    have firstShorter := length_lt_of_readLiteral readFirst
    split at read
    · simp only [Except.ok.injEq, Prod.mk.injEq] at read
      rw [← read.2]
      exact firstShorter
    · split at read
      · simp at read
      · rename_i last after readLast
        have lastShorter := length_lt_of_readLiteral readLast
        split at read
        · simp only [Except.ok.injEq, Prod.mk.injEq] at read
          rw [← read.2]
          simp only [List.length_cons] at firstShorter lastShorter
          omega
        · simp at read
  · rename_i first tail _ readFirst
    simp only [Except.ok.injEq, Prod.mk.injEq] at read
    rw [← read.2]
    exact length_lt_of_readLiteral readFirst

theorem length_openClass_le (reader : Reader) (text : List Char) :
    (reader.openClass text).2.length ≤ text.length := by
  unfold openClass
  split
  · have := OpenClass.length_start_le true ‹List Char›
    simp only [List.length_cons]
    omega
  · exact OpenClass.length_start_le false _

theorem length_lt_of_classStep {reader next : Reader} {frame : OpenClass}
    {outer : List OpenClass} {text rest : List Char}
    (stepped : reader.classStep frame outer text = .ok (next, rest)) :
    rest.length < text.length := by
  unfold classStep at stepped
  split at stepped
  · simp at stepped
  · rename_i tail _
    simp only [Except.ok.injEq] at stepped
    have notLonger : rest.length ≤ tail.length := by
      simpa [stepped] using length_openClass_le reader tail
    simp only [List.length_cons]
    omega
  · split at stepped <;> simp_all
  iterate 3
    · simp only [Except.ok.injEq, Prod.mk.injEq] at stepped
      rw [← stepped.2]
      simp only [List.length_cons]
      omega
  · split at stepped
    · simp at stepped
    · rename_i set tail read
      simp only [Except.ok.injEq, Prod.mk.injEq] at stepped
      rw [← stepped.2]
      exact length_lt_of_readMember read

theorem length_le_of_repeatLast {reader next : Reader}
    {operator : Regex CharSet → Regex CharSet} {text rest : List Char}
    (stepped : reader.repeatLast operator text = .ok (next, rest)) :
    rest.length ≤ text.length := by
  unfold repeatLast at stepped
  split at stepped
  · simp at stepped
  · simp only [Except.ok.injEq, Prod.mk.injEq] at stepped
    rw [← stepped.2]
    split <;> simp

theorem length_le_of_closeGroup {reader next : Reader} {text rest : List Char}
    (stepped : reader.closeGroup text = .ok (next, rest)) : rest.length ≤ text.length := by
  unfold closeGroup at stepped
  split at stepped <;> simp_all

theorem length_lt_of_itemStep {reader next : Reader} {text rest : List Char}
    (stepped : reader.itemStep text = .ok (next, rest)) : rest.length < text.length := by
  unfold itemStep at stepped
  split at stepped
  case h_9 => exact Nat.lt_succ_of_le (length_le_of_closeGroup stepped)
  case h_11 => exact Nat.lt_succ_of_le (length_le_of_repeatLast stepped)
  case h_12 => exact Nat.lt_succ_of_le (length_le_of_repeatLast stepped)
  case h_13 => exact Nat.lt_succ_of_le (length_le_of_repeatLast stepped)
  case h_15 =>
    rename_i tail
    simp only [Except.ok.injEq] at stepped
    have notLonger : rest.length ≤ tail.length := by
      simpa [stepped] using length_openClass_le reader tail
    exact Nat.lt_succ_of_le notLonger
  case h_16 =>
    split at stepped
    · simp at stepped
    · rename_i char tail read
      simp only [Except.ok.injEq, Prod.mk.injEq] at stepped
      rw [← stepped.2]
      exact length_lt_of_readLiteral read
  all_goals
    simp only [reduceCtorEq, Except.ok.injEq, Prod.mk.injEq] at stepped
    try (rw [← stepped.2]; simp only [List.length_cons]; omega)

theorem length_lt_of_step {reader next : Reader} {text rest : List Char}
    (stepped : reader.step text = .ok (next, rest)) : rest.length < text.length := by
  unfold Reader.step at stepped
  split at stepped
  · exact length_lt_of_itemStep stepped
  · exact length_lt_of_classStep stepped

/-- Reads a text to its end, or to the first fault in it. -/
def run (reader : Reader) (text : List Char) : Except Fault (Regex CharSet) :=
  match text with
  | [] => reader.finish
  | char :: tail =>
      match _stepped : reader.step (char :: tail) with
      | .error fault => .error fault
      | .ok (next, rest) => next.run rest
termination_by text.length
decreasing_by exact length_lt_of_step _stepped

end Reader

/-- The expression that a text is, or its first fault. -/
def read (text : List Char) : Except Fault (Regex CharSet) := Reader.start.run text

end Regex

end OwnerCoverage
