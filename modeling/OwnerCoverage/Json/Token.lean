import OwnerCoverage.Decimal.Shortest

/-!
# Tokens of data texts

A data text in the JSON format is read into tokens: brackets, commas and colons, quoted texts, and
words. Blanks may stand between any two of them. A word goes on to the next blank, bracket, comma,
colon or quotation mark, and is `null`, a truth value or a number. A quoted text holds no control
character, and a backslash in it begins an escape, of which two may form a pair of surrogates.
-/

namespace OwnerCoverage

namespace Json

/-- A number as it is written: its sign and its decimal. -/
structure Number where
  negative : Bool
  decimal : Decimal
deriving DecidableEq, Repr

/-- What a JSON text is made of, apart from the blanks in between. -/
inductive Token where
  | openObject
  | closeObject
  | openArray
  | closeArray
  | colon
  | comma
  | null
  | boolean (value : Bool)
  | number (number : Number)
  | text (value : String)
deriving DecidableEq, Repr

section Texts

/-- The value of a hexadecimal digit. -/
def hexValue? (char : Char) : Option Nat :=
  if '0' ≤ char ∧ char ≤ '9' then some (char.toNat - '0'.toNat)
  else if 'a' ≤ char ∧ char ≤ 'f' then some (10 + char.toNat - 'a'.toNat)
  else if 'A' ≤ char ∧ char ≤ 'F' then some (10 + char.toNat - 'A'.toNat)
  else none

/-- The code that hexadecimal digits stand for. -/
def hexCode? (digits : List Char) : Option Nat :=
  digits.foldlM (fun code digit => (hexValue? digit).map (16 * code + ·)) 0

/-- What a character behind a backslash stands for. -/
def escaped? : Char → Option Char
  | '"' => some '"'
  | '\\' => some '\\'
  | '/' => some '/'
  | 'b' => some '\x08'
  | 'f' => some '\x0c'
  | 'n' => some '\n'
  | 'r' => some '\r'
  | 't' => some '\t'
  | _ => none

/-- The next code of a quoted text, and the text behind it. -/
def readCode? : List Char → Option (Nat × List Char)
  | [] => none
  | ['\\'] => none
  | '\\' :: 'u' :: first :: second :: third :: fourth :: rest =>
      (hexCode? [first, second, third, fourth]).map fun code => (code, rest)
  | '\\' :: char :: rest => (escaped? char).map fun escaped => (escaped.toNat, rest)
  | char :: rest => if char.toNat < 32 then none else some (char.toNat, rest)

theorem length_lt_of_readCode? {text rest : List Char} {code : Nat}
    (read : readCode? text = some (code, rest)) : rest.length < text.length := by
  unfold readCode? at read
  split at read
  · simp at read
  · simp at read
  · rcases Option.map_eq_some_iff.1 read with ⟨_, _, equal⟩
    simp only [Prod.mk.injEq] at equal
    rw [← equal.2]
    simp only [List.length_cons]
    omega
  · rcases Option.map_eq_some_iff.1 read with ⟨_, _, equal⟩
    simp only [Prod.mk.injEq] at equal
    rw [← equal.2]
    simp only [List.length_cons]
    omega
  · split at read
    · simp at read
    · simp only [Option.some.injEq, Prod.mk.injEq] at read
      rw [← read.2]
      simp

/-- The codes up to the closing quotation mark, and the text behind it. -/
def readCodes? (text : List Char) : Option (List Nat × List Char) :=
  if text.head? = some '"' then some ([], text.tail)
  else
    match _read : readCode? text with
    | none => none
    | some (code, rest) => (readCodes? rest).map fun (codes, after) => (code :: codes, after)
termination_by text.length
decreasing_by exact length_lt_of_readCode? _read

theorem length_le_of_readCodes? {text rest : List Char} {codes : List Nat}
    (read : readCodes? text = some (codes, rest)) : rest.length ≤ text.length := by
  fun_induction readCodes? text generalizing codes rest with
  | case1 text closed =>
      simp only [Option.some.injEq, Prod.mk.injEq] at read
      rw [← read.2]
      simp
  | case2 => simp at read
  | case3 text _ code tail readFirst ih =>
      rcases Option.map_eq_some_iff.1 read with ⟨⟨codes', rest'⟩, readRest, equal⟩
      simp only [Prod.mk.injEq] at equal
      have shorter := length_lt_of_readCode? readFirst
      have notLonger := ih readRest
      rw [← equal.2]
      omega

/-- Whether a code is the first half of a pair that stands for one character. -/
def isHighSurrogate (code : Nat) : Bool := 0xD800 ≤ code && code < 0xDC00

/-- Whether a code is the second half of a pair that stands for one character. -/
def isLowSurrogate (code : Nat) : Bool := 0xDC00 ≤ code && code < 0xE000

/-- The character of a code, unless the code is one of a surrogate. -/
def charOfCode? (code : Nat) : Option Char :=
  if code.isValidChar then some (Char.ofNat code) else none

/-- The characters that codes stand for, where two surrogates stand for one character. -/
def textOfCodes? : List Nat → Option (List Char)
  | [] => some []
  | [code] => (charOfCode? code).map ([·])
  | code :: next :: rest =>
      if isHighSurrogate code && isLowSurrogate next then
        (textOfCodes? rest).map
          (Char.ofNat (0x10000 + (code - 0xD800) * 0x400 + (next - 0xDC00)) :: ·)
      else
        match charOfCode? code with
        | none => none
        | some char => (textOfCodes? (next :: rest)).map (char :: ·)

/-- The quoted text whose opening mark stands before the text, and the text behind it. -/
def readText? (text : List Char) : Option (String × List Char) :=
  match readCodes? text with
  | none => none
  | some (codes, rest) => (textOfCodes? codes).map fun chars => (String.ofList chars, rest)

theorem length_le_of_readText? {text rest : List Char} {value : String}
    (read : readText? text = some (value, rest)) : rest.length ≤ text.length := by
  unfold readText? at read
  split at read
  · simp at read
  · rename_i codes after readCodes
    rcases Option.map_eq_some_iff.1 read with ⟨_, _, equal⟩
    simp only [Prod.mk.injEq] at equal
    rw [← equal.2]
    exact length_le_of_readCodes? readCodes

end Texts

section Words

/-- The digits behind the point, if there is one, and the text behind them. -/
def readFraction? : List Char → Option (List Char × List Char)
  | '.' :: rest =>
      let digits := rest.takeWhile Char.isDigit
      if digits.isEmpty then none else some (digits, rest.dropWhile Char.isDigit)
  | rest => some ([], rest)

/-- The value of digits, at least one of which there must be. -/
def readDigits? (digits : List Char) : Option Nat :=
  if digits.isEmpty || digits.any (!·.isDigit) then none else some (Nat.ofDigitChars 10 digits 0)

/-- The exponent at the end of a number, which is zero if none is written. -/
def readExponent? : List Char → Option Int
  | [] => some 0
  | mark :: rest =>
      if mark = 'e' ∨ mark = 'E' then
        match rest with
        | '-' :: digits => (readDigits? digits).map (-Int.ofNat ·)
        | '+' :: digits => (readDigits? digits).map Int.ofNat
        | digits => (readDigits? digits).map Int.ofNat
      else none

/-- The decimal that a word without a sign stands for. Only a zero alone starts with a zero. -/
def readDecimal? (word : List Char) : Option Decimal :=
  let whole := word.takeWhile Char.isDigit
  if whole.isEmpty || (whole.head? == some '0' && whole.length != 1) then none
  else
    match readFraction? (word.dropWhile Char.isDigit) with
    | none => none
    | some (fraction, rest) =>
        (readExponent? rest).map fun exponent =>
          ⟨Nat.ofDigitChars 10 (whole ++ fraction) 0, exponent - fraction.length⟩

/-- Reads a number, whose sign can only be a minus. -/
def readNumber? : List Char → Option Number
  | '-' :: word => (readDecimal? word).map fun decimal => ⟨true, decimal⟩
  | word => (readDecimal? word).map fun decimal => ⟨false, decimal⟩

/-- The token that a word without quotes is: a literal name or a number. -/
def wordToken? (word : List Char) : Option Token :=
  if word = "null".toList then some .null
  else if word = "true".toList then some (.boolean true)
  else if word = "false".toList then some (.boolean false)
  else (readNumber? word).map .number

end Words

/-- Whether a character may stand between tokens. -/
def isBlank (char : Char) : Bool := char == ' ' || char == '\t' || char == '\n' || char == '\r'

/-- The token that a character is by itself. -/
def mark? : Char → Option Token
  | '\x7b' => some .openObject
  | '\x7d' => some .closeObject
  | '[' => some .openArray
  | ']' => some .closeArray
  | ':' => some .colon
  | ',' => some .comma
  | _ => none

/-- Whether a character is no part of a word. -/
def endsWord (char : Char) : Bool := isBlank char || char == '"' || (mark? char).isSome

/-- The tokens of a text, if it is made of tokens and blanks. -/
def tokens? (text : List Char) : Option (List Token) :=
  match text with
  | [] => some []
  | char :: rest =>
      if isBlank char then tokens? rest
      else if char = '"' then
        match _read : readText? rest with
        | none => none
        | some (value, after) => (tokens? after).map (.text value :: ·)
      else
        match mark? char with
        | some mark => (tokens? rest).map (mark :: ·)
        | none =>
            match wordToken? (char :: rest.takeWhile (!endsWord ·)) with
            | none => none
            | some token => (tokens? (rest.dropWhile (!endsWord ·))).map (token :: ·)
termination_by text.length
decreasing_by
  · simp
  · have := length_le_of_readText? _read
    simp only [List.length_cons]
    omega
  · simp
  · have := (List.dropWhile_suffix (!endsWord ·) (l := rest)).length_le
    simp only [List.length_cons]
    omega

end Json

end OwnerCoverage
