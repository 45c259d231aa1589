import Mathlib.Tactic.FieldSimp
import OwnerCoverage.Decimal.Layout
import OwnerCoverage.Json.Token
import OwnerCoverage.Proofs.Decimal.Shortest
import OwnerCoverage.Proofs.Text.Pieces

/-!
# Laid out decimals read back

Whatever a format lays out is a whole part, perhaps a fraction, and perhaps an exponent. The whole
part starts with a zero only if it is one. So every layout can be read as a number, and what is read
has the value of the decimal that was laid out, though not always its digits.
-/

namespace OwnerCoverage

namespace NumberFormat

section Digits

variable {value : Nat}

theorem digitsOf_eq_toDigits (value : Nat) : digitsOf value = Nat.toDigits 10 value := by
  rw [digitsOf, Nat.toString_eq_repr, Nat.toList_repr]

theorem isDigit_of_mem_digitsOf {char : Char} (mem : char ∈ digitsOf value) :
    char.isDigit = true := by
  rw [digitsOf_eq_toDigits] at mem
  exact Nat.isDigit_of_mem_toDigits (by decide) (by decide) mem

theorem digitsOf_ne_nil (value : Nat) : digitsOf value ≠ [] := by
  rw [digitsOf_eq_toDigits]
  exact Nat.toDigits_ne_nil

theorem ofDigitChars_digitsOf (value start : Nat) :
    Nat.ofDigitChars 10 (digitsOf value) start = 10 ^ (digitsOf value).length * start + value := by
  rw [Nat.ofDigitChars_eq_ofDigitChars_zero, digitsOf_eq_toDigits, Nat.ofDigitChars_ten_toDigits]

/-- Only the digits of zero start with a zero. -/
theorem eq_zero_of_head?_digitsOf (starts : (digitsOf value).head? = some '0') : value = 0 := by
  rw [digitsOf_eq_toDigits] at starts
  induction value using Nat.strongRecOn with
  | ind value ih =>
      by_cases single : value < 10
      · rw [Nat.toDigits_of_lt_base single, List.head?_cons, Option.some.injEq,
          Nat.digitChar_eq_zero] at starts
        exact starts
      · rw [Nat.toDigits_of_base_le (by decide) (by omega),
          List.head?_append_of_ne_nil _ Nat.toDigits_ne_nil] at starts
        have leading := ih (value / 10) (by omega) starts
        omega

theorem digitsOf_zero : digitsOf 0 = ['0'] := by
  rw [digitsOf_eq_toDigits, Nat.toDigits_zero]

end Digits

end NumberFormat

namespace Json

open NumberFormat

section Words

/-- A point and the digits behind it, if there are any. -/
def pointed (fraction : List Char) : List Char :=
  if fraction = [] then [] else '.' :: fraction

theorem readFraction?_pointed {fraction rest : List Char}
    (digits : ∀ char ∈ fraction, char.isDigit = true) (stops : ∀ char ∈ rest.head?, char = 'e') :
    readFraction? (pointed fraction ++ rest) = some (fraction, rest) := by
  unfold pointed
  split
  · rename_i none
    rw [none, List.nil_append]
    cases rest with
    | nil => rfl
    | cons mark rest =>
        obtain rfl : mark = 'e' := stops mark rfl
        rfl
  · rename_i some
    have ends : ∀ char ∈ rest.head?, char.isDigit = false := by
      intro char head
      rw [stops char head]
      rfl
    rcases Text.takeWhile_append_of_stops digits ends with ⟨taken, left⟩
    rw [List.cons_append, readFraction?]
    simp only [taken, left]
    rw [if_neg (by rw [List.isEmpty_iff]; exact some)]

/-- A word is read part by part. -/
theorem readDecimal?_parts {whole fraction rest : List Char}
    (wholeDigits : ∀ char ∈ whole, char.isDigit = true) (some : whole ≠ [])
    (plain : whole.head? = .some '0' → whole = ['0'])
    (fractionDigits : ∀ char ∈ fraction, char.isDigit = true)
    (stops : ∀ char ∈ rest.head?, char = 'e') :
    readDecimal? (whole ++ (pointed fraction ++ rest)) =
      (readExponent? rest).map fun exponent =>
        ⟨Nat.ofDigitChars 10 (whole ++ fraction) 0, exponent - fraction.length⟩ := by
  have ends : ∀ char ∈ (pointed fraction ++ rest).head?, char.isDigit = false := by
    intro char head
    unfold pointed at head
    split at head
    · rw [stops char head]
      rfl
    · rw [List.cons_append, List.head?_cons, Option.mem_some_iff] at head
      rw [← head]
      rfl
  rcases Text.takeWhile_append_of_stops wholeDigits ends with ⟨taken, left⟩
  have accepted : ¬(whole.isEmpty || (whole.head? == .some '0' && whole.length != 1)) = true := by
    rw [Bool.or_eq_true, Bool.and_eq_true, List.isEmpty_iff, beq_iff_eq, bne_iff_ne]
    rintro (none | ⟨zero, longer⟩)
    · exact some none
    · rw [plain zero] at longer
      exact longer rfl
  unfold readDecimal?
  simp only [taken, left]
  rw [if_neg accepted, readFraction?_pointed fractionDigits stops]

theorem readDigits?_digitsOf (value : Nat) : readDigits? (digitsOf value) = some value := by
  have accepted : ¬((digitsOf value).isEmpty || (digitsOf value).any (!·.isDigit)) = true := by
    rw [Bool.or_eq_true, List.isEmpty_iff, List.any_eq_true]
    rintro (none | ⟨char, mem, notDigit⟩)
    · exact digitsOf_ne_nil value none
    · rw [isDigit_of_mem_digitsOf mem] at notDigit
      exact absurd notDigit (by decide)
  rw [readDigits?, if_neg accepted, ofDigitChars_digitsOf, Nat.mul_zero, Nat.zero_add]

/-- An exponent as a layout writes it. -/
theorem readExponent?_written (exponent : Int) :
    readExponent? ('e' :: (if exponent < 0 then '-' else '+') :: digitsOf exponent.natAbs) =
      some exponent := by
  have behindMinus (digits : List Char) : readExponent? ('e' :: '-' :: digits) =
      (readDigits? digits).map (-Int.ofNat ·) := rfl
  have behindPlus (digits : List Char) : readExponent? ('e' :: '+' :: digits) =
      (readDigits? digits).map Int.ofNat := rfl
  split
  · rw [behindMinus, readDigits?_digitsOf, Option.map_some, Option.some.injEq, Int.ofNat_eq_natCast]
    omega
  · rw [behindPlus, readDigits?_digitsOf, Option.map_some, Option.some.injEq, Int.ofNat_eq_natCast]
    omega

end Words

section Layouts

/-- Zeros behind the digits of a decimal do not change its value if they stand behind the point. -/
theorem value_shifted (digits places : Nat) (exponent : Int) :
    (Decimal.mk (10 ^ places * digits) (exponent - places)).value =
      (Decimal.mk digits exponent).value := by
  rw [Decimal.value, Decimal.value, zpow_sub₀ (by norm_num), zpow_natCast, Nat.cast_mul,
    Nat.cast_pow, Nat.cast_ofNat]
  field_simp

theorem isDigit_of_mem_zeros {count : Nat} {char : Char} (mem : char ∈ zeros count) :
    char.isDigit = true := by
  rw [List.eq_of_mem_replicate mem]
  rfl

theorem readDecimal?_layPositional_of_nonneg {digits : Nat} {exponent : Int} (showsWhole : Bool)
    (natural : 0 ≤ exponent) (plain : digits = 0 → exponent = 0) :
    ∃ read, readDecimal? (layPositional showsWhole (digitsOf digits) exponent) = some read ∧
      read.value = (Decimal.mk digits exponent).value := by
  let places := if showsWhole then 1 else 0
  have layout : layPositional showsWhole (digitsOf digits) exponent =
      (digitsOf digits ++ zeros exponent.toNat) ++ (pointed (zeros places) ++ []) := by
    rw [layPositional, if_pos natural]
    cases showsWhole <;> rfl
  have wholeDigits : ∀ char ∈ digitsOf digits ++ zeros exponent.toNat, char.isDigit = true := by
    intro char mem
    rcases List.mem_append.1 mem with mem | mem
    · exact isDigit_of_mem_digitsOf mem
    · exact isDigit_of_mem_zeros mem
  have whole : (digitsOf digits ++ zeros exponent.toNat).head? = some '0' →
      digitsOf digits ++ zeros exponent.toNat = ['0'] := by
    rw [List.head?_append_of_ne_nil _ (digitsOf_ne_nil digits)]
    intro starts
    have zero := eq_zero_of_head?_digitsOf starts
    rw [zero, plain zero, digitsOf_zero]
    rfl
  have zeroDigits : ∀ char ∈ zeros places, char.isDigit = true := fun _ => isDigit_of_mem_zeros
  have value : Nat.ofDigitChars 10 (digitsOf digits ++ zeros exponent.toNat ++ zeros places) 0 =
      10 ^ (exponent.toNat + places) * digits := by
    rw [List.append_assoc, Nat.ofDigitChars_append, ofDigitChars_digitsOf, Nat.mul_zero,
      Nat.zero_add, zeros, zeros, ← List.replicate_add, Nat.ofDigitChars_replicate_zero]
  -- The zeros before the point and behind it scale the digits by as much as the point takes back.
  have behindPoint : (0 : Int) - (zeros places).length = exponent - ↑(exponent.toNat + places) := by
    rw [zeros, List.length_replicate]
    omega
  have nonempty : digitsOf digits ++ zeros exponent.toNat ≠ [] :=
    List.append_ne_nil_of_left_ne_nil (digitsOf_ne_nil digits) _
  rw [layout, readDecimal?_parts wholeDigits nonempty whole zeroDigits (by simp), value]
  refine ⟨_, rfl, ?_⟩
  dsimp only
  rw [behindPoint, value_shifted]

theorem readDecimal?_layPositional_of_neg {digits : Nat} {exponent : Int} (showsWhole : Bool)
    (negative : exponent < 0) (plain : digits = 0 → exponent = 0) :
    ∃ read, readDecimal? (layPositional showsWhole (digitsOf digits) exponent) = some read ∧
      read.value = (Decimal.mk digits exponent).value := by
  generalize places : (-exponent).toNat = fraction
  have exponentEq : exponent = 0 - (fraction : Int) := by omega
  by_cases shorter : fraction < (digitsOf digits).length
  · let before := (digitsOf digits).take ((digitsOf digits).length - fraction)
    let behind := (digitsOf digits).drop ((digitsOf digits).length - fraction)
    have behindLength : behind.length = fraction := by
      rw [List.length_drop]
      omega
    have behindNonempty : behind ≠ [] := by
      rw [← List.length_pos_iff]
      omega
    have layout : layPositional showsWhole (digitsOf digits) exponent =
        before ++ (pointed behind ++ []) := by
      rw [layPositional, if_neg (by omega), List.append_nil, pointed, if_neg behindNonempty]
      simp only [places, if_pos shorter]
      rfl
    have beforeNonempty : before ≠ [] := by
      rw [← List.length_pos_iff, List.length_take]
      omega
    have plainBefore : before.head? = some '0' → before = ['0'] := by
      rw [List.head?_take, if_neg (by omega)]
      intro starts
      have zero := plain (eq_zero_of_head?_digitsOf starts)
      omega
    have beforeDigits : ∀ char ∈ before, char.isDigit = true :=
      fun _ mem => isDigit_of_mem_digitsOf (List.mem_of_mem_take mem)
    have behindDigits : ∀ char ∈ behind, char.isDigit = true :=
      fun _ mem => isDigit_of_mem_digitsOf (List.mem_of_mem_drop mem)
    have value : Nat.ofDigitChars 10 (before ++ behind) 0 = digits := by
      rw [List.take_append_drop, ofDigitChars_digitsOf, Nat.mul_zero, Nat.zero_add]
    rw [layout, readDecimal?_parts beforeDigits beforeNonempty plainBefore behindDigits (by simp),
      value, behindLength, exponentEq]
    exact ⟨_, rfl, rfl⟩
  · let behind := zeros (fraction - (digitsOf digits).length) ++ digitsOf digits
    have behindLength : behind.length = fraction := by
      rw [List.length_append, zeros, List.length_replicate]
      omega
    have behindNonempty : behind ≠ [] :=
      List.append_ne_nil_of_right_ne_nil _ (digitsOf_ne_nil digits)
    have layout : layPositional showsWhole (digitsOf digits) exponent =
        ['0'] ++ (pointed behind ++ []) := by
      rw [layPositional, if_neg (by omega), List.append_nil, pointed, if_neg behindNonempty]
      simp only [places, if_neg shorter]
      rfl
    have behindDigits : ∀ char ∈ behind, char.isDigit = true := by
      intro char mem
      rcases List.mem_append.1 mem with mem | mem
      · exact isDigit_of_mem_zeros mem
      · exact isDigit_of_mem_digitsOf mem
    have value : Nat.ofDigitChars 10 (['0'] ++ behind) 0 = digits := by
      rw [← List.append_assoc, Nat.ofDigitChars_append, ofDigitChars_digitsOf,
        Nat.ofDigitChars_append, zeros, Nat.ofDigitChars_replicate_zero]
      simp [Nat.ofDigitChars_cons]
    have zeroDigit : ∀ char ∈ ['0'], char.isDigit = true := by simp
    rw [layout, readDecimal?_parts zeroDigit (by simp) (fun _ => rfl) behindDigits (by simp), value,
      behindLength, exponentEq]
    exact ⟨_, rfl, rfl⟩

theorem readDecimal?_layScientific (digits : Nat) (leading : Int) :
    ∃ read, readDecimal? (layScientific (digitsOf digits) leading) = some read ∧
      read.value = (Decimal.mk digits (leading - ((digitsOf digits).length - 1))).value := by
  cases written : digitsOf digits with
  | nil => exact (digitsOf_ne_nil digits written).elim
  | cons first rest =>
      have isDigit : ∀ char ∈ first :: rest, char.isDigit = true := by
        rw [← written]
        exact fun char => isDigit_of_mem_digitsOf
      rw [List.forall_mem_cons] at isDigit
      have firstDigit : ∀ char ∈ [first], char.isDigit = true := by
        rw [List.forall_mem_singleton]
        exact isDigit.1
      have layout : layScientific (first :: rest) leading = [first] ++ (pointed rest ++
          'e' :: (if leading < 0 then '-' else '+') :: digitsOf leading.natAbs) := by
        cases rest <;> rfl
      have value : Nat.ofDigitChars 10 ([first] ++ rest) 0 = digits := by
        rw [List.singleton_append, ← written, ofDigitChars_digitsOf, Nat.mul_zero, Nat.zero_add]
      have places : ((first :: rest).length : Int) - 1 = rest.length := by
        rw [List.length_cons]
        omega
      rw [layout, readDecimal?_parts firstDigit (by simp) (by simp) isDigit.2 (by simp), value,
        readExponent?_written, places]
      exact ⟨_, rfl, rfl⟩

/-- Every layout of a decimal can be read, and what is read has the value of the decimal. -/
theorem exists_readDecimal?_lay (format : NumberFormat) {decimal : Decimal}
    (plain : decimal.digits = 0 → decimal.exponent = 0) :
    ∃ read, readDecimal? (format.lay decimal) = some read ∧ read.value = decimal.value := by
  unfold lay
  dsimp only
  split
  · by_cases negative : decimal.exponent < 0
    · exact readDecimal?_layPositional_of_neg format.showsWhole negative plain
    · exact readDecimal?_layPositional_of_nonneg format.showsWhole (by omega) plain
  · rcases readDecimal?_layScientific decimal.digits
      (decimal.exponent + (digitsOf decimal.digits).length - 1) with ⟨read, isRead, equal⟩
    refine ⟨read, isRead, ?_⟩
    rw [equal]
    congr 2
    omega

end Layouts

section Numbers

/-- Whether a number that is read is nearest to a number, which has the same sign. -/
structure Number.RoundsTo (read : Number) (number : Binary64) : Prop where
  sign : number.negative = read.negative
  nearest : number.IsNearest read.decimal.value

/-- What is read rounds to one number only. -/
theorem Number.RoundsTo.iff_eq {read : Number} {number other : Binary64}
    (rounds : read.RoundsTo number) : read.RoundsTo other ↔ other = number := by
  constructor
  · intro otherRounds
    have sameSign : other.negative = number.negative := otherRounds.sign.trans rounds.sign.symm
    have sameMagnitude : other.magnitude = number.magnitude :=
      otherRounds.nearest.magnitude_eq rounds.nearest
    cases other
    cases number
    subst sameSign sameMagnitude
    rfl
  · rintro rfl
    exact rounds

theorem readNumber?_of_readDecimal? {word : List Char} {decimal : Decimal}
    (read : readDecimal? word = some decimal) : readNumber? word = some ⟨false, decimal⟩ := by
  unfold readNumber?
  split
  · simp [readDecimal?] at read
  · rw [read, Option.map_some]

theorem toList_write_of_finite (format : NumberFormat) {number : Binary64}
    (finite : number.magnitude < Binary64.infiniteMagnitude) :
    (format.write number).toList =
      (if number.negative then ['-'] else []) ++
        format.lay (Decimal.shortest format.tie number) := by
  have notNaN : ¬number.isNaN = true := by
    rw [Binary64.isNaN_eq_false_iff.2 finite.le]
    decide
  have notInfinite : ¬number.isInfinite = true := by
    rw [Binary64.isInfinite, decide_eq_true_eq]
    exact finite.ne
  rw [NumberFormat.write, if_neg notNaN, if_neg notInfinite, String.toList_ofList]
  split <;> rfl

/-- A finite number is the one that its text rounds to, whatever the format. -/
theorem exists_readNumber?_write (format : NumberFormat) {number : Binary64}
    (finite : number.magnitude < Binary64.infiniteMagnitude) :
    ∃ read, readNumber? (format.write number).toList = some read ∧ read.RoundsTo number := by
  have notNaN : number.isNaN = false := Binary64.isNaN_eq_false_iff.2 finite.le
  rcases exists_readDecimal?_lay format (Decimal.exponent_eq_zero_of_digits notNaN) with
    ⟨decimal, read, sameValue⟩
  have nearest := Decimal.isNearest_value_shortest format.tie notNaN
  rw [← sameValue] at nearest
  rw [toList_write_of_finite format finite]
  cases sign : number.negative with
  | true =>
      refine ⟨⟨true, decimal⟩, ?_, sign, nearest⟩
      rw [if_pos rfl, List.singleton_append, readNumber?, read, Option.map_some]
  | false =>
      refine ⟨⟨false, decimal⟩, ?_, sign, nearest⟩
      rw [if_neg Bool.false_ne_true, List.nil_append]
      exact readNumber?_of_readDecimal? read

example : readNumber? "-5e-324".toList = some ⟨true, ⟨5, -324⟩⟩ := by decide

/-- Finite numbers that a format writes alike are the same. -/
theorem eq_of_write_eq {format : NumberFormat} {number other : Binary64}
    (finite : number.magnitude < Binary64.infiniteMagnitude)
    (otherFinite : other.magnitude < Binary64.infiniteMagnitude)
    (same : format.write number = format.write other) : number = other := by
  rcases exists_readNumber?_write format finite with ⟨read, readEq, rounds⟩
  rcases exists_readNumber?_write format otherFinite with ⟨otherRead, otherReadEq, otherRounds⟩
  rw [← same, readEq, Option.some.injEq] at otherReadEq
  subst otherReadEq
  exact otherRounds.iff_eq.1 rounds

/-- A whole number is read as itself. -/
theorem readNumber?_digitsOf (value : Nat) :
    readNumber? (digitsOf value) = some ⟨false, ⟨value, 0⟩⟩ := by
  have whole : (digitsOf value).head? = some '0' → digitsOf value = ['0'] := by
    intro starts
    rw [eq_zero_of_head?_digitsOf starts, digitsOf_zero]
  have layout : digitsOf value = digitsOf value ++ (pointed [] ++ []) := (List.append_nil _).symm
  have wholeDigits : ∀ char ∈ digitsOf value, char.isDigit = true :=
    fun _ => isDigit_of_mem_digitsOf
  apply readNumber?_of_readDecimal?
  rw [layout, readDecimal?_parts wholeDigits (digitsOf_ne_nil value) whole (by simp) (by simp),
    List.append_nil, ofDigitChars_digitsOf, Nat.mul_zero, Nat.zero_add]
  rfl

end Numbers

section Characters

/-- Whether a character may stand in a number. -/
def isNumeral (char : Char) : Bool := char.isDigit || ['.', 'e', '-', '+'].contains char

variable {char : Char}

theorem isNumeral_of_isDigit (digit : char.isDigit = true) : isNumeral char = true := by
  rw [isNumeral, digit, Bool.true_or]

theorem isNumeral_of_mem_layPositional {showsWhole : Bool} {value : Nat} {exponent : Int}
    (mem : char ∈ layPositional showsWhole (digitsOf value) exponent) : isNumeral char = true := by
  unfold layPositional at mem
  split at mem
  · rw [List.mem_append, List.mem_append] at mem
    rcases mem with (mem | mem) | mem
    · exact isNumeral_of_isDigit (isDigit_of_mem_digitsOf mem)
    · exact isNumeral_of_isDigit (isDigit_of_mem_zeros mem)
    · cases showsWhole
      · simp at mem
      · rw [if_pos rfl, List.mem_pair] at mem
        rcases mem with rfl | rfl <;> rfl
  · dsimp only at mem
    split at mem
    · rw [List.mem_append, List.mem_cons] at mem
      rcases mem with mem | rfl | mem
      · exact isNumeral_of_isDigit (isDigit_of_mem_digitsOf (List.mem_of_mem_take mem))
      · rfl
      · exact isNumeral_of_isDigit (isDigit_of_mem_digitsOf (List.mem_of_mem_drop mem))
    · rw [List.mem_append, List.mem_cons, List.mem_cons] at mem
      rcases mem with (rfl | rfl | mem) | mem
      · rfl
      · rfl
      · exact isNumeral_of_isDigit (isDigit_of_mem_zeros mem)
      · exact isNumeral_of_isDigit (isDigit_of_mem_digitsOf mem)

theorem isNumeral_of_mem_layScientific {value : Nat} {leading : Int}
    (mem : char ∈ layScientific (digitsOf value) leading) : isNumeral char = true := by
  have digits : ∀ digit ∈ digitsOf value, isNumeral digit = true :=
    fun _ digit => isNumeral_of_isDigit (isDigit_of_mem_digitsOf digit)
  unfold layScientific at mem
  rw [List.mem_append, List.mem_cons, List.mem_cons] at mem
  rcases mem with mem | rfl | rfl | mem
  · split at mem
    · simp at mem
    · rename_i written
      exact digits char (by rw [written]; exact mem)
    · rename_i first rest _ written
      rw [written, List.forall_mem_cons] at digits
      rw [List.mem_cons, List.mem_cons] at mem
      rcases mem with rfl | rfl | mem
      · exact digits.1
      · rfl
      · exact digits.2 char mem
  · rfl
  · split <;> rfl
  · exact isNumeral_of_isDigit (isDigit_of_mem_digitsOf mem)

theorem isNumeral_of_mem_write {format : NumberFormat} {number : Binary64}
    (finite : number.magnitude < Binary64.infiniteMagnitude)
    (mem : char ∈ (format.write number).toList) : isNumeral char = true := by
  rw [toList_write_of_finite format finite, List.mem_append] at mem
  rcases mem with mem | mem
  · split at mem
    · rw [List.mem_singleton.1 mem]
      rfl
    · simp at mem
  · unfold lay at mem
    dsimp only at mem
    split at mem
    · exact isNumeral_of_mem_layPositional mem
    · exact isNumeral_of_mem_layScientific mem

end Characters

end Json

end OwnerCoverage
