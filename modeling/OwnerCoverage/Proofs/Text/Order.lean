import Mathlib.Data.String.Basic
import Mathlib.Order.Basic
import OwnerCoverage.Text.Bytes

/-!
# Texts in the order of their bytes

UTF-8 keeps the order of characters: texts are ordered by their characters exactly as their bytes
are ordered (`ofText_lt_iff`). So the order of names in a listing does not depend on whether names
are compared as texts or as bytes.
-/

namespace OwnerCoverage

namespace Bytes

theorem ofText_eq_flatMap (text : String) :
    ofText text = text.toList.flatMap String.utf8EncodeChar := by
  rw [ofText, String.toUTF8_eq_toByteArray, ← String.utf8Encode_toList, List.utf8Encode,
    List.data_toByteArray]

theorem ofText_append (first second : String) :
    ofText (first ++ second) = ofText first ++ ofText second := by
  simp [ofText_eq_flatMap]

theorem ofText_injective {first second : String} (same : ofText first = ofText second) :
    first = second := by
  have read := toText?_ofText second
  rw [← same, toText?_ofText, Option.some.injEq] at read
  exact read

theorem ofNat_cons_lt_iff {first second : Nat} {more others : Bytes} (small : first < 256)
    (otherSmall : second < 256) :
    UInt8.ofNat first :: more < UInt8.ofNat second :: others ↔
      first < second ∨ first = second ∧ more < others := by
  rw [List.cons_lt_cons_iff, UInt8.lt_iff_toNat_lt, ← UInt8.toNat_inj,
    UInt8.toNat_ofNat_of_lt' small, UInt8.toNat_ofNat_of_lt' otherSmall]

/-- The bytes of a smaller character come first, whatever follows. -/
theorem utf8EncodeChar_append_lt {first second : Char} (less : first < second)
    (more others : Bytes) :
    String.utf8EncodeChar first ++ more < String.utf8EncodeChar second ++ others := by
  have below : first.val.toNat < second.val.toNat := less
  have bounded : second.val.toNat < 1114112 := by
    have value : second.val.toNat = second.toNat := rfl
    rcases second.valid with small | ⟨_, small⟩ <;> omega
  simp only [String.utf8EncodeChar]
  generalize first.val.toNat = lower at *
  generalize second.val.toNat = upper at *
  -- The digits of both codes to the base 64 decide, from the first on which they differ.
  have twoDigits (code : Nat) : code / 4096 = code / 64 / 64 := by
    rw [Nat.div_div_eq_div_mul]
  have threeDigits (code : Nat) : code / 262144 = code / 64 / 64 / 64 := by
    rw [Nat.div_div_eq_div_mul, Nat.div_div_eq_div_mul]
  split_ifs <;>
    simp (disch := omega) only [List.cons_append, List.nil_append, ofNat_cons_lt_iff, twoDigits,
      threeDigits] <;>
    omega

theorem flatMap_utf8EncodeChar_lt {first second : List Char} (less : first < second) :
    first.flatMap String.utf8EncodeChar < second.flatMap String.utf8EncodeChar := by
  induction less with
  | @nil char rest =>
      rw [List.flatMap_nil, List.flatMap_cons, String.utf8EncodeChar]
      split_ifs <;> exact .nil
  | rel below =>
      rw [List.flatMap_cons, List.flatMap_cons]
      exact utf8EncodeChar_append_lt below _ _
  | cons _ ih =>
      rw [List.flatMap_cons, List.flatMap_cons]
      exact List.append_left_lt ih

/-- Texts are ordered as their bytes are. -/
theorem ofText_lt_iff {first second : String} : ofText first < ofText second ↔ first < second := by
  have forward {first second : String} (less : first < second) : ofText first < ofText second := by
    rw [ofText_eq_flatMap, ofText_eq_flatMap]
    exact flatMap_utf8EncodeChar_lt (String.lt_iff_toList_lt.1 less)
  constructor
  · intro less
    rcases lt_trichotomy first second with below | rfl | above
    · exact below
    · exact absurd less (List.lt_irrefl _)
    · exact absurd less (List.lt_asymm (forward above))
  · exact forward

end Bytes

end OwnerCoverage
