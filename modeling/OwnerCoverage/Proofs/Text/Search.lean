import Mathlib.Data.List.Infix
import OwnerCoverage.Proofs.Text.Order

/-!
# Texts among bytes

In UTF-8 the first byte of a character is no later byte of another one. So the bytes of a text occur
among the bytes of another exactly where its characters occur (`ofText_infix_iff`): a search may
compare bytes or characters.
-/

namespace OwnerCoverage

namespace Bytes

theorem exists_first_utf8EncodeChar (char : Char) :
    ∃ first more, String.utf8EncodeChar char = first :: more ∧ first.IsUTF8FirstByte := by
  rcases List.exists_cons_of_ne_nil (String.utf8EncodeChar_ne_nil (c := char)) with
    ⟨first, more, encoded⟩
  refine ⟨first, more, encoded, ?_⟩
  have isFirst := UInt8.isUTF8FirstByte_getElem_zero_utf8EncodeChar (c := char)
  simpa [encoded] using isFirst

/-- Where the bytes of a character start among those of a text, whole characters stand before. -/
theorem exists_split_of_flatMap_eq {char : Char} {text : List Char} {before after : Bytes}
    (cut : text.flatMap String.utf8EncodeChar = before ++ (String.utf8EncodeChar char ++ after)) :
    ∃ first second, text = first ++ second ∧
      second.flatMap String.utf8EncodeChar = String.utf8EncodeChar char ++ after := by
  rcases exists_first_utf8EncodeChar char with ⟨start, more, encoded, isFirst⟩
  induction text generalizing before with
  | nil => simp [encoded] at cut
  | cons other rest ih =>
      rcases before with _ | ⟨byte, before⟩
      · exact ⟨[], other :: rest, rfl, cut⟩
      · rw [List.flatMap_cons] at cut
        rcases List.append_eq_append_iff.1 cut with ⟨gap, _, inRest⟩ | ⟨gap, inOther, inRest⟩
        · rcases ih inRest with ⟨first, second, rfl, bytes⟩
          exact ⟨other :: first, second, rfl, bytes⟩
        · rcases gap with _ | ⟨inside, gap⟩
          · exact ⟨[other], rest, rfl, inRest.symm⟩
          · -- The first byte of the character would be a later byte of the other one.
            rw [encoded, List.cons_append, List.cons_append, List.cons.injEq] at inRest
            have position : (byte :: before).length < (String.utf8EncodeChar other).length := by
              simp [inOther]
            have here : (String.utf8EncodeChar other)[(byte :: before).length] = start := by
              simp [inOther, inRest.1]
            rw [← here, UInt8.isUTF8FirstByte_getElem_utf8EncodeChar] at isFirst
            simp at isFirst

theorem prefix_of_flatMap_prefix {piece text : List Char}
    (starts : piece.flatMap String.utf8EncodeChar <+: text.flatMap String.utf8EncodeChar) :
    piece <+: text := by
  rcases starts with ⟨rest, equal⟩
  apply List.isPrefix_of_utf8Encode_append_eq_utf8Encode rest.toByteArray
  rw [List.utf8Encode, List.utf8Encode, ← equal, List.toByteArray_append]

/-- The bytes of a text occur among those of another exactly if its characters occur in it. -/
theorem ofText_infix_iff {piece text : String} :
    ofText piece <:+: ofText text ↔ piece.toList <:+: text.toList := by
  rw [ofText_eq_flatMap, ofText_eq_flatMap]
  constructor
  · rintro ⟨before, after, equal⟩
    cases chars : piece.toList with
    | nil => exact List.nil_infix
    | cons char rest =>
        rw [chars, List.flatMap_cons, List.append_assoc, List.append_assoc, eq_comm] at equal
        rcases exists_split_of_flatMap_eq equal with ⟨first, second, split, bytes⟩
        have starts : char :: rest <+: second := by
          apply prefix_of_flatMap_prefix
          rw [bytes, List.flatMap_cons, ← List.append_assoc]
          exact List.prefix_append _ _
        rw [split]
        exact starts.isInfix.trans (List.suffix_append first second).isInfix
  · rintro ⟨before, after, equal⟩
    rw [← equal, List.flatMap_append, List.flatMap_append]
    exact ⟨_, _, rfl⟩

end Bytes

end OwnerCoverage
