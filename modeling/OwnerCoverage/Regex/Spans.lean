import OwnerCoverage.Regex.Matcher

/-!
# What regular expressions match

A match of an expression leads from one position of a text to another. `Spans` says by rules which
positions those are, one rule for each way to match. The matcher computes exactly this relation:
`testBit_advance` for sets of positions, and `foundIn_iff` for the question whether anything
matches.
-/

namespace OwnerCoverage

namespace Regex

/-- A match of an expression in a text leads from the first position to the second. A position is
the number of characters before it. -/
inductive Spans (text : List Char) : Regex CharSet → Nat → Nat → Prop where
  | empty {position : Nat} (bounded : position ≤ text.length) : Spans text .empty position position
  | oneOf {set : CharSet} {position : Nat} {char : Char} (here : text[position]? = some char)
      (member : set.contains char = true) : Spans text (.oneOf set) position (position + 1)
  | textStart : Spans text .textStart 0 0
  | textEnd : Spans text .textEnd text.length text.length
  | concat {first second : Regex CharSet} {start middle finish : Nat}
      (before : Spans text first start middle) (after : Spans text second middle finish) :
      Spans text (.concat first second) start finish
  | left {left right : Regex CharSet} {start finish : Nat} (span : Spans text left start finish) :
      Spans text (.alternate left right) start finish
  | right {left right : Regex CharSet} {start finish : Nat} (span : Spans text right start finish) :
      Spans text (.alternate left right) start finish
  | done {body : Regex CharSet} {position : Nat} (bounded : position ≤ text.length) :
      Spans text (.star body) position position
  | again {body : Regex CharSet} {start middle finish : Nat} (once : Spans text body start middle)
      (more : Spans text (.star body) middle finish) : Spans text (.star body) start finish

namespace Spans

variable {text : List Char} {regex first second left right body : Regex CharSet}
  {start finish : Nat}

/-- A match never leads backwards, nor beyond the end of the text. -/
theorem bounds (span : Spans text regex start finish) : start ≤ finish ∧ finish ≤ text.length := by
  induction span with
  | empty bounded => exact ⟨Nat.le_refl _, bounded⟩
  | oneOf here _ =>
      have inside := (List.getElem?_eq_some_iff.1 here).1
      exact ⟨by omega, by omega⟩
  | textStart => exact ⟨Nat.le_refl _, Nat.zero_le _⟩
  | textEnd => exact ⟨Nat.le_refl _, Nat.le_refl _⟩
  | concat _ _ before after => exact ⟨by omega, after.2⟩
  | left _ ih => exact ih
  | right _ ih => exact ih
  | done bounded => exact ⟨Nat.le_refl _, bounded⟩
  | again _ _ once more => exact ⟨by omega, more.2⟩

theorem concat_iff : Spans text (.concat first second) start finish ↔
    ∃ middle, Spans text first start middle ∧ Spans text second middle finish := by
  constructor
  · intro span
    cases span with
    | concat before after => exact ⟨_, before, after⟩
  · rintro ⟨middle, before, after⟩
    exact .concat before after

theorem alternate_iff : Spans text (.alternate left right) start finish ↔
    Spans text left start finish ∨ Spans text right start finish := by
  constructor
  · intro span
    cases span with
    | left span => exact Or.inl span
    | right span => exact Or.inr span
  · rintro (span | span)
    · exact .left span
    · exact .right span

end Spans

/-- A chain of at most some number of steps. -/
inductive Chain (step : Nat → Nat → Prop) : Nat → Nat → Nat → Prop where
  | done {rounds position : Nat} : Chain step rounds position position
  | again {rounds start middle finish : Nat} (once : step start middle)
      (more : Chain step rounds middle finish) : Chain step (rounds + 1) start finish

namespace Chain

variable {step : Nat → Nat → Prop} {rounds more start finish : Nat}

theorem mono (chain : Chain step rounds start finish) (enough : rounds ≤ more) :
    Chain step more start finish := by
  induction chain generalizing more with
  | done => exact .done
  | again once _ ih =>
      rcases more with _ | more
      · omega
      · exact .again once (ih (by omega))

/-- A chain whose steps lead forward within a length needs no more steps than the length has
positions, since a step that stays in place can be left out. -/
theorem shorten {length : Nat} (forward : ∀ i j, step i j → i ≤ j ∧ j ≤ length)
    (chain : Chain step rounds start finish) (inside : start ≤ length) :
    Chain step (length - start) start finish := by
  induction chain with
  | done => exact .done
  | @again _ start middle _ once _ ih =>
      have bounds := forward _ _ once
      rcases Nat.lt_or_ge start middle with moved | stayed
      · exact (Chain.again once (ih bounds.2)).mono (by omega)
      · have same : start = middle := by omega
        rw [same]
        exact ih bounds.2

end Chain

/-- The positions of a set lie within a text of some length. -/
def Bounded (length positions : Nat) : Prop :=
  ∀ position, positions.testBit position = true → position ≤ length

namespace Occurrences

theorem testBit_positionsOf_note (test : Char → Bool) (char : Char) (noted position : Nat)
    (occurrences : Occurrences) :
    (positionsOf test (note char noted occurrences)).testBit position =
      ((decide (noted = position) && test char) ||
        (positionsOf test occurrences).testBit position) := by
  fun_induction note char noted occurrences with
  | case1 =>
      by_cases holds : test char <;>
        simp [positionsOf, holds, Nat.one_shiftLeft, Nat.testBit_two_pow]
  | case2 positions rest =>
      by_cases holds : test char <;>
        simp [positionsOf, holds, Nat.one_shiftLeft, Nat.testBit_two_pow, Bool.or_comm,
          Bool.or_assoc]
  | case3 other positions rest different ih =>
      by_cases holds : test other <;> simp [positionsOf, holds, ih, Bool.or_left_comm]

theorem testBit_positionsOf_ofTextFrom (test : Char → Bool) (text : List Char)
    (first position : Nat) :
    (positionsOf test (ofTextFrom first text)).testBit position =
      (decide (first ≤ position) && (text[position - first]?).any test) := by
  induction text generalizing first with
  | nil => simp [ofTextFrom, positionsOf]
  | cons char rest ih =>
      rw [ofTextFrom, testBit_positionsOf_note, ih]
      rcases Nat.lt_trichotomy first position with before | rfl | after
      · obtain ⟨offset, rfl⟩ := Nat.exists_eq_add_of_lt before
        have fromHere : first + offset + 1 - first = offset + 1 := by omega
        have fromNext : first + offset + 1 - (first + 1) = offset := by omega
        rw [fromHere, fromNext]
        simp [show first ≠ first + offset + 1 by omega, show first ≤ first + offset + 1 by omega,
          show first + 1 ≤ first + offset + 1 by omega]
      · simp [show ¬first + 1 ≤ first by omega]
      · simp [show first ≠ position by omega, show ¬first ≤ position by omega,
          show ¬first + 1 ≤ position by omega]

/-- The positions of a test are those before a character that satisfies it. -/
theorem testBit_positionsOf_ofText (test : Char → Bool) (text : List Char) (position : Nat) :
    (positionsOf test (ofText text)).testBit position = (text[position]?).any test := by
  simpa [ofText] using testBit_positionsOf_ofTextFrom test text 0 position

end Occurrences

section Closure

variable {advance : Nat → Nat} {step : Nat → Nat → Prop} {length : Nat}

/-- A set of positions that a step does not extend holds all that chains from it reach. -/
theorem testBit_of_chain_of_closed {positions rounds start finish : Nat}
    (closed : ∀ i j, positions.testBit i = true → step i j → positions.testBit j = true)
    (chain : Chain step rounds start finish) (present : positions.testBit start = true) :
    positions.testBit finish = true := by
  induction chain with
  | done => exact present
  | again once _ ih => exact ih (closed _ _ present once)

theorem testBit_closure (bounds : ∀ i j, step i j → j ≤ length)
    (spec : ∀ positions, Bounded length positions → ∀ j,
      (advance positions).testBit j = true ↔ ∃ i, positions.testBit i = true ∧ step i j)
    (rounds : Nat) {positions : Nat} (bounded : Bounded length positions) (j : Nat) :
    (closure advance rounds positions).testBit j = true ↔
      ∃ i, positions.testBit i = true ∧ Chain step rounds i j := by
  induction rounds generalizing positions with
  | zero =>
      constructor
      · intro present
        exact ⟨j, present, .done⟩
      · rintro ⟨i, present, chain⟩
        cases chain
        exact present
  | succ rounds ih =>
      have extended (j : Nat) : (positions ||| advance positions).testBit j = true ↔
          positions.testBit j = true ∨ ∃ i, positions.testBit i = true ∧ step i j := by
        rw [Nat.testBit_or, Bool.or_eq_true, spec _ bounded]
      have boundedExtended : Bounded length (positions ||| advance positions) := by
        intro position present
        rcases (extended _).1 present with present | ⟨i, _, stepped⟩
        · exact bounded _ present
        · exact bounds _ _ stepped
      simp only [closure]
      split
      case isTrue same =>
        constructor
        · intro present
          exact ⟨j, present, .done⟩
        · rintro ⟨i, present, chain⟩
          refine testBit_of_chain_of_closed ?_ chain present
          intro i j present stepped
          rw [← same]
          exact (extended j).2 (Or.inr ⟨i, present, stepped⟩)
      case isFalse =>
        rw [ih boundedExtended]
        constructor
        · rintro ⟨i, present, chain⟩
          rcases (extended i).1 present with present | ⟨origin, present, stepped⟩
          · exact ⟨i, present, chain.mono (by omega)⟩
          · exact ⟨origin, present, .again stepped chain⟩
        · rintro ⟨i, present, chain⟩
          cases chain with
          | done => exact ⟨j, (extended j).2 (Or.inl present), .done⟩
          | again once more => exact ⟨_, (extended _).2 (Or.inr ⟨i, present, once⟩), more⟩

end Closure

/-- A match of a repetition is a chain of matches of its body. -/
theorem spans_star_iff {text : List Char} {body : Regex CharSet} {start finish : Nat}
    (inside : start ≤ text.length) : Spans text (.star body) start finish ↔
      Chain (Spans text body) (text.length + 1) start finish := by
  constructor
  · intro span
    have chain : ∃ rounds, Chain (Spans text body) rounds start finish := by
      generalize shape : Regex.star body = regex at span
      induction span with
      | done => exact ⟨0, .done⟩
      | again once _ _ ih =>
          cases shape
          rcases ih once.bounds.2 rfl with ⟨rounds, chain⟩
          exact ⟨rounds + 1, .again once chain⟩
      | _ => cases shape
    rcases chain with ⟨rounds, chain⟩
    exact (chain.shorten (fun _ _ span => span.bounds) inside).mono (by omega)
  · intro chain
    generalize text.length + 1 = rounds at chain
    induction chain with
    | done => exact .done inside
    | again once _ ih => exact .again once (ih once.bounds.2)

/-- An expression turns a set of positions into the positions where a match from one of them
ends. -/
theorem testBit_advance (text : List Char) (regex : Regex CharSet) {positions : Nat}
    (bounded : Bounded text.length positions) (finish : Nat) :
    ((regex.map fun set => (Occurrences.ofText text).positionsOf set.contains).advance text.length
      positions).testBit finish = true ↔
      ∃ start, positions.testBit start = true ∧ Spans text regex start finish := by
  induction regex generalizing positions finish with
  | empty =>
      simp only [map, advance]
      constructor
      · intro present
        exact ⟨finish, present, .empty (bounded _ present)⟩
      · rintro ⟨start, present, span⟩
        cases span
        exact present
  | oneOf set =>
      simp only [map, advance]
      rw [Nat.testBit_shiftLeft, Nat.testBit_and, Occurrences.testBit_positionsOf_ofText]
      simp only [ge_iff_le, Bool.and_eq_true, decide_eq_true_eq]
      constructor
      · rintro ⟨moved, present, holds⟩
        rcases (Option.any_eq_true_iff_get _ _).1 holds with ⟨isSome, member⟩
        have span := Spans.oneOf (Option.some_get isSome).symm member
        rw [Nat.sub_add_cancel moved] at span
        exact ⟨finish - 1, present, span⟩
      · rintro ⟨start, present, span⟩
        cases span with
        | oneOf here member => simp [present, here, member]
  | textStart =>
      simp only [map, advance]
      rw [Nat.testBit_and]
      constructor
      · intro present
        rw [Bool.and_eq_true] at present
        have same : finish = 0 := by
          simpa [Nat.testBit_one_eq_true_iff_self_eq_zero] using present.2
        subst same
        exact ⟨0, present.1, .textStart⟩
      · rintro ⟨start, present, span⟩
        cases span
        simp [present]
  | textEnd =>
      simp only [map, advance]
      rw [Nat.testBit_and, Nat.one_shiftLeft, Nat.testBit_two_pow]
      simp only [Bool.and_eq_true, decide_eq_true_eq]
      constructor
      · rintro ⟨present, rfl⟩
        exact ⟨_, present, .textEnd⟩
      · rintro ⟨start, present, span⟩
        cases span
        exact ⟨present, rfl⟩
  | concat first second ihFirst ihSecond =>
      simp only [map, advance]
      have boundedFirst : Bounded text.length
          ((first.map fun set => (Occurrences.ofText text).positionsOf set.contains).advance
            text.length positions) := by
        intro position present
        rcases (ihFirst bounded _).1 present with ⟨_, _, span⟩
        exact span.bounds.2
      rw [ihSecond boundedFirst]
      constructor
      · rintro ⟨middle, present, after⟩
        rcases (ihFirst bounded _).1 present with ⟨start, present, before⟩
        exact ⟨start, present, .concat before after⟩
      · rintro ⟨start, present, span⟩
        rcases Spans.concat_iff.1 span with ⟨middle, before, after⟩
        exact ⟨middle, (ihFirst bounded _).2 ⟨start, present, before⟩, after⟩
  | alternate left right ihLeft ihRight =>
      simp only [map, advance]
      rw [Nat.testBit_or, Bool.or_eq_true, ihLeft bounded, ihRight bounded]
      simp only [Spans.alternate_iff, and_or_left, exists_or]
  | star body ih =>
      simp only [map, advance]
      rw [testBit_closure (fun _ _ span => span.bounds.2) (fun _ bounded => ih bounded) _ bounded]
      constructor
      · rintro ⟨start, present, chain⟩
        exact ⟨start, present, (spans_star_iff (bounded _ present)).2 chain⟩
      · rintro ⟨start, present, span⟩
        exact ⟨start, present, (spans_star_iff (bounded _ present)).1 span⟩

/-- An expression is found in a text exactly if some part of the text matches it. -/
theorem foundIn_iff (regex : Regex CharSet) (text : List Char) :
    regex.foundIn text = true ↔ ∃ start finish, Spans text regex start finish := by
  have everywhere (position : Nat) : (2 ^ (text.length + 1) - 1).testBit position =
      decide (position < text.length + 1) := Nat.testBit_two_pow_sub_one _ _
  have bounded : Bounded text.length (2 ^ (text.length + 1) - 1) := by
    intro position present
    rw [everywhere, decide_eq_true_eq] at present
    omega
  simp only [foundIn, Nat.pow_eq, bne_iff_ne, ne_eq]
  constructor
  · intro nonzero
    rcases Nat.exists_testBit_of_ne_zero nonzero with ⟨finish, present⟩
    rcases (testBit_advance text regex bounded finish).1 present with ⟨start, _, span⟩
    exact ⟨start, finish, span⟩
  · rintro ⟨start, finish, span⟩ zero
    have present := (testBit_advance text regex bounded finish).2
      ⟨start, by rw [everywhere, decide_eq_true_eq]; have := span.bounds; omega, span⟩
    rw [zero] at present
    simp at present

end Regex

end OwnerCoverage
