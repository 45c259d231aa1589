import OwnerCoverage.Proofs.CommandLine.Running
import OwnerCoverage.Proofs.Json.Writing

/-!
# Records of reports read back

The record of a report is read as an object of its five fields, whatever characters its texts hold,
and the ratio rounds back to the very number that was written. Such a record holds no control
character, so the records that a run prints are the lines of its output
(`Report.record_reads_back_on_one_line`).
-/

namespace OwnerCoverage

section Characters

/-- Whether a character is a printable one of ASCII. -/
def Text.isPrintable (char : Char) : Bool := 32 ≤ char.toNat && char.toNat < 127

/-- Whether the characters of a text are printable ones of ASCII or own ones, of which none is below
the blank. The characters below the blank are the control characters of data texts. -/
def Text.IsPlain (own : List Char) (text : String) : Prop :=
  ∀ char ∈ text.toList, isPrintable char = true ∨ 32 ≤ char.toNat ∧ char ∈ own

namespace Text

variable {own : List Char}

theorem isPlain_of_all_printable {text : String} (printable : text.toList.all isPrintable = true) :
    IsPlain own text :=
  fun char mem => .inl (List.all_eq_true.1 printable char mem)

theorem IsPlain.append {first second : String} (plain : IsPlain own first)
    (secondToo : IsPlain own second) : IsPlain own (first ++ second) := by
  intro char mem
  rw [String.toList_append, List.mem_append] at mem
  exact mem.elim (plain char) (secondToo char)

/-- A character is quoted by itself or by printable characters of ASCII. -/
theorem of_mem_quotedChar {char written : Char} (mem : written ∈ quotedChar char) :
    isPrintable written = true ∨ 32 ≤ written.toNat ∧ written = char := by
  have hexDigits (value : Nat) : isPrintable (hexDigit value) = true := by
    have digits : ∀ digit < 16, isPrintable (Nat.digitChar digit) = true := by decide
    exact digits _ (Nat.mod_lt value (by decide))
  unfold quotedChar hexEscape at mem
  repeat' split at mem
  all_goals simp only [List.mem_cons, List.not_mem_nil, or_false] at mem
  case isFalse.isFalse.isFalse.isFalse.isFalse.isFalse.isFalse.isFalse notControl =>
    exact .inr ⟨by rw [mem]; omega, mem⟩
  all_goals apply Or.inl
  case isFalse.isFalse.isFalse.isFalse.isFalse.isFalse.isFalse.isTrue =>
    rcases mem with rfl | rfl | rfl | rfl | rfl | rfl
    iterate 4 rfl
    · exact hexDigits _
    · exact hexDigits _
  all_goals
    rcases mem with rfl | rfl <;> rfl

theorem isPlain_quoted {text : String} (within : ∀ char ∈ text.toList, char ∈ own) :
    IsPlain own (quoted text) := by
  intro written mem
  rw [quoted, String.toList_ofList, List.mem_append, List.mem_cons, List.mem_singleton,
    List.mem_flatMap] at mem
  rcases mem with (rfl | ⟨char, charMem, mem⟩) | rfl
  · exact .inl rfl
  · refine (of_mem_quotedChar mem).imp_right (And.imp_right ?_)
    rintro rfl
    exact within written charMem
  · exact .inl rfl

theorem IsPlain.intercalate {separator : String} (plain : IsPlain own separator)
    {texts : List String} (each : ∀ text ∈ texts, IsPlain own text) :
    IsPlain own (separator.intercalate texts) := by
  induction texts with
  | nil =>
      rw [String.intercalate_nil]
      exact isPlain_of_all_printable rfl
  | cons first rest ih =>
      rw [List.forall_mem_cons] at each
      by_cases last : rest = []
      · rw [last, String.intercalate_singleton]
        exact each.1
      · rw [String.intercalate_cons_of_ne_nil last]
        exact (each.1.append plain).append (ih each.2)

theorem isPlain_record {fields : List (String × String)}
    (names : ∀ field ∈ fields, IsPlain own (quoted field.1))
    (values : ∀ field ∈ fields, IsPlain own field.2) : IsPlain own (record fields) := by
  have separated : IsPlain own (",".intercalate
      (fields.map fun field => recordField field.1 field.2)) := by
    apply IsPlain.intercalate (isPlain_of_all_printable (by decide))
    intro text mem
    rcases List.mem_map.1 mem with ⟨field, fieldMem, rfl⟩
    exact ((names field fieldMem).append (isPlain_of_all_printable (by decide))).append
      (values field fieldMem)
  exact (IsPlain.append (isPlain_of_all_printable (by decide)) separated).append
    (isPlain_of_all_printable (by decide))

end Text

theorem Json.isPrintable_of_isNumeral {char : Char} (numeral : isNumeral char = true) :
    Text.isPrintable char = true := by
  rw [isNumeral, Bool.or_eq_true] at numeral
  rcases numeral with digit | mark
  · have bounds : 48 ≤ char.toNat ∧ char.toNat ≤ 57 := Char.isDigit_iff_toNat.1 digit
    rw [Text.isPrintable, Bool.and_eq_true, decide_eq_true_eq, decide_eq_true_eq]
    omega
  · have marks : ['.', 'e', '-', '+'].all Text.isPrintable = true := by decide
    exact List.all_eq_true.1 marks char (List.contains_iff_mem.1 mark)

/-- What is no finite number is written as a word. -/
theorem NumberFormat.isPlain_record_write (own : List Char) (number : Binary64) :
    Text.IsPlain own (NumberFormat.record.write number) := by
  by_cases finite : number.magnitude < Binary64.infiniteMagnitude
  · exact fun _ mem =>
      .inl (Json.isPrintable_of_isNumeral (Json.isNumeral_of_mem_write finite mem))
  · have null : NumberFormat.record.write number = "null" := by
      unfold NumberFormat.write Binary64.isNaN Binary64.isInfinite
      simp only [decide_eq_true_eq]
      rcases (Nat.not_lt.1 finite).lt_or_eq with above | same
      · rw [if_pos above]
        rfl
      · rw [if_neg (by omega), if_pos same.symm]
        split <;> rfl
    rw [null]
    exact Text.isPlain_of_all_printable (by decide)

theorem Report.isPlain_record (report : Report) :
    Text.IsPlain (report.remoteUrl.toList ++ report.revision.toList) report.record := by
  have digits (own : List Char) (value : Nat) : Text.IsPlain own (toString value) := fun _ mem =>
    .inl (Json.isPrintable_of_isNumeral
      (Json.isNumeral_of_isDigit (NumberFormat.isDigit_of_mem_digitsOf mem)))
  apply Text.isPlain_record
  · simp only [List.forall_mem_cons]
    refine ⟨?_, ?_, ?_, ?_, ?_, by simp⟩ <;> exact Text.isPlain_of_all_printable (by decide)
  · simp only [List.forall_mem_cons]
    exact ⟨Text.isPlain_quoted fun _ => List.mem_append_left _,
      Text.isPlain_quoted fun _ => List.mem_append_right _, digits _ _, digits _ _,
      NumberFormat.isPlain_record_write _ _, by simp⟩

end Characters

section Lines

open CommandLine

/-- The reports before the first row that has none. -/
def CommandLine.leadingReports : List (String × Except Failure Report) → List Report
  | (_, .ok report) :: rows => report :: leadingReports rows
  | _ => []

theorem CommandLine.output_printReports (format : ReportFormat) (output : String)
    (rows : List (String × Except Failure Report)) :
    (printReports format output rows).output = output ++ printed format (leadingReports rows) := by
  induction rows generalizing output with
  | nil => exact (String.append_empty).symm
  | cons row rows ih =>
      rcases row with ⟨root, failure | report⟩
      · exact (String.append_empty).symm
      · rw [printReports, ih, leadingReports, printed, String.append_assoc,
          String.append_assoc, String.append_assoc]

theorem Text.IsPlain.le_toNat {own : List Char} {text : String} (plain : IsPlain own text)
    {char : Char} (mem : char ∈ text.toList) : 32 ≤ char.toNat := by
  rcases plain char mem with printable | own
  · rw [isPrintable, Bool.and_eq_true, decide_eq_true_eq] at printable
    exact printable.1
  · exact own.1

/-- A text without control characters is a line of its own before a line feed. -/
theorem Text.lines_append_lineFeed {line : String}
    (noControl : ∀ char ∈ line.toList, 32 ≤ char.toNat) (rest : String) :
    Text.lines (line ++ "\n" ++ rest) = line :: Text.lines rest := by
  have uncut : ∀ char ∈ line.toList, (char == '\n') = false := by
    intro char mem
    rw [beq_eq_false_iff_ne]
    rintro rfl
    exact absurd (noControl _ mem) (by decide)
  have kept : dropCarriageReturn line.toList = line.toList := by
    unfold dropCarriageReturn
    split
    · rename_i rest reversed
      have mem : '\r' ∈ line.toList := by
        rw [← List.mem_reverse, reversed]
        exact List.mem_cons_self
      exact absurd (noControl _ mem) (by decide)
    · rfl
  have text : (line ++ "\n" ++ rest).toList = line.toList ++ '\n' :: rest.toList := by simp
  rw [lines, text, List.splitOnP_append_cons_of_forall_mem uncut '\n' rfl]
  rcases List.exists_cons_of_ne_nil (List.splitOnP_ne_nil (· == '\n') rest.toList) with
    ⟨first, pieces, split⟩
  rw [split, linesOfPieces, kept, List.map_cons, String.ofList_toList, lines, split]

/-- Printed records are the lines of the output. -/
theorem Report.lines_printed (reports : List Report) :
    Text.lines (printed .json reports) = reports.map Report.record := by
  induction reports with
  | nil => decide
  | cons report reports ih =>
      rw [printed, Report.write,
        Text.lines_append_lineFeed fun _ mem => report.isPlain_record.le_toNat mem, ih,
        List.map_cons]

end Lines

section Reading

variable {report : Report}

/-- What the record of a report stands for, in order: its texts and counts as they are, and some
number for its ratio. -/
def Report.members (report : Report) (ratio : Json.Number) : List (String × Json.Value) :=
  [("remote_url", .text report.remoteUrl), ("sha", .text report.revision),
    ("covered_files_count", .number ⟨false, ⟨report.covered, 0⟩⟩),
    ("total_files_count", .number ⟨false, ⟨report.total, 0⟩⟩),
    ("coverage_ratio", .number ratio)]

theorem Report.exists_read_record (finite : report.ratio.magnitude < Binary64.infiniteMagnitude) :
    ∃ ratio : Json.Number, Json.read report.record = some (.object (report.members ratio)) ∧
      ratio.RoundsTo report.ratio := by
  rcases Json.exists_writes_write NumberFormat.record finite with ⟨ratio, writes, rounds⟩
  refine ⟨ratio, Json.read_of_writes (Json.writes_record ?_), rounds⟩
  exact .cons ⟨rfl, Json.writes_quoted _⟩ <| .cons ⟨rfl, Json.writes_quoted _⟩ <|
    .cons ⟨rfl, Json.writes_natural _⟩ <| .cons ⟨rfl, Json.writes_natural _⟩ <|
    .cons ⟨rfl, writes⟩ .nil

theorem Report.eq_of_members_eq {other : Report} {ratio otherRatio : Json.Number}
    (rounds : ratio.RoundsTo report.ratio) (otherRounds : otherRatio.RoundsTo other.ratio)
    (same : report.members ratio = other.members otherRatio) : other = report := by
  simp only [Report.members, List.cons.injEq, Prod.mk.injEq, Json.Value.text.injEq,
    Json.Value.number.injEq, Json.Number.mk.injEq, Decimal.mk.injEq, true_and, and_true] at same
  rcases same with ⟨remoteUrl, revision, covered, total, rfl⟩
  have sameRatio := rounds.iff_eq.1 otherRounds
  cases report
  cases other
  rw [Report.mk.injEq]
  exact ⟨remoteUrl.symm, revision.symm, covered.symm, total.symm, sameRatio⟩

/-- The record of a report with a finite ratio is read as the object of its five fields in their
order: its very texts and counts, and a number that rounds to its ratio and to no other. It holds no
control character of the format, U+0000 to U+001F, and beyond ASCII nothing but characters of its
texts, so the records that a run prints are its lines. No other report of this kind has the same
record. -/
theorem Report.record_reads_back_on_one_line
    (finite : report.ratio.magnitude < Binary64.infiniteMagnitude) :
    (∃ ratio : Json.Number, Json.read report.record = some (.object (report.members ratio)) ∧
      ∀ number, ratio.RoundsTo number ↔ number = report.ratio) ∧
    (∀ char ∈ report.record.toList, Text.isPrintable char = true ∨
      32 ≤ char.toNat ∧ (char ∈ report.remoteUrl.toList ∨ char ∈ report.revision.toList)) ∧
    (∀ rows : List (String × Except Failure Report),
      Text.lines (CommandLine.printReports .json "" rows).output =
        (CommandLine.leadingReports rows).map Report.record) ∧
    ∀ other : Report, other.ratio.magnitude < Binary64.infiniteMagnitude →
      other.record = report.record → other = report := by
  rcases Report.exists_read_record finite with ⟨ratio, read, rounds⟩
  refine ⟨⟨ratio, read, fun number => rounds.iff_eq⟩, ?_, ?_, ?_⟩
  · intro char mem
    rw [← List.mem_append]
    exact report.isPlain_record char mem
  · intro rows
    rw [CommandLine.output_printReports, String.empty_append, Report.lines_printed]
  · intro other otherFinite same
    rcases Report.exists_read_record otherFinite with ⟨otherRatio, otherRead, otherRounds⟩
    rw [same, read, Option.some.injEq, Json.Value.object.injEq] at otherRead
    exact Report.eq_of_members_eq rounds otherRounds otherRead

/-- A report with marks, a control character and a character beyond the first plane in its texts,
and the greatest number below zero for its ratio. -/
def sampleReport : Report where
  remoteUrl := "\"\\\x1f\n😀"
  revision := ""
  covered := 2 ^ 64 - 1
  total := 2 ^ 53 + 1
  ratio := ⟨true, 1, by decide⟩

theorem Report.record_reads_back_on_one_line_sample :
    sampleReport.ratio.magnitude < Binary64.infiniteMagnitude ∧
      ∃ ratio : Json.Number, Json.read sampleReport.record = some (.object
        [("remote_url", .text "\"\\\x1f\n😀"), ("sha", .text ""),
          ("covered_files_count", .number ⟨false, ⟨18446744073709551615, 0⟩⟩),
          ("total_files_count", .number ⟨false, ⟨9007199254740993, 0⟩⟩),
          ("coverage_ratio", .number ratio)]) ∧
        ∀ number, ratio.RoundsTo number ↔ number = sampleReport.ratio := by
  have finite : sampleReport.ratio.magnitude < Binary64.infiniteMagnitude := by decide
  exact ⟨finite, (Report.record_reads_back_on_one_line finite).1⟩

end Reading

end OwnerCoverage
