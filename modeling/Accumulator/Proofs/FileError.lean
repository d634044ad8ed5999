import Accumulator.Proofs.Arrival.Fault
import Accumulator.Proofs.Image.Fault

/-!
Errors of the file readers, in the text they are errors of. What is left of the
text at an error is an end of it, so its line and its column are found; an error
with a cause of its own stands at what causes it.
-/

namespace Accumulator

open Text

theorem append_ne_of_not_prefix {start rest whole : String}
    (h : ¬start.toList <+: whole.toList) : start ++ rest ≠ whole := by
  rintro rfl
  exact h (String.toList_append ▸ List.prefix_append _ _)

theorem Image.Defect.message_ne (d : Image.Defect) : d.message ≠ "expected more input" := by
  unfold message
  split
  next expected found =>
    simp only [String.append_assoc]
    exact append_ne_of_not_prefix (by decide)
  next name =>
    simp only [String.append_assoc]
    exact append_ne_of_not_prefix (by decide)

theorem Arrival.Disorder.message_ne (d : Arrival.Disorder) :
    d.message ≠ "expected more input" := by
  unfold message
  simp only [String.append_assoc]
  exact append_ne_of_not_prefix (by decide)

/-- The kind of an error is told by its cause, and no cause asks for more input. -/
theorem Text.Located.causeText_ne {κ : Type} [ToString κ]
    (hcause : ∀ k : κ, toString k ≠ "expected more input") (e : Located κ) :
    e.causeText ≠ "expected more input" := by
  unfold causeText
  split
  · decide
  · exact hcause _

/-- Whenever a file is refused, the error stands somewhere in its text and its message tells where.
Images are refused at a record with another number than its place, at the name of an unknown opcode
or where the text departs from the grammar; arrivals at one that comes before the arrival in front
of it or, again, where the text departs from the grammar. -/
theorem file_errors_placed (text : List Char) :
    (∀ e, Image.read text = .error e → e.causeText ≠ "expected more input" ∧
      ∃ before, e.StandsBehind text before ∧ Image.Placed before e) ∧
    (∀ e, Arrival.readAll text = .error e → e.causeText ≠ "expected more input" ∧
      ∃ before, e.StandsBehind text before ∧ Arrival.Placed before e) := by
  constructor
  · intro e h
    exact ⟨Located.causeText_ne Image.Defect.message_ne e, Image.read_error_placed h⟩
  · intro e h
    exact ⟨Located.causeText_ne Arrival.Disorder.message_ne e, Arrival.readAll_error_placed h⟩

/-- The second record has the number of a third. -/
def skipping : List Char :=
  "___image___\r\n___vector___\n___memory___\n00 HALT\r\n2 HALT\n___end___\n".toList

/-- An arrival that comes too early, behind a symbol of two bytes. -/
def tooEarly : List Char := "5 é 3 x\n".toList

theorem file_errors_placed_multibyte :
    (∃ e before, Image.read skipping = .error e ∧ e.line skipping = 5 ∧ e.column skipping = 1 ∧
      e.StandsBehind skipping before ∧ Image.Placed before e) ∧
    ∃ e before, Arrival.readAll tooEarly = .error e ∧ e.line tooEarly = 1 ∧
      e.column tooEarly = 5 ∧ e.StandsBehind tooEarly before ∧ Arrival.Placed before e := by
  have himage : Image.read skipping =
      .error { rest := "2 HALT\n___end___\n".toList, cause := some (.indexMismatch 1 2) } := by
    decide +kernel
  have harrivals : Arrival.readAll tooEarly =
      .error { rest := "3 x\n".toList, cause := some ⟨3, 5⟩ } := by decide +kernel
  obtain ⟨-, before, hbehind, hplaced⟩ := (file_errors_placed skipping).1 _ himage
  obtain ⟨-, start, hstart, hearly⟩ := (file_errors_placed tooEarly).2 _ harrivals
  exact ⟨⟨_, before, himage, by decide +kernel, by decide +kernel, hbehind, hplaced⟩,
    ⟨_, start, harrivals, by decide +kernel, by decide +kernel, hstart, hearly⟩⟩

end Accumulator
