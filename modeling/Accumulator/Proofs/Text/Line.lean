import Accumulator.Text.Line
import Mathlib.Data.List.Basic
import Mathlib.Data.List.Induction

/-!
Texts and their lines. A text that is put together from lines has them again,
except that a carriage return at the end of a line is taken for a part of the
line ending.
-/

namespace Accumulator.Text

/-- The text with the given lines, each of which is ended. -/
def ofLines (lines : List (List Char)) : List Char := lines.flatMap (· ++ ['\n'])

variable {source line rest : List Char}

/-- A character in front of a text belongs to its first line, unless it ends a line. -/
theorem lines_cons {c : Char} (hfeed : c ≠ '\n') (hreturn : c = '\r' → rest.head? ≠ some '\n') :
    lines (c :: rest) = match lines rest with
      | [] => [[c]]
      | line :: others => (c :: line) :: others := by
  refine lines.eq_4 c rest hfeed ?_
  rintro others hc rfl
  exact hreturn hc rfl

theorem newline_notMem_of_mem_lines (h : line ∈ lines source) : '\n' ∉ line := by
  induction source using lines.induct generalizing line with
  | case1 => nomatch h
  | case2 cs ih | case3 cs ih =>
    rcases List.mem_cons.1 h with rfl | h
    · exact List.not_mem_nil
    · exact ih h
  | case4 c cs hfeed hreturn hnil ih =>
    rw [lines.eq_4 c cs hfeed hreturn, hnil] at h
    rw [List.mem_singleton.1 h, List.mem_singleton]
    exact Ne.symm hfeed
  | case5 c cs hfeed hreturn first others hlines ih =>
    rw [lines.eq_4 c cs hfeed hreturn, hlines] at h
    rw [hlines] at ih
    rcases List.mem_cons.1 h with rfl | h
    · rw [List.mem_cons, not_or]
      exact ⟨Ne.symm hfeed, ih List.mem_cons_self⟩
    · exact ih (List.mem_cons_of_mem _ h)

/-- What stands before a line feed is a line, but for a carriage return at its end. -/
theorem lines_append_newline (hline : '\n' ∉ line) (rest : List Char) :
    ∃ body, lines (line ++ '\n' :: rest) = body :: lines rest ∧
      (line = body ∨ line = body ++ ['\r']) := by
  induction line with
  | nil => exact ⟨[], rfl, .inl rfl⟩
  | cons c cs ih =>
    rw [List.mem_cons, not_or] at hline
    obtain ⟨hc, hcs⟩ := hline
    by_cases hreturn : c = '\r' ∧ cs = []
    · obtain ⟨rfl, rfl⟩ := hreturn
      exact ⟨[], rfl, .inr rfl⟩
    · obtain ⟨body, hlines, hbody⟩ := ih hcs
      have hhead : c = '\r' → (cs ++ '\n' :: rest).head? ≠ some '\n' := by
        rintro rfl
        cases cs with
        | nil => exact absurd ⟨rfl, rfl⟩ hreturn
        | cons d ds =>
          rw [List.mem_cons, not_or] at hcs
          simpa using Ne.symm hcs.1
      refine ⟨c :: body, ?_, ?_⟩
      · rw [List.cons_append, lines_cons (Ne.symm hc) hhead, hlines]
      · rcases hbody with rfl | rfl
        · exact .inl rfl
        · exact .inr rfl

/-- Lines that do not end like a line ending are the lines of their text. -/
theorem lines_ofLines {given : List (List Char)}
    (h : ∀ line ∈ given, '\n' ∉ line ∧ line.getLast? ≠ some '\r') :
    lines (ofLines given) = given := by
  induction given with
  | nil => rfl
  | cons line given ih =>
    rw [List.forall_mem_cons] at h
    obtain ⟨⟨hfeed, hreturn⟩, hgiven⟩ := h
    obtain ⟨body, hlines, hbody⟩ := lines_append_newline hfeed (ofLines given)
    have htext : ofLines (line :: given) = line ++ '\n' :: ofLines given := by simp [ofLines]
    rw [htext, hlines, ih hgiven]
    rcases hbody with rfl | rfl
    · rfl
    · exact absurd List.getLast?_concat hreturn

/-- A text without line feeds is one line, unless it is empty. -/
theorem lines_of_newline_notMem (hne : line ≠ []) (hline : '\n' ∉ line) : lines line = [line] := by
  induction line with
  | nil => exact absurd rfl hne
  | cons c cs ih =>
    rw [List.mem_cons, not_or] at hline
    have hhead : cs.head? ≠ some '\n' := fun h => hline.2 (List.mem_of_mem_head? h)
    rw [lines_cons (Ne.symm hline.1) fun _ => hhead]
    cases cs with
    | nil => rfl
    | cons d ds => rw [ih (List.cons_ne_nil d ds) hline.2]

theorem ofLines_concat (given : List (List Char)) (line : List Char) :
    ofLines (given ++ [line]) = ofLines given ++ (line ++ ['\n']) := by
  rw [ofLines, List.flatMap_append, List.flatMap_singleton, ofLines]

/-- A text consists of lines that are ended and of one that is not, which may be empty. -/
theorem exists_ofLines (cs : List Char) : ∃ (given : List (List Char)) (last : List Char),
    cs = ofLines given ++ last ∧ (∀ line ∈ given, '\n' ∉ line) ∧ '\n' ∉ last := by
  induction cs using List.reverseRecOn with
  | nil => exact ⟨[], [], rfl, List.forall_mem_nil _, List.not_mem_nil⟩
  | append_singleton cs c ih =>
    obtain ⟨given, last, rfl, hgiven, hlast⟩ := ih
    by_cases hc : c = '\n'
    · subst hc
      refine ⟨given ++ [last], [], ?_, ?_, List.not_mem_nil⟩
      · rw [ofLines_concat, List.append_nil, List.append_assoc]
      · rw [List.forall_mem_append, List.forall_mem_singleton]
        exact ⟨hgiven, hlast⟩
    · refine ⟨given, last ++ [c], List.append_assoc _ _ _, hgiven, ?_⟩
      rw [List.mem_append, List.mem_singleton, not_or]
      exact ⟨hlast, Ne.symm hc⟩

end Accumulator.Text
