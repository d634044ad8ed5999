import Accumulator.Checked
import Accumulator.Layout.Resolve
import Accumulator.Proofs.Text.Blank
import Accumulator.Proofs.Text.Line

/-!
The line at which the first pass stops. It is the first that cannot be added, so
the lines before it can be laid out alone, and those behind it are not looked
at. The error tells the line, whether it comes from reading it, from its
literals, from the names defined before it or from the size of the layout.
-/

namespace Accumulator

open Source Text Checked

namespace Source

variable {given : List (List Char)}

theorem significant_concat_return (line : List Char) :
    significant (line ++ ['\r']) = significant line := by
  unfold significant
  rw [List.takeWhile_append]
  split
  next hwhole =>
    -- there is no comment, so that the line is all there is to trim
    have hline := (List.takeWhile_prefix (· ≠ ';')).eq_of_length hwhole
    rw [hline]
    exact trim_concat_of_isBlank rfl line
  next => rfl

theorem significant_lines_ofLines (given : List (List Char)) (other : List Char)
    (hgiven : ∀ line ∈ given, '\n' ∉ line) :
    (lines (ofLines given ++ other)).map significant =
      given.map significant ++ (lines other).map significant := by
  induction given with
  | nil => rfl
  | cons line rest ih =>
    obtain ⟨body, hlines, hbody⟩ := lines_append_newline (hgiven line List.mem_cons_self)
      (ofLines rest ++ other)
    have hsame : significant body = significant line := by
      rcases hbody with rfl | rfl
      · rfl
      · exact (significant_concat_return body).symm
    have htext : ofLines (line :: rest) ++ other = line ++ '\n' :: (ofLines rest ++ other) := by
      simp [ofLines]
    rw [htext, hlines, List.map_cons, hsame, ih fun l hl => hgiven l (List.mem_cons_of_mem _ hl)]
    rfl

/-- Whatever is put behind them, the given lines are the first of the text. -/
theorem significant_take_ofLines (other : List Char) (hgiven : ∀ line ∈ given, '\n' ∉ line) :
    ((lines (ofLines given ++ other)).take given.length).map significant =
      given.map significant := by
  rw [List.map_take, significant_lines_ofLines given other hgiven]
  apply List.take_left'
  rw [List.length_map]

end Source

namespace Layout

variable {l : Layout} {e : Error} {first number : Nat} {line : List Char}

theorem addLines_append (first : Nat) (l : Layout) (before behind : List (List Char)) :
    addLines first l (before ++ behind) =
      addLines first l before >>= fun l => addLines (first + before.length) l behind := by
  induction before generalizing first l with
  | nil => rfl
  | cons line rest ih =>
    rw [List.cons_append, addLines, addLines]
    cases l.addLine first line with
    | error e => rfl
    | ok next =>
      have hlength : first + (line :: rest).length = first + 1 + rest.length := by
        rw [List.length_cons]
        omega
      rw [hlength]
      exact ih (first + 1) next

/-- Only the significant parts of lines count. -/
theorem addLines_congr {given other : List (List Char)} (first : Nat) (l : Layout)
    (h : given.map significant = other.map significant) :
    addLines first l given = addLines first l other := by
  induction given generalizing first l other with
  | nil =>
    cases List.map_eq_nil_iff.1 h.symm
    rfl
  | cons line rest ih =>
    cases other with
    | nil => nomatch h
    | cons line' rest' =>
      rw [List.map_cons, List.map_cons, List.cons.injEq] at h
      have hline : l.addLine first line = l.addLine first line' := by
        rw [addLine, addLine, h.1]
      rw [addLines, addLines, hline]
      cases l.addLine first line' with
      | error e => rfl
      | ok next => exact ih (first + 1) next h.2

/-- Lines that cannot be added have a first one among them. -/
theorem exists_faulty_of_addLines {lines : List (List Char)}
    (h : addLines first l lines = .error e) : ∃ before line behind m,
      lines = before ++ line :: behind ∧ addLines first l before = .ok m ∧
        m.addLine (first + before.length) line = .error e := by
  induction lines generalizing first l with
  | nil => nomatch h
  | cons line rest ih =>
    rw [addLines] at h
    cases hline : l.addLine first line with
    | error reason =>
      rw [hline] at h
      cases h
      exact ⟨[], line, rest, l, rfl, rfl, hline⟩
    | ok next =>
      rw [hline] at h
      obtain ⟨before, faulty, behind, m, rfl, hbefore, hfaulty⟩ := ih h
      refine ⟨line :: before, faulty, behind, m, rfl, ?_, ?_⟩
      · rw [addLines, hline]
        exact hbefore
      · rw [List.length_cons, Nat.add_comm before.length, ← Nat.add_assoc]
        exact hfaulty

/-- A statement that cannot be added does not know its line. -/
theorem line_of_addStatement {s : Statement} (h : l.addStatement number s = .error e) :
    e.line = none := by
  cases s with
  | marker | label | declaration =>
    obtain ⟨c, -, rfl⟩ := mapError_eq_error_iff.1 h
    rfl
  | instruction =>
    rw [addStatement] at h
    cases hreserve : l.reserve 1 with
    | ok =>
      rw [hreserve] at h
      nomatch h
    | error c =>
      rw [hreserve] at h
      cases h
      rfl

theorem line_of_addLine (h : l.addLine number line = .error e) : e.line = some number := by
  unfold addLine at h
  split at h
  next c _ =>
    cases h
    rfl
  next => nomatch h
  next s _ =>
    obtain ⟨reason, hreason, rfl⟩ := mapError_eq_error_iff.1 h
    rw [Error.atLine, line_of_addStatement hreason]
    rfl

/-- Wherever lines cannot be added, none can be added behind them. -/
theorem addLines_of_take {given : List (List Char)} {n : Nat}
    (h : addLines first l (given.take n) = .error e) : addLines first l given = .error e := by
  rw [← List.take_append_drop n given, addLines_append, h]
  rfl

/-- A text that starts with lines that cannot be added has no image. -/
theorem assemble_of_addLines {given : List (List Char)} {other : List Char}
    (hfails : addLines 1 {} given = .error e)
    (hsame : ((lines other).take given.length).map significant = given.map significant) :
    assemble other = .error e := by
  have hlaid : ofSource other = .error e :=
    addLines_of_take ((addLines_congr 1 {} hsame).trans hfails)
  rw [assemble, hlaid]
  rfl

end Layout

/-- The line of an error is the first that cannot be added, whatever stands behind it. -/
structure FaultyLine (source : List Char) (e : Error) (n : Nat) : Prop where
  fails : Layout.ofSource source = .error e
  /-- The lines before it can be laid out alone. -/
  before : ∃ l, Layout.ofSource (ofLines ((lines source).take (n - 1))) = .ok l
  beforeAs : ∀ earlier, lines earlier = (lines source).take (n - 1) →
    ∃ l, Layout.ofSource earlier = .ok l
  /-- Any text behind it leaves the error as it is. -/
  behind : ∀ other, assemble (ofLines ((lines source).take n) ++ other) = .error e
  behindAs : ∀ other, (lines other).take n = (lines source).take n → assemble other = .error e

theorem faultyLine_of_split {source : List Char} {e : Error} {l : Layout}
    {before behind : List (List Char)} {line : List Char}
    (hlines : lines source = before ++ line :: behind)
    (hbefore : Layout.addLines 1 {} before = .ok l)
    (hline : l.addLine (before.length + 1) line = .error e) :
    FaultyLine source e (before.length + 1) := by
  have htake : (lines source).take before.length = before := by
    rw [hlines, List.take_left]
  have htake' : (lines source).take (before.length + 1) = before ++ [line] := by
    rw [hlines, List.append_cons]
    apply List.take_left'
    rw [List.length_append, List.length_singleton]
  have hlength : before.length + 1 = (before ++ [line]).length := by
    rw [List.length_append, List.length_singleton]
  have hfails : Layout.addLines 1 {} (before ++ [line]) = .error e := by
    rw [Layout.addLines_append, hbefore]
    change Layout.addLines _ l [line] = _
    rw [Layout.addLines, Nat.add_comm, hline]
  have hfeed : ∀ l ∈ before ++ [line], '\n' ∉ l := by
    intro l hl
    rw [← htake'] at hl
    exact newline_notMem_of_mem_lines (List.mem_of_mem_take hl)
  have hearlier {earlier : List Char}
      (hsame : (lines earlier).map significant = before.map significant) :
      ∃ l, Layout.ofSource earlier = .ok l :=
    ⟨l, (Layout.addLines_congr 1 {} hsame).trans hbefore⟩
  refine ⟨?_, ?_, ?_, ?_, ?_⟩
  · exact Layout.addLines_of_take (htake' ▸ hfails)
  · rw [Nat.add_sub_cancel, htake]
    apply hearlier
    have htext := significant_lines_ofLines before []
      fun l hl => hfeed l (List.mem_append_left _ hl)
    rw [List.append_nil] at htext
    exact htext.trans (List.append_nil _)
  · intro earlier hlines
    rw [Nat.add_sub_cancel, htake] at hlines
    exact hearlier (congrArg _ hlines)
  · intro other
    rw [htake']
    exact Layout.assemble_of_addLines hfails (significant_take_ofLines other hfeed)
  · intro other hlines
    rw [htake', hlength] at hlines
    exact Layout.assemble_of_addLines hfails (congrArg _ hlines)

/-- An error of the first pass tells its line. -/
theorem exists_faultyLine {source : List Char} {e : Error} (h : Layout.ofSource source = .error e) :
    ∃ n, e.line = some n ∧ 1 ≤ n ∧ n ≤ (lines source).length ∧ FaultyLine source e n := by
  obtain ⟨before, line, behind, l, hlines, hbefore, hline⟩ := Layout.exists_faulty_of_addLines h
  rw [Nat.add_comm] at hline
  refine ⟨before.length + 1, Layout.line_of_addLine hline, Nat.le_add_left _ _, ?_,
    faultyLine_of_split hlines hbefore hline⟩
  rw [hlines, List.length_append, List.length_cons]
  omega

end Accumulator
