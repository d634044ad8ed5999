import Accumulator.Arrival
import Accumulator.Proofs.Text.Blank
import Mathlib.Data.List.Forall2

/-!
Which files of arrivals are accepted, and how their lines matter. The reader
takes one arrival behind the other with any run of padding between them. A line
end is padding, so no arrival goes over the end of a line; but the run may also
be empty, because a symbol is a single character and the next tick needs no gap
before it. So a line may list several arrivals.
-/

namespace Accumulator.Arrival

open Text

variable {a : Arrival} {arrivals : List Arrival} {cs line rest text : List Char}

/-- An arrival as it is written: its tick, a gap and the character of its symbol. -/
inductive Written (a : Arrival) : List Char → Prop where
  | mk {digits gap : List Char} {c : Char} (hdigits : IsRun Char.isDigit digits)
    (htick : Decimal.value digits = a.tick) (hbound : a.tick < tickBound)
    (hgap : IsRun isSpacing gap) (hsymbol : c.val = a.symbol) (hblank : isBlank c = false) :
    Written a (digits ++ (gap ++ [c]))

/-- The text is arrivals with padding before, between and behind them. -/
inductive Spells : List Arrival → List Char → Prop where
  | nil {padding : List Char} (hpadding : ∀ c ∈ padding, (isSpacing c || isLineEnd c) = true) :
    Spells [] padding
  | cons {a : Arrival} {arrivals : List Arrival} {padding body rest : List Char}
    (hpadding : ∀ c ∈ padding, (isSpacing c || isLineEnd c) = true) (hbody : Written a body)
    (hrest : Spells arrivals rest) : Spells (a :: arrivals) (padding ++ (body ++ rest))

/-- Ticks never decrease, from the given one on. -/
def OrderedFrom (previous : Nat) (arrivals : List Arrival) : Prop :=
  (previous :: arrivals.map Arrival.tick).IsChain (· ≤ ·)

theorem readSymbol_eq_ok_iff {w : Word} : readSymbol cs = .ok (w, rest) ↔
    ∃ c, isBlank c = false ∧ c.val = w ∧ cs = c :: rest := by
  cases cs with
  | nil => simp [readSymbol]
  | cons d ds =>
    cases hd : isBlank d with
    | true => simp +contextual [readSymbol, hd]
    | false => simp +contextual [readSymbol, hd]

/-- An arrival is read from its own characters, whatever follows them. -/
theorem readContents_eq_ok_iff : readContents cs = .ok (a, rest) ↔
    ∃ body, Written a body ∧ cs = body ++ rest := by
  unfold readContents
  constructor
  · intro h
    split at h
    next => cases h
    next tick behind htick =>
      obtain ⟨afterGap, hskip, h⟩ := Checked.bind_eq_ok_iff.1 h
      obtain ⟨⟨symbol, afterSymbol⟩, hsymbol, h⟩ := Checked.bind_eq_ok_iff.1 h
      cases h
      obtain ⟨digits, hdigits, rfl, hbound, -, rfl⟩ := Decimal.readBelow?_eq_some_iff.1 htick
      obtain ⟨gap, hgap, -, rfl⟩ := skip_eq_ok_iff.1 hskip
      obtain ⟨c, hblank, rfl, rfl⟩ := readSymbol_eq_ok_iff.1 hsymbol
      exact ⟨_, .mk hdigits rfl hbound hgap rfl hblank, by simp⟩
  · rintro ⟨body, hbody, rfl⟩
    cases hbody with
    | @mk digits gap c hdigits htick hbound hgap hsymbol hblank =>
      have hspacing : isSpacing c = false := by
        by_contra hc
        have := isBlank_of_isSpacing (Bool.not_eq_false _ ▸ hc)
        simp [hblank] at this
      have hread : Decimal.readBelow? tickBound (digits ++ (gap ++ c :: rest)) =
          some (a.tick, gap ++ c :: rest) :=
        Decimal.readBelow?_eq_some_iff.2
          ⟨digits, hdigits, htick, hbound, hgap.stops (fun _ => isDigit_of_isSpacing) _, rfl⟩
      have hskip : skip (κ := Disorder) isSpacing (gap ++ c :: rest) = .ok (c :: rest) :=
        skip_eq_ok_iff.2 ⟨gap, hgap, stops_cons hspacing, rfl⟩
      have hsymbol : readSymbol (c :: rest) = .ok (a.symbol, rest) :=
        readSymbol_eq_ok_iff.2 ⟨c, hblank, hsymbol, rfl⟩
      have htext : digits ++ (gap ++ [c]) ++ rest = digits ++ (gap ++ c :: rest) := by simp
      rw [htext, hread]
      simp only [bind, Except.bind, hskip, hsymbol, pure, Except.pure]

theorem Written.stops {body : List Char} (h : Written a body) (rest : List Char) :
    Stops (fun c => isSpacing c || isLineEnd c) (body ++ rest) := by
  cases h with
  | mk hdigits _ _ _ _ _ =>
    rw [List.append_assoc]
    refine hdigits.stops ?_ _
    intro c hc
    rw [isSpacing_of_isDigit hc, isLineEnd_of_isDigit hc]
    rfl

theorem readOne_eq_ok_iff : readOne cs = .ok (a, rest) ↔
    ∃ body, Written a body ∧ cs = body ++ rest := by
  rw [readOne, Checked.mapError_eq_ok_iff, readContents_eq_ok_iff]

theorem orderedFrom_cons {previous : Nat} :
    OrderedFrom previous (a :: arrivals) ↔ previous ≤ a.tick ∧ OrderedFrom a.tick arrivals :=
  List.isChain_cons_cons

theorem orderedFrom_zero_iff :
    OrderedFrom 0 arrivals ↔ (arrivals.map Arrival.tick).Pairwise (· ≤ ·) := by
  rw [OrderedFrom, List.isChain_iff_pairwise, List.pairwise_cons]
  exact and_iff_right fun _ _ => Nat.zero_le _

/-- An arrival with any padding before it is read, unless its tick is too small. -/
theorem readFrom_written {previous : Nat} {padding body : List Char}
    (hpadding : ∀ c ∈ padding, (isSpacing c || isLineEnd c) = true) (hbody : Written a body) :
    readFrom previous (padding ++ (body ++ rest)) =
      if a.tick < previous then .error { rest := body ++ rest, cause := some ⟨a.tick, previous⟩ }
      else (a :: ·) <$> readFrom a.tick rest := by
  have hhere : skipAnySpace (padding ++ (body ++ rest)) = body ++ rest :=
    dropWhile_append_of_stops hpadding (hbody.stops rest)
  have hread : readOne (body ++ rest) = .ok (a, rest) := readOne_eq_ok_iff.2 ⟨body, hbody, rfl⟩
  have hnonempty : ¬(body ++ rest).isEmpty = true := by
    intro hempty
    rw [List.isEmpty_iff.1 hempty] at hread
    cases hread
  rw [readFrom, hhere, if_neg hnonempty]
  split
  next hother => simp [hread] at hother
  next hother =>
    rw [hread] at hother
    cases hother
    rfl

theorem exists_padding (cs : List Char) : ∃ padding : List Char,
    (∀ c ∈ padding, (isSpacing c || isLineEnd c) = true) ∧ cs = padding ++ skipAnySpace cs :=
  ⟨_, fun c hc => List.all_eq_true.1 List.all_takeWhile c hc,
    List.takeWhile_append_dropWhile.symm⟩

/-- A text is read exactly if it spells arrivals in order. -/
theorem readFrom_eq_ok_iff {previous : Nat} : readFrom previous cs = .ok arrivals ↔
    Spells arrivals cs ∧ OrderedFrom previous arrivals := by
  constructor
  · intro h
    fun_induction readFrom previous cs generalizing arrivals
    case case1 previous cs here hempty =>
      cases h
      exact ⟨.nil (skipAnySpace_eq_nil_iff.1 (List.isEmpty_iff.1 hempty)), .singleton _⟩
    case case2 => cases h
    case case3 => cases h
    case case4 previous cs here hempty a rest hread hlater ih =>
      obtain ⟨others, hothers, rfl⟩ := Checked.map_eq_ok_iff.1 h
      obtain ⟨hspells, hordered⟩ := ih hothers
      obtain ⟨body, hbody, hhere⟩ := readOne_eq_ok_iff.1 hread
      obtain ⟨padding, hpadding, hsplit⟩ := exists_padding cs
      refine ⟨?_, orderedFrom_cons.2 ⟨Nat.not_lt.1 hlater, hordered⟩⟩
      rw [hsplit, show skipAnySpace cs = body ++ rest from hhere]
      exact .cons hpadding hbody hspells
  · rintro ⟨hspells, hordered⟩
    induction hspells generalizing previous with
    | nil hpadding =>
      rw [readFrom, if_pos (List.isEmpty_iff.2 (skipAnySpace_eq_nil_iff.2 hpadding))]
    | cons hpadding hbody _ ih =>
      obtain ⟨hlater, hordered⟩ := orderedFrom_cons.1 hordered
      rw [readFrom_written hpadding hbody, if_neg (Nat.not_lt.2 hlater), ih hordered]
      rfl

/-! The lines of a text stand between its line feeds. -/

theorem Written.newline_notMem {body : List Char} (h : Written a body) : '\n' ∉ body := by
  cases h with
  | mk hdigits _ _ hgap _ hblank =>
    rw [List.mem_append, List.mem_append, List.mem_singleton]
    rintro (hmem | hmem | rfl)
    · nomatch hdigits.all _ hmem
    · nomatch hgap.all _ hmem
    · nomatch hblank

theorem Spells.append {before behind : List Arrival} (h : Spells before cs)
    (hrest : Spells behind rest) : Spells (before ++ behind) (cs ++ '\n' :: rest) := by
  induction h with
  | nil hpadding =>
    rename_i padding
    cases hrest with
    | nil hother =>
      refine .nil ?_
      rw [List.forall_mem_append, List.forall_mem_cons]
      exact ⟨hpadding, rfl, hother⟩
    | @cons a arrivals other body rest hother hbody hrest =>
      have htext : padding ++ '\n' :: (other ++ (body ++ rest)) =
          (padding ++ '\n' :: other) ++ (body ++ rest) := by simp
      rw [htext]
      refine .cons ?_ hbody hrest
      rw [List.forall_mem_append, List.forall_mem_cons]
      exact ⟨hpadding, rfl, hother⟩
  | cons hpadding hbody _ ih =>
    simp only [List.append_assoc, List.cons_append] at ih ⊢
    exact .cons hpadding hbody ih

/-- What stands at the head of a text and has no line feed belongs to its first line. -/
theorem exists_of_append_eq_line {start : List Char} (hstart : '\n' ∉ start)
    (h : start ++ cs = line ++ '\n' :: rest) :
    ∃ remainder, line = start ++ remainder ∧ cs = remainder ++ '\n' :: rest := by
  induction start generalizing line with
  | nil => exact ⟨line, rfl, h⟩
  | cons c start ih =>
    rw [List.mem_cons, not_or] at hstart
    cases line with
    | nil => exact absurd (List.head_eq_of_cons_eq h).symm hstart.1
    | cons d ds =>
      obtain ⟨rfl, htail⟩ := List.cons_eq_cons.1 h
      obtain ⟨remainder, rfl, hcs⟩ := ih hstart.2 htail
      exact ⟨remainder, rfl, hcs⟩

/-- No arrival goes over the end of a line. -/
theorem Spells.split (hline : '\n' ∉ line) (h : Spells arrivals (line ++ '\n' :: rest)) :
    ∃ before behind, Spells before line ∧ Spells behind rest ∧ arrivals = before ++ behind := by
  generalize htext : line ++ '\n' :: rest = text at h
  induction h generalizing line with
  | nil hpadding =>
    subst htext
    rw [List.forall_mem_append, List.forall_mem_cons] at hpadding
    exact ⟨[], [], .nil hpadding.1, .nil hpadding.2.2, rfl⟩
  | @cons a arrivals padding body tail hpadding hbody htail ih =>
    by_cases hends : '\n' ∈ padding
    · -- the line ends before the arrival
      obtain ⟨start, others, hsplit, hstart⟩ := List.eq_append_cons_of_mem hends
      rw [hsplit, List.append_assoc, List.cons_append] at htext
      obtain ⟨remainder, hremainder, hothers⟩ := exists_of_append_eq_line hline htext
      obtain rfl : remainder = [] := by
        cases remainder with
        | nil => rfl
        | cons d ds =>
          obtain ⟨rfl, -⟩ := List.cons_eq_cons.1 hothers
          exact absurd (by simp [hremainder]) hstart
      rw [List.append_nil] at hremainder
      subst hremainder
      obtain ⟨-, rfl⟩ := List.cons_eq_cons.1 hothers
      rw [hsplit, List.forall_mem_append, List.forall_mem_cons] at hpadding
      exact ⟨[], _, .nil hpadding.1, .cons hpadding.2.2 hbody htail, rfl⟩
    · have hstart : '\n' ∉ padding ++ body := by
        rw [List.mem_append, not_or]
        exact ⟨hends, hbody.newline_notMem⟩
      rw [← List.append_assoc] at htext
      obtain ⟨remainder, rfl, hremainder⟩ := exists_of_append_eq_line hstart htext.symm
      obtain ⟨before, behind, hbefore, hbehind, rfl⟩ :=
        ih (fun h => hline (List.mem_append_right _ h)) hremainder.symm
      rw [List.append_assoc]
      exact ⟨a :: before, behind, .cons hpadding hbody hbefore, hbehind, rfl⟩

/-- Whether there is something on the line besides blanks, tabs and carriage returns. -/
def hasContent (line : List Char) : Bool := line.any fun c => !(isSpacing c || c == '\r')

def contentLines (text : List Char) : List (List Char) := (text.splitOn '\n').filter hasContent

/-- The line lists one arrival or several. -/
structure Lists (group : List Arrival) (line : List Char) : Prop where
  some : group ≠ []
  spells : Spells group line

theorem isPadding_iff {c : Char} (hc : c ≠ '\n') :
    (isSpacing c || isLineEnd c) = (isSpacing c || c == '\r') := by
  rw [isLineEnd, beq_eq_false_iff_ne.2 hc, Bool.or_false]

/-- A line lists arrivals exactly if it has something on it. -/
theorem Spells.ne_nil_iff (hline : '\n' ∉ line) (h : Spells arrivals line) :
    hasContent line = true ↔ arrivals ≠ [] := by
  cases h with
  | nil hpadding =>
    refine iff_of_false ?_ (not_not.2 rfl)
    intro hcontent
    obtain ⟨c, hc, hcontent⟩ := List.any_eq_true.1 hcontent
    rw [← isPadding_iff (fun h => hline (h ▸ hc)), hpadding c hc] at hcontent
    nomatch hcontent
  | @cons a arrivals padding body rest hpadding hbody hrest =>
    refine iff_of_true ?_ (List.cons_ne_nil _ _)
    cases hbody with
    | @mk digits gap c hdigits _ _ _ _ _ =>
      obtain ⟨d, hd⟩ := List.exists_mem_of_ne_nil digits hdigits.nonempty
      have hdigit := hdigits.all d hd
      refine List.any_eq_true.2 ⟨d, by simp [hd], ?_⟩
      rw [← isPadding_iff (by rintro rfl; nomatch hdigit), isSpacing_of_isDigit hdigit,
        isLineEnd_of_isDigit hdigit]
      rfl

/-- A line with nothing on it lists no arrivals and does not count. -/
theorem exists_groups_cons_iff (hline : '\n' ∉ line) (lines : List (List Char)) :
    (∃ groups, List.Forall₂ Lists groups ((line :: lines).filter hasContent) ∧
        arrivals = groups.flatten) ↔
      ∃ first groups, Spells first line ∧ List.Forall₂ Lists groups (lines.filter hasContent) ∧
        arrivals = first ++ groups.flatten := by
  rw [List.filter_cons]
  split
  next hcontent =>
    constructor
    · rintro ⟨_, hgroups, rfl⟩
      cases hgroups with
      | cons hfirst hgroups => exact ⟨_, _, hfirst.spells, hgroups, rfl⟩
    · rintro ⟨first, groups, hfirst, hgroups, rfl⟩
      have hsome : first ≠ [] := (hfirst.ne_nil_iff hline).1 hcontent
      exact ⟨first :: groups, .cons ⟨hsome, hfirst⟩ hgroups, rfl⟩
  next hempty =>
    constructor
    · rintro ⟨groups, hgroups, rfl⟩
      refine ⟨[], groups, .nil fun c hc => ?_, hgroups, rfl⟩
      rw [isPadding_iff fun h => hline (h ▸ hc)]
      by_contra hcontent
      exact hempty (List.any_eq_true.2 ⟨c, hc, by simpa using hcontent⟩)
    · rintro ⟨first, groups, hfirst, hgroups, rfl⟩
      obtain rfl : first = [] := not_not.1 fun h => hempty ((hfirst.ne_nil_iff hline).2 h)
      exact ⟨groups, hgroups, rfl⟩

/-- A text spells what its lines list, one behind the other. -/
theorem spells_iff_lists : Spells arrivals text ↔
    ∃ groups, List.Forall₂ Lists groups (contentLines text) ∧ arrivals = groups.flatten := by
  unfold contentLines
  induction hlength : text.length using Nat.strong_induction_on generalizing text arrivals with
  | _ n ih =>
    by_cases hends : '\n' ∈ text
    · obtain ⟨line, rest, rfl, hline⟩ := List.eq_append_cons_of_mem hends
      have hshort : rest.length < n := by
        rw [← hlength, List.length_append, List.length_cons]
        omega
      rw [List.splitOn_append_cons_self_of_not_mem hline, exists_groups_cons_iff hline]
      constructor
      · intro h
        obtain ⟨first, others, hfirst, hothers, rfl⟩ := h.split hline
        obtain ⟨groups, hgroups, rfl⟩ := (ih rest.length hshort rfl).1 hothers
        exact ⟨first, groups, hfirst, hgroups, rfl⟩
      · rintro ⟨first, groups, hfirst, hgroups, rfl⟩
        exact hfirst.append ((ih rest.length hshort rfl).2 ⟨groups, hgroups, rfl⟩)
    · rw [List.splitOn_eq_singleton hends, exists_groups_cons_iff hends]
      constructor
      · intro h
        exact ⟨arrivals, [], h, .nil, (List.append_nil _).symm⟩
      · rintro ⟨first, groups, hfirst, hgroups, rfl⟩
        cases hgroups
        rwa [List.flatten_nil, List.append_nil]

/-- Which files are accepted. Every line with something on it lists one arrival or several next to
each other, and the ticks never decrease; then what is read are the arrivals of the lines in order,
closed by a null symbol. -/
theorem readAll_iff_lists (text : List Char) (events : List Arrival) :
    readAll text = .ok events ↔ ∃ groups, List.Forall₂ Lists groups (contentLines text) ∧
      (groups.flatten.map Arrival.tick).Pairwise (· ≤ ·) ∧ events = close groups.flatten := by
  simp only [readAll, Checked.map_eq_ok_iff, readFrom_eq_ok_iff, spells_iff_lists,
    orderedFrom_zero_iff]
  constructor
  · rintro ⟨_, ⟨⟨groups, hgroups, rfl⟩, hticks⟩, rfl⟩
    exact ⟨groups, hgroups, hticks, rfl⟩
  · rintro ⟨groups, hgroups, hticks, rfl⟩
    exact ⟨_, ⟨⟨groups, hgroups, rfl⟩, hticks⟩, rfl⟩

/-- Two arrivals on one line. -/
def sharedLine : List Char := "10 a20 b".toList

/-- So an accepted file need not have a line for each arrival. -/
theorem sharedLine_accepted : readAll sharedLine = .ok [⟨10, 97⟩, ⟨20, 98⟩, ⟨120, 0⟩] ∧
    ¬∃ arrivals, [⟨10, 97⟩, ⟨20, 98⟩, ⟨120, 0⟩] = close arrivals ∧
      List.Forall₂ (fun a line => Lists [a] line) arrivals (contentLines sharedLine) := by
  refine ⟨by decide +kernel, ?_⟩
  rintro ⟨arrivals, hclosed, hlines⟩
  have hone : (contentLines sharedLine).length = 1 := by decide
  obtain ⟨a, rfl⟩ := List.length_eq_one_iff.1 (hlines.length_eq.trans hone)
  exact absurd (congrArg List.length hclosed) (show ¬3 = 2 by decide)

end Accumulator.Arrival
