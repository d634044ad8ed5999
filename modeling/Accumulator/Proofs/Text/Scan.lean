import Accumulator.Checked
import Accumulator.Text.Scan
import Mathlib.Data.List.TakeWhile

/-!
What the steps of the file readers take. A run ends where a character of another
class stands or the text ends, so behind such a place a written run is read back
as it was written and nothing more.
-/

namespace Accumulator.Text

/-- Whether a run of the class cannot go on at the head of the text. -/
def Stops (p : Char → Bool) (rest : List Char) : Prop := ∀ c ∈ rest.head?, p c = false

theorem stops_cons {p : Char → Bool} {c : Char} {rest : List Char} (h : p c = false) :
    Stops p (c :: rest) := by
  intro d hd
  rw [List.head?_cons, Option.mem_some_iff] at hd
  exact hd ▸ h

theorem isLineEnd_of_isDigit {c : Char} (h : c.isDigit = true) : isLineEnd c = false := by
  simp only [isLineEnd, Bool.or_eq_false_iff, beq_eq_false_iff_ne]
  constructor <;> (rintro rfl; exact absurd h (by decide))

theorem isSpacing_of_isDigit {c : Char} (h : c.isDigit = true) : isSpacing c = false := by
  simp only [isSpacing, Bool.or_eq_false_iff, beq_eq_false_iff_ne]
  constructor <;> (rintro rfl; exact absurd h (by decide))

theorem isSpacing_of_isLineEnd {c : Char} (h : isLineEnd c = true) : isSpacing c = false := by
  simp only [isLineEnd, Bool.or_eq_true, beq_iff_eq] at h
  rcases h with rfl | rfl <;> rfl

theorem isDigit_of_isLineEnd {c : Char} (h : isLineEnd c = true) : c.isDigit = false := by
  simp only [isLineEnd, Bool.or_eq_true, beq_iff_eq] at h
  rcases h with rfl | rfl <;> rfl

theorem isDigit_of_isSpacing {c : Char} (h : isSpacing c = true) : c.isDigit = false := by
  simp only [isSpacing, Bool.or_eq_true, beq_iff_eq] at h
  rcases h with rfl | rfl <;> rfl

variable {p : Char → Bool} {run rest : List Char}

theorem takeWhile_of_stops (h : Stops p rest) : rest.takeWhile p = [] := by
  cases rest with
  | nil => rfl
  | cons c tail => simp [h c rfl]

theorem dropWhile_of_stops (h : Stops p rest) : rest.dropWhile p = rest := by
  cases rest with
  | nil => rfl
  | cons c tail => simp [h c rfl]

theorem takeWhile_append_of_stops (hrun : ∀ c ∈ run, p c = true) (h : Stops p rest) :
    (run ++ rest).takeWhile p = run := by
  rw [List.takeWhile_append_of_pos hrun, takeWhile_of_stops h, List.append_nil]

theorem dropWhile_append_of_stops (hrun : ∀ c ∈ run, p c = true) (h : Stops p rest) :
    (run ++ rest).dropWhile p = rest := by
  rw [List.dropWhile_append_of_pos hrun, dropWhile_of_stops h]

theorem skip?_of_stops (h : Stops p rest) : skip? p rest = none := by
  cases rest with
  | nil => rfl
  | cons c tail => simp [skip?, h c rfl]

theorem skip?_cons_of_stops {c : Char} (hc : p c = true) (h : Stops p rest) :
    skip? p (c :: rest) = some rest := by
  rw [skip?, if_pos hc, dropWhile_of_stops h]

variable {κ : Type}

theorem skip_cons_of_stops {c : Char} (hc : p c = true) (h : Stops p rest) :
    skip (κ := κ) p (c :: rest) = .ok rest := by
  rw [skip, skip?_cons_of_stops hc h]

theorem expect_append (marker rest : List Char) :
    expect (κ := κ) marker (marker ++ rest) = .ok rest := by
  have hprefix : marker.isPrefixOf (marker ++ rest) = true :=
    List.isPrefixOf_iff_prefix.mpr (List.prefix_append marker rest)
  rw [expect, if_pos hprefix, List.drop_left]

/-- A marker on a line of its own is read up to what stands on the next line. -/
theorem expectLine_append {marker : List Char} (h : Stops isLineEnd rest) :
    expectLine (κ := κ) marker (marker ++ '\n' :: rest) = .ok rest := by
  rw [expectLine, expect_append]
  change skip isLineEnd ('\n' :: rest) = .ok rest
  exact skip_cons_of_stops rfl h

/-- A run of at least one character of the class. -/
structure IsRun (p : Char → Bool) (run : List Char) : Prop where
  nonempty : run ≠ []
  all : ∀ c ∈ run, p c = true

theorem stops_dropWhile (p : Char → Bool) (cs : List Char) : Stops p (cs.dropWhile p) := by
  intro c hc
  have hlast := List.head?_dropWhile_not p cs
  rw [Option.mem_def.1 hc] at hlast
  simpa using hlast

/-- A run of another class cannot be gone on with. -/
theorem IsRun.stops {q : Char → Bool} (h : IsRun q run) (hother : ∀ c, q c = true → p c = false)
    (rest : List Char) : Stops p (run ++ rest) := by
  cases run with
  | nil => exact absurd rfl h.nonempty
  | cons c tail => exact stops_cons (hother c (h.all c List.mem_cons_self))

theorem skip?_eq_some_iff {cs : List Char} :
    skip? p cs = some rest ↔ ∃ run, IsRun p run ∧ Stops p rest ∧ cs = run ++ rest := by
  constructor
  · intro h
    cases cs with
    | nil => cases h
    | cons c tail =>
      rw [skip?] at h
      split at h
      next hc =>
        cases h
        refine ⟨c :: tail.takeWhile p, ⟨List.cons_ne_nil _ _, ?_⟩, stops_dropWhile p tail, ?_⟩
        · rw [List.forall_mem_cons]
          exact ⟨hc, fun d hd => List.all_eq_true.1 List.all_takeWhile d hd⟩
        · rw [List.cons_append, List.takeWhile_append_dropWhile]
      next => cases h
  · rintro ⟨run, hrun, hstops, rfl⟩
    cases run with
    | nil => exact absurd rfl hrun.nonempty
    | cons c tail =>
      rw [List.cons_append, skip?, if_pos (hrun.all c List.mem_cons_self),
        dropWhile_append_of_stops (fun d hd => hrun.all d (List.mem_cons_of_mem _ hd)) hstops]

theorem skip_eq_ok_iff {cs : List Char} :
    skip (κ := κ) p cs = .ok rest ↔ ∃ run, IsRun p run ∧ Stops p rest ∧ cs = run ++ rest := by
  rw [← skip?_eq_some_iff, skip]
  cases skip? p cs <;> simp

theorem expect_eq_ok_iff {marker cs : List Char} :
    expect (κ := κ) marker cs = .ok rest ↔ cs = marker ++ rest := by
  constructor
  · intro h
    unfold expect at h
    split at h
    next hmarker =>
      cases h
      exact (List.prefix_iff_eq_append.1 (List.isPrefixOf_iff_prefix.1 hmarker)).symm
    next => cases h
  · rintro rfl
    exact expect_append marker rest

theorem expectLine_eq_ok_iff {marker cs : List Char} :
    expectLine (κ := κ) marker cs = .ok rest ↔
      ∃ run, IsRun isLineEnd run ∧ Stops isLineEnd rest ∧ cs = marker ++ (run ++ rest) := by
  rw [expectLine, Checked.bind_eq_ok_iff]
  constructor
  · rintro ⟨behind, hmarker, hskip⟩
    obtain ⟨run, hrun, hstops, rfl⟩ := skip_eq_ok_iff.1 hskip
    exact ⟨run, hrun, hstops, expect_eq_ok_iff.1 hmarker⟩
  · rintro ⟨run, hrun, hstops, rfl⟩
    exact ⟨_, expect_append marker _, skip_eq_ok_iff.2 ⟨run, hrun, hstops, rfl⟩⟩

theorem expectLine_run {marker : List Char} (hrun : IsRun isLineEnd run)
    (h : Stops isLineEnd rest) :
    expectLine (κ := κ) marker (marker ++ (run ++ rest)) = .ok rest :=
  expectLine_eq_ok_iff.2 ⟨run, hrun, h, rfl⟩

theorem skipAnySpace_eq_nil_iff {cs : List Char} :
    skipAnySpace cs = [] ↔ ∀ c ∈ cs, (isSpacing c || isLineEnd c) = true :=
  List.dropWhile_eq_nil_iff

namespace Decimal

/-- A number is read from all the digits that stand there. -/
theorem readBelow?_eq_some_iff {bound n : Nat} {cs : List Char} :
    readBelow? bound cs = some (n, rest) ↔ ∃ run, IsRun Char.isDigit run ∧ value run = n ∧
      n < bound ∧ Stops Char.isDigit rest ∧ cs = run ++ rest := by
  constructor
  · intro h
    simp only [readBelow?] at h
    split at h
    next hfound =>
      cases h
      refine ⟨cs.takeWhile Char.isDigit, ⟨hfound.1, ?_⟩, rfl, hfound.2, stops_dropWhile _ _, ?_⟩
      · exact fun c hc => List.all_eq_true.1 List.all_takeWhile c hc
      · exact List.takeWhile_append_dropWhile.symm
    next => cases h
  · rintro ⟨run, hrun, rfl, hbound, hstops, rfl⟩
    simp only [readBelow?, takeWhile_append_of_stops hrun.all hstops,
      dropWhile_append_of_stops hrun.all hstops]
    rw [if_pos ⟨hrun.nonempty, hbound⟩]

theorem isDigit_of_mem_digits {n : Nat} {c : Char} (h : c ∈ digits n) : c.isDigit = true :=
  Nat.isDigit_of_mem_toDigits (by decide) (by decide) h

theorem digits_ne_nil (n : Nat) : digits n ≠ [] := Nat.toDigits_ne_nil

/-- The digits of a number are read back as that number, whatever follows them. -/
theorem readBelow?_digits {bound n : Nat} (hn : n < bound) (h : Stops Char.isDigit rest) :
    readBelow? bound (digits n ++ rest) = some (n, rest) := by
  have hrun : ∀ c ∈ digits n, c.isDigit = true := fun c hc => isDigit_of_mem_digits hc
  simp only [readBelow?, takeWhile_append_of_stops hrun h, dropWhile_append_of_stops hrun h,
    value_digits]
  rw [if_pos ⟨digits_ne_nil n, hn⟩]

theorem readBelow?_of_stops {bound : Nat} (h : Stops Char.isDigit rest) :
    readBelow? bound rest = none := by
  simp [readBelow?, takeWhile_of_stops h]

/-- Whatever does not start with a digit stands apart from the digits before it. -/
theorem stops_digits_append {n : Nat} (hp : ∀ c : Char, c.isDigit = true → p c = false) :
    Stops p (digits n ++ rest) := by
  cases hdigits : digits n with
  | nil => exact absurd hdigits (digits_ne_nil n)
  | cons c tail =>
    have hdigit : c.isDigit = true := isDigit_of_mem_digits (n := n) (by simp [hdigits])
    exact stops_cons (hp c hdigit)

end Decimal

end Accumulator.Text
