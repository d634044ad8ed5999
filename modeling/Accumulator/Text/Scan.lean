import Accumulator.Text.Located

/-!
Steps of the file readers. Each takes something from the head of a text and
leaves a shorter rest, or fails at the place where it stands.
-/

namespace Accumulator.Text

def isLineEnd (c : Char) : Bool := c == '\r' || c == '\n'

def isSpacing (c : Char) : Bool := c == ' ' || c == '\t'

/-- What follows a run of at least one character of the class. -/
def skip? (p : Char → Bool) : List Char → Option (List Char)
  | [] => none
  | c :: cs => if p c then some (cs.dropWhile p) else none

/-- What follows any blanks, tabs and line ends. -/
def skipAnySpace (cs : List Char) : List Char := cs.dropWhile fun c => isSpacing c || isLineEnd c

variable {κ : Type}

/-- Requires a run of at least one character of the class. -/
def skip (p : Char → Bool) (cs : List Char) : Except (Located κ) (List Char) :=
  match skip? p cs with
  | some rest => .ok rest
  | none => .error { rest := cs }

def expect (marker cs : List Char) : Except (Located κ) (List Char) :=
  if marker.isPrefixOf cs then .ok (cs.drop marker.length) else .error { rest := cs }

def expectLine (marker cs : List Char) : Except (Located κ) (List Char) := do
  skip isLineEnd (← expect marker cs)

theorem length_of_skip? {p : Char → Bool} {cs rest : List Char} (h : skip? p cs = some rest) :
    rest.length < cs.length := by
  cases cs with
  | nil => cases h
  | cons c tail =>
    rw [skip?] at h
    split at h
    · cases h
      have := (List.dropWhile_suffix p (l := tail)).sublist.length_le
      simp only [List.length_cons]
      omega
    · cases h

theorem length_of_skip {p : Char → Bool} {cs rest : List Char}
    (h : skip (κ := κ) p cs = .ok rest) : rest.length < cs.length := by
  unfold skip at h
  split at h
  next hs =>
    cases h
    exact length_of_skip? hs
  next => cases h

theorem length_skipAnySpace (cs : List Char) : (skipAnySpace cs).length ≤ cs.length :=
  (List.dropWhile_suffix _).sublist.length_le

end Accumulator.Text
