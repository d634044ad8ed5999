/-!
The nearest name: which of some candidates a misspelled name was probably meant
to be. Distance counts the characters to insert, delete or replace.
-/

namespace Accumulator.Text

section Distance

variable {α : Type} [DecidableEq α]

/-- From the distances of `xs` to every suffix of `ys`, longest first, those of `x :: xs`. -/
def distanceRow (x : α) : List α → List Nat → List Nat
  | [], row => [row.headD 0 + 1]
  | y :: ys, row =>
    let below := distanceRow x ys row.tail
    let replaced := row.tail.headD 0 + if x = y then 0 else 1
    min replaced (min (row.headD 0 + 1) (below.headD 0 + 1)) :: below

/-- The distances of `xs` to every suffix of `ys`, longest first. -/
def distances (xs ys : List α) : List Nat :=
  xs.foldr (fun x row => distanceRow x ys row) (List.range (ys.length + 1)).reverse

/-- The least number of insertions, deletions and replacements that turn `xs` into `ys`. -/
def distance (xs ys : List α) : Nat := (distances xs ys).headD 0

end Distance

/-- The largest distance at which a candidate is still offered. -/
def maxDistance : Nat := 2

/-- Of two candidates with their distances the nearer, and of two equally near the first in the
order of names. -/
def nearer (a b : Nat × String) : Nat × String :=
  if b.1 < a.1 ∨ (b.1 = a.1 ∧ b.2 < a.2) then b else a

/-- The nearest candidate within the largest distance. -/
def nearest? (name : String) (candidates : List String) : Option String :=
  let scored := candidates.map fun c => (distance name.toList c.toList, c)
  match scored.filter (·.1 ≤ maxDistance) with
  | [] => none
  | first :: rest => some (rest.foldl nearer first).2

end Accumulator.Text
