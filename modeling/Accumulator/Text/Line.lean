/-!
Splitting a text into lines. A line ends with a line feed or with a carriage
return and a line feed; a carriage return anywhere else is part of its line.
No line starts at the end of the text.
-/

namespace Accumulator.Text

def lines : List Char → List (List Char)
  | [] => []
  | '\n' :: cs => [] :: lines cs
  | '\r' :: '\n' :: cs => [] :: lines cs
  | c :: cs =>
    match lines cs with
    | [] => [[c]]
    | line :: rest => (c :: line) :: rest

/-- The number of pieces between line feeds, one more than there are line feeds. -/
def pieceCount (cs : List Char) : Nat := cs.count '\n' + 1

end Accumulator.Text
