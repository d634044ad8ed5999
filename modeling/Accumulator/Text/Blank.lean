/-!
Blank characters and the two text operations that depend on them: cutting the
blanks off both ends, and counting the words between blanks.
-/

namespace Accumulator.Text

/-- The Unicode property `White_Space`. -/
def isBlank (c : Char) : Bool :=
  let n := c.toNat
  (9 ≤ n && n ≤ 13) || n == 0x20 || n == 0x85 || n == 0xA0 || n == 0x1680
    || (0x2000 ≤ n && n ≤ 0x200A) || n == 0x2028 || n == 0x2029 || n == 0x202F
    || n == 0x205F || n == 0x3000

def trimEnd : List Char → List Char
  | [] => []
  | c :: cs =>
    match trimEnd cs with
    | [] => if isBlank c then [] else [c]
    | d :: ds => c :: d :: ds

def trim (cs : List Char) : List Char :=
  trimEnd (cs.dropWhile isBlank)

/-- The number of maximal runs of characters that are not blank, counted where they end. -/
def wordCount : List Char → Nat
  | [] => 0
  | [c] => if isBlank c then 0 else 1
  | c :: d :: cs =>
    if !isBlank c && isBlank d then wordCount (d :: cs) + 1 else wordCount (d :: cs)

end Accumulator.Text
