/-!
Decimal text. Runs of digits have a value of any size; what bounds it is the
reader: addresses and ticks are read up to a bound, integer literals within 64
bits.
-/

namespace Accumulator.Text.Decimal

/-- The digits of a number, without leading zeros. -/
def digits (n : Nat) : List Char := Nat.toDigits 10 n

def value (ds : List Char) : Nat := Nat.ofDigitChars 10 ds 0

/-- Reads the run of digits at the head, if there is one and its value is below the bound. -/
def readBelow? (bound : Nat) (cs : List Char) : Option (Nat × List Char) :=
  let ds := cs.takeWhile Char.isDigit
  if ds ≠ [] ∧ value ds < bound then some (value ds, cs.dropWhile Char.isDigit) else none

theorem length_of_readBelow? {bound n : Nat} {cs rest : List Char}
    (h : readBelow? bound cs = some (n, rest)) : rest.length < cs.length := by
  simp only [readBelow?] at h
  split at h
  next found =>
    cases h
    have some_digits := List.length_pos_iff.2 found.1
    have split := congrArg List.length
      (List.takeWhile_append_dropWhile (p := Char.isDigit) (l := cs))
    rw [List.length_append] at split
    omega
  next => cases h

inductive Trouble where
  | malformed
  | tooLarge
  deriving DecidableEq, Repr

/-- Continues an integer to the right, digit by digit, in the direction of its sign. The first
trouble from the left decides: a character that is no digit, or a value that leaves 64 bits. -/
def extend (negative : Bool) (n : Int) : List Char → Except Trouble Int
  | [] => .ok n
  | c :: cs =>
    if c.isDigit then
      let d : Int := (c.toNat - '0'.toNat : Nat)
      let n' := if negative then 10 * n - d else 10 * n + d
      if -0x8000000000000000 ≤ n' ∧ n' < 0x8000000000000000 then extend negative n' cs
      else .error .tooLarge
    else .error .malformed

/-- Reads a whole text as an integer: an optional sign and at least one digit. -/
def readInt : List Char → Except Trouble Int
  | [] | ['+'] | ['-'] => .error .malformed
  | '+' :: cs => extend false 0 cs
  | '-' :: cs => extend true 0 cs
  | cs => extend false 0 cs

theorem value_digits (n : Nat) : value (digits n) = n :=
  Nat.ofDigitChars_ten_toDigits

end Accumulator.Text.Decimal
