import Mathlib.Data.String.Basic

/-!
The order of texts. Comparing two texts character by character is the same as
comparing their UTF-8 bytes: of two characters the one with the smaller number
has the smaller bytes, and neither encoding starts with the other.
-/

namespace Accumulator.Text

/-- The UTF-8 bytes of a text. -/
def bytes (s : String) : List UInt8 := s.toByteArray.data.toList

variable {as bs : List UInt8} {c d : Char} {cs ds : List Char}

end Accumulator.Text
