/-!
The tokens of a source line. At each point the longest token is taken; where no
token starts, one stray character is taken instead, so a scan never stops early.
Between tokens stand blanks, tabs, carriage returns and form feeds. A line feed
is not among them.
-/

namespace Accumulator.Source

inductive Token where
  | codeMarker
  | dataMarker
  /-- A name and a colon. -/
  | label (name : String)
  | word (name : String)
  /-- Digits, possibly with a sign. -/
  | literal (text : String)
  | stray (c : Char)
  deriving DecidableEq, Repr

namespace Token

def isNameStart (c : Char) : Bool := c.isAlpha || c == '_'

def isNameChar (c : Char) : Bool := c.isAlphanum || c == '_'

/-- Whether the character separates tokens. -/
def isGap (c : Char) : Bool := c == ' ' || c == '\t' || c == '\r' || c == '\x0c'

/-- The marker `.code:` after its point. -/
def codeTail : List Char := ['c', 'o', 'd', 'e', ':']

/-- The marker `.data:` after its point. -/
def dataTail : List Char := ['d', 'a', 't', 'a', ':']

/-- The characters of the token as they stand in the line. -/
def chars : Token → List Char
  | codeMarker => '.' :: codeTail
  | dataMarker => '.' :: dataTail
  | label name => name.toList ++ [':']
  | word name => name.toList
  | literal text => text.toList
  | stray c => [c]

def text (t : Token) : String := String.ofList t.chars

/-- The token as it is shown. Stray characters are all shown alike. -/
def display : Token → String
  | stray _ => "<error>"
  | t => t.text

/-- A name, or a label if a colon follows it. -/
def readName (c : Char) (cs : List Char) : Token × List Char :=
  let name := String.ofList (c :: cs.takeWhile isNameChar)
  match cs.dropWhile isNameChar with
  | ':' :: rest => (label name, rest)
  | rest => (word name, rest)

/-- A literal whose first character, a digit or a sign, is `c`. -/
def readLiteral (c : Char) (cs : List Char) : Token × List Char :=
  (literal (String.ofList (c :: cs.takeWhile Char.isDigit)), cs.dropWhile Char.isDigit)

/-- A section marker after its point, or the point alone. -/
def readMarker (cs : List Char) : Token × List Char :=
  if codeTail.isPrefixOf cs then (codeMarker, cs.drop 5)
  else if dataTail.isPrefixOf cs then (dataMarker, cs.drop 5)
  else (stray '.', cs)

/-- The longest token at the head of `c :: cs`, and what follows it. -/
def read (c : Char) (cs : List Char) : Token × List Char :=
  if isNameStart c then readName c cs
  else if c.isDigit then readLiteral c cs
  else if c = '+' ∨ c = '-' then
    if (cs.takeWhile Char.isDigit).isEmpty then (stray c, cs) else readLiteral c cs
  else if c = '.' then readMarker cs
  else (stray c, cs)

def next? (cs : List Char) : Option (Token × List Char) :=
  match cs.dropWhile isGap with
  | [] => none
  | c :: rest => some (read c rest)

/-- What a token took and what it left make up the text. -/
theorem chars_append_readName (c : Char) (cs : List Char) :
    (readName c cs).1.chars ++ (readName c cs).2 = c :: cs := by
  have split := List.takeWhile_append_dropWhile (p := isNameChar) (l := cs)
  unfold readName
  split
  next rest h => simp [chars, ← h, split]
  next h => simp [chars, split]

theorem chars_append_readLiteral (c : Char) (cs : List Char) :
    (readLiteral c cs).1.chars ++ (readLiteral c cs).2 = c :: cs := by
  simp [readLiteral, chars]

theorem chars_append_readMarker (cs : List Char) :
    (readMarker cs).1.chars ++ (readMarker cs).2 = '.' :: cs := by
  unfold readMarker
  split
  next h =>
    obtain ⟨rest, rfl⟩ := List.isPrefixOf_iff_prefix.1 h
    rfl
  split
  next h =>
    obtain ⟨rest, rfl⟩ := List.isPrefixOf_iff_prefix.1 h
    rfl
  next => rfl

theorem chars_append_read (c : Char) (cs : List Char) :
    (read c cs).1.chars ++ (read c cs).2 = c :: cs := by
  unfold read
  split
  · exact chars_append_readName c cs
  split
  · exact chars_append_readLiteral c cs
  split
  · split
    · simp [chars]
    · exact chars_append_readLiteral c cs
  split
  next h => exact h ▸ chars_append_readMarker cs
  next => simp [chars]

theorem length_chars_read_pos (c : Char) (cs : List Char) : 0 < (read c cs).1.chars.length := by
  unfold read
  split
  · unfold readName
    split <;> simp [chars]
  split
  · simp [readLiteral, chars]
  split
  · split <;> simp [readLiteral, chars]
  split
  · unfold readMarker
    split
    · simp [chars]
    · split <;> simp [chars]
  · simp [chars]

theorem length_read (c : Char) (cs : List Char) : (read c cs).2.length ≤ cs.length := by
  have pos := length_chars_read_pos c cs
  have total := congrArg List.length (chars_append_read c cs)
  simp only [List.length_append, List.length_cons] at total
  omega

theorem length_of_next? {cs : List Char} {t : Token} {rest : List Char}
    (h : next? cs = some (t, rest)) : rest.length < cs.length := by
  have skipped := (List.dropWhile_suffix isGap (l := cs)).sublist.length_le
  unfold next? at h
  split at h
  · cases h
  next c tail hd =>
    have taken : (read c tail).2.length ≤ tail.length := length_read c tail
    simp only [Option.some.inj h] at taken
    rw [hd, List.length_cons] at skipped
    omega

end Token

/-- A token with its place in the line, counted in bytes of UTF-8. -/
structure Lexeme where
  token : Token
  start : Nat
  stop : Nat
  deriving DecidableEq, Repr

namespace Lexeme

/-- The number of bytes that the characters take in UTF-8. -/
def byteCount : List Char → Nat
  | [] => 0
  | c :: cs => c.utf8Size + byteCount cs

/-- The tokens of a text that starts at byte `pos`, with their places. -/
def scan (pos : Nat) (cs : List Char) : List Lexeme :=
  match _h : Token.next? cs with
  | none => []
  | some (t, rest) =>
    let start := pos + byteCount (cs.takeWhile Token.isGap)
    let stop := start + byteCount t.chars
    ⟨t, start, stop⟩ :: scan stop rest
termination_by cs.length
decreasing_by exact Token.length_of_next? _h

end Lexeme

def Token.scan (cs : List Char) : List Token := (Lexeme.scan 0 cs).map Lexeme.token

end Accumulator.Source
