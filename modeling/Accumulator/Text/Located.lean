import Accumulator.Text.Decimal

/-!
Errors of the file readers. A reader that stops keeps the text it has not read,
and the place of the error is found by comparing that with the whole text. The
readers see all of the text, so there is no error that asks for more of it.
-/

namespace Accumulator.Text

/-- An error of a file reader whose own causes are of type `κ`. -/
structure Located (κ : Type) where
  rest : List Char
  /-- Absent when the text departs from the grammar. -/
  cause : Option κ := none
  /-- The part of the file that was being read, where it has a name. -/
  part : Option String := none
  deriving DecidableEq, Repr

namespace Located

variable {κ : Type}

/-- How much of the unread text a message shows. -/
def snippetLength : Nat := 20

/-- The number of characters before the error. -/
def offset (e : Located κ) (text : List Char) : Nat := text.length - e.rest.length

/-- The line of the error, from one. -/
def line (e : Located κ) (text : List Char) : Nat :=
  (text.take (e.offset text)).count '\n' + 1

/-- The column of the error in characters, from one. -/
def column (e : Located κ) (text : List Char) : Nat :=
  ((text.take (e.offset text)).reverse.takeWhile (· ≠ '\n')).length + 1

/-- The unread text up to the end of its line, without the carriage return of a line ending. -/
def restOfLine (cs : List Char) : List Char :=
  let line := cs.takeWhile (· ≠ '\n')
  if line.length < cs.length ∧ line.getLast? = some '\r' then line.dropLast else line

def causeText [ToString κ] (e : Located κ) : String :=
  match e.cause with
  | none => "unexpected input"
  | some k => toString k

def partText (e : Located κ) : String :=
  match e.part with
  | none => ""
  | some p => s!"invalid {p}: "

def message [ToString κ] (e : Located κ) : String :=
  let snippet := String.ofList ((e.rest.takeWhile (· ≠ '\n')).take snippetLength)
  e.partText ++ e.causeText ++ " at: " ++ snippet

def messageIn [ToString κ] (e : Located κ) (text : List Char) : String :=
  let snippet := String.ofList ((restOfLine e.rest).take snippetLength)
  s!"at line {e.line text} col {e.column text}: " ++ e.causeText ++ s!", at '{snippet}'"

end Located

end Accumulator.Text
