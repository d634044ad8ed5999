import Accumulator.Source.Error
import Accumulator.Source.Statement
import Accumulator.Source.Token
import Accumulator.Text.Blank
import Accumulator.Text.Decimal
import Accumulator.Text.Nearest

/-!
Reading one line of source as a statement. Of two faults in a line the one
further left is reported, except that operands are counted last and that the
words of a declaration's argument are counted before the argument is read.
-/

namespace Accumulator.Source

open Text

/-- The line without its comment and without the blanks around it. -/
def significant (line : List Char) : List Char := trim (line.takeWhile (· ≠ ';'))

def readLiteral (text : String) : Except Cause Int :=
  match Decimal.readInt text.toList with
  | .ok n => .ok n
  | .error .malformed => .error (.invalidLiteral text)
  | .error .tooLarge => .error (.literalOutOfRange text)

def expectEnd (cs : List Char) : Except Cause Unit :=
  match Token.next? cs with
  | none => .ok ()
  | some (t, _) => .error (.unexpectedToken t.text)

namespace Operand

def ofToken : Token → Except Cause Operand
  | .word name => .ok (.symbol name)
  | .literal text => do
    match Word.ofOperand? (← readLiteral text) with
    | some w => .ok (.literal w)
    | none => .error (.literalOutOfRange text)
  | t => .error (.unexpectedToken t.text)

end Operand

def arity (op : Opcode) : Nat := if op.takesOperand then 1 else 0

/-- Reads what follows a word that starts a line of code. -/
def readInstruction (mnemonic : String) (cs : List Char) : Except Cause Statement := do
  match Opcode.ofMnemonic? mnemonic with
  | none => .error (.unknownOpcode mnemonic (nearest? mnemonic Opcode.executableMnemonics))
  | some op =>
    if op.isDirective then .error (.directiveInCode op) else
    let operands ← (Token.scan cs).mapM Operand.ofToken
    if operands.length = arity op then .ok (.instruction op (operands.headD .absent))
    else .error (.operandCount op (arity op) operands.length)

/-- Strips one pair of double quotes that enclose the text. -/
def unquote (cs : List Char) : List Char :=
  match cs with
  | '"' :: c :: rest => if (c :: rest).getLast? = some '"' then (c :: rest).dropLast else cs
  | _ => cs

namespace Directive

/-- A directive whose argument is one word. -/
def ofWord (op : Opcode) (make : String → Directive) (argument : List Char) :
    Except Cause Directive :=
  let words := wordCount argument
  if words = 1 then .ok (make (String.ofList argument)) else .error (.operandCount op 1 words)

/-- A directive whose argument is a text, quoted or not, with at least one word. -/
def ofText (argument : List Char) : Except Cause Directive :=
  if wordCount argument = 0 then .error (.operandCount .string 1 0)
  else .ok (.string (String.ofList (unquote argument)))

/-- Reads the argument of the directive that the keyword names. -/
def read (keyword : String) (argument : List Char) : Except Cause Directive :=
  match Opcode.ofMnemonic? keyword with
  | some .number => ofWord .number .number argument
  | some .string => ofText argument
  | some .buffer => ofWord .buffer .buffer argument
  | some .vector => ofWord .vector .vector argument
  | _ => .error (.invalidDirective keyword)

end Directive

/-- Reads what follows a word that starts a line of data. The argument is taken as it stands,
so a text may contain any characters. -/
def readDeclaration (name : String) (cs : List Char) : Except Cause Statement :=
  match Token.next? cs with
  | some (.word keyword, rest) => (Directive.read keyword (trim rest)).map (.declaration name)
  | _ => .error .malformedDeclaration

namespace Statement

/-- Reads the significant part of a line. A line without tokens holds no statement. -/
def read (sec : Section) (cs : List Char) : Except Cause (Option Statement) :=
  match Token.next? cs with
  | none => .ok none
  | some (.codeMarker, rest) => do expectEnd rest; return some (.marker .code)
  | some (.dataMarker, rest) => do expectEnd rest; return some (.marker .data)
  | some (.label name, rest) =>
    match sec with
    | .data => .error (.labelInData name)
    | .code => do expectEnd rest; return some (.label name)
  | some (.word name, rest) =>
    match sec with
    | .data => some <$> readDeclaration name rest
    | .code => some <$> readInstruction name rest
  | some (t, _) => .error (.unexpectedToken t.text)

end Statement

end Accumulator.Source
