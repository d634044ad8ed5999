import Accumulator.Opcode

/-!
What can be wrong with a source text. A cause says what is wrong; an error says
in addition on which line, and in the course of what. The innermost place is
recorded first and a line, once known, stays.
-/

namespace Accumulator.Source

inductive Cause where
  | duplicateSymbol (name : String) (firstLine : Nat)
  | codeAfterData
  | labelInData (name : String)
  | operandCount (opcode : Opcode) (expected got : Nat)
  | invalidLiteral (literal : String)
  | literalOutOfRange (literal : String)
  | invalidBufferSize (size : String)
  | layoutTooLarge (cells requested : Nat)
  | unresolvedSymbol (name : String) (suggestion : Option String)
  | unknownOpcode (name : String) (suggestion : Option String)
  | invalidDirective (name : String)
  | directiveInCode (opcode : Opcode)
  | malformedDeclaration
  | duplicateVector (firstLine : Nat)
  | unexpectedToken (token : String)
  deriving DecidableEq, Repr

namespace Cause

/-- The question at the end of a message about a name that is not known. -/
def question : Option String → String
  | none => ""
  | some name => s!", did you mean '{name}'?"

def message : Cause → String
  | duplicateSymbol name firstLine =>
    s!"redefinition of '{name}' (first defined on line {firstLine})"
  | codeAfterData => ".code: section after the .data: section"
  | labelInData name => s!"label '{name}' in the data section"
  | operandCount opcode expected got =>
    s!"{opcode} takes {expected} argument(s) but {got} were given"
  | invalidLiteral literal => s!"'{literal}' is not a number"
  | literalOutOfRange literal => s!"{literal} does not fit in a 32-bit word"
  | invalidBufferSize size => s!"invalid buffer size {size}"
  | layoutTooLarge cells requested => s!"cannot add {requested} cells after {cells}, memory is full"
  | unresolvedSymbol name suggestion => s!"undefined symbol '{name}'" ++ question suggestion
  | unknownOpcode name suggestion => s!"unknown instruction '{name}'" ++ question suggestion
  | invalidDirective name => s!"'{name}' is not a data directive"
  | directiveInCode opcode => s!"directive {opcode} outside of the data section"
  | malformedDeclaration => "expected a declaration of the form 'name DIRECTIVE argument'"
  | duplicateVector firstLine => s!"interrupt vector already declared on line {firstLine}"
  | unexpectedToken token => s!"unexpected '{token}'"

end Cause

structure Error where
  cause : Cause
  /-- The line of the source, from one. -/
  line : Option Nat := none
  /-- What was being done, innermost first. -/
  context : List String := []
  deriving DecidableEq, Repr

namespace Error

def ofCause (c : Cause) : Error := ⟨c, none, []⟩

def within (what : String) (e : Error) : Error := { e with context := e.context ++ [what] }

/-- Sets the line, unless one is known already. -/
def atLine (n : Nat) (e : Error) : Error := { e with line := e.line.or (some n) }

def linePart : Option Nat → String
  | none => ""
  | some n => s!"line {n}: "

def contextPart (context : List String) : String :=
  if context.isEmpty then "" else ": ".intercalate context.reverse ++ ": "

def message (e : Error) : String :=
  linePart e.line ++ contextPart e.context ++ e.cause.message

end Error

end Accumulator.Source
