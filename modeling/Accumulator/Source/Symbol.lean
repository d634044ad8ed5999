import Accumulator.Text.Nearest
import Accumulator.Word

/-!
Names and the addresses they stand for. Labels and variables share one
namespace, and a name keeps its first definition.
-/

namespace Accumulator.Source

inductive SymbolKind where
  /-- A name in the code section. -/
  | label
  /-- A name in the data section. -/
  | variable
  deriving DecidableEq, Repr

def SymbolKind.name : SymbolKind → String
  | .label => "Label"
  | .variable => "Variable"

structure Symbol where
  name : String
  kind : SymbolKind
  /-- The address of the first cell laid out after the definition. -/
  address : Word
  line : Nat
  deriving DecidableEq, Repr

/-- The defined names, the latest first. -/
structure SymbolTable where
  symbols : List Symbol := []
  deriving DecidableEq, Repr

namespace SymbolTable

def find? (table : SymbolTable) (name : String) : Option Symbol :=
  table.symbols.find? (·.name == name)

def address? (table : SymbolTable) (name : String) : Option Word :=
  (table.find? name).map Symbol.address

/-- The address of a name that is a label. -/
def labelAddress? (table : SymbolTable) (name : String) : Option Word :=
  ((table.find? name).filter (·.kind = .label)).map Symbol.address

/-- Adds a definition, or gives back the one that the name has already. -/
def define (table : SymbolTable) (s : Symbol) : Except Symbol SymbolTable :=
  match table.find? s.name with
  | some first => .error first
  | none => .ok ⟨s :: table.symbols⟩

def size (table : SymbolTable) : Nat := table.symbols.length

def isEmpty (table : SymbolTable) : Bool := table.symbols.isEmpty

/-- The defined name that was probably meant. -/
def suggestion (table : SymbolTable) (name : String) : Option String :=
  Text.nearest? name (table.symbols.map Symbol.name)

def labelSuggestion (table : SymbolTable) (name : String) : Option String :=
  Text.nearest? name ((table.symbols.filter (·.kind = .label)).map Symbol.name)

end SymbolTable

end Accumulator.Source
