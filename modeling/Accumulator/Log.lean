/-!
Log entries. An entry has a level, a message and named fields; fields are texts
and their order carries no meaning.
-/

namespace Accumulator.Log

inductive Level where
  | trace
  | debug
  | info
  | warning
  deriving DecidableEq, Repr

def Level.name : Level → String
  | trace => "TRACE"
  | debug => "DEBUG"
  | info => "INFO"
  | warning => "WARNING"

structure Entry where
  level : Level
  message : String
  fields : List (String × String)
  deriving DecidableEq, Repr

end Accumulator.Log
