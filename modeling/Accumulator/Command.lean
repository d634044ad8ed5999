import Accumulator.Tool

/-!
The command line. The first word names a tool; files are given by position and
options may stand anywhere behind it.
-/

namespace Accumulator

structure Options where
  verbose : Bool := false
  limits : Limits := {}
  deriving DecidableEq, Repr

inductive Command where
  | assemble (source target : String) (options : Options)
  | simulate (image : String) (input : Option String) (options : Options)
  deriving DecidableEq, Repr

namespace Command

def usage : String :=
  "usage: asm SOURCE TARGET [--verbose]\n" ++
  "       sim IMAGE [INPUT] [--limit TICKS] [--debug-limit TICKS] [--verbose]"

def readTicks (text : String) : Except String Nat :=
  match Text.Decimal.readBelow? Arrival.tickBound text.toList with
  | some (n, []) => .ok n
  | _ => .error s!"'{text}' is not a number of ticks"

def split (options : Options) (files : List String) :
    List String → Except String (List String × Options)
  | [] => .ok (files.reverse, options)
  | "--limit" :: n :: rest => do
    split { options with limits.ticks := ← readTicks n } files rest
  | "--debug-limit" :: n :: rest => do
    split { options with limits.trace := ← readTicks n } files rest
  | word :: rest =>
    if word = "--verbose" ∨ word = "-v" then split { options with verbose := true } files rest
    else if word.startsWith "-" then .error s!"unknown option '{word}'"
    else split options (word :: files) rest

def parse (words : List String) : Except String Command :=
  match words with
  | [] => .error usage
  | tool :: rest => do
    let (files, options) ← split {} [] rest
    match tool, files with
    | "asm", [source, target] => return .assemble source target options
    | "sim", [image] => return .simulate image none options
    | "sim", [image, input] => return .simulate image (some input) options
    | _, _ => throw usage

/-- The entries that a command shows. Unless asked for all, an assembly shows none, and a run
those that are of general interest. -/
def shown (c : Command) (entries : List Log.Entry) : List Log.Entry :=
  match c with
  | .assemble _ _ options => if options.verbose then entries else []
  | .simulate _ _ options =>
    entries.filter fun e => options.verbose || e.level = .info || e.level = .warning

end Command

end Accumulator
