import Accumulator.Image.Reader
import Accumulator.Layout.Log
import Accumulator.Run.Log

/-!
The two tools of the command line as functions of the files they are given: one
assembles a source file into an image file, the other runs an image file.
-/

namespace Accumulator.Tool

open Text

/-- The characters of a file, or what the system says about it. -/
abbrev File := Except String (List Char)

/-- What a tool leaves behind. -/
structure Outcome where
  code : Nat := 0
  output : String := ""
  message : Option String := none
  /-- What is to be written to the target file. -/
  target : Option (List Char) := none
  log : List Log.Entry := []
  deriving DecidableEq, Repr

/-- A failure of the tool. Nothing is written. -/
def Outcome.failure (message : String) (log : List Log.Entry) : Outcome :=
  { code := 1, message := some message, log }

/-- The failure of a tool whose file cannot be read. -/
def Outcome.unreadable (why : String) : Outcome := .failure s!"IO error: {why}" []

/-- The line that sums up an assembly. The vector line counts as an instruction. -/
def summary (source : List Char) (image : Image) : String :=
  s!"LoC: {pieceCount source} code_instr: {image.memory.size + 1}\n"

def assemble (source : File) : Outcome :=
  match source with
  | .error why => .unreadable why
  | .ok source =>
    let log := assemblyLog source
    match Accumulator.assemble source with
    | .error e => .failure s!"Translation error: {e.message}" log
    | .ok image => { output := summary source image, target := some image.text, log }

def reportText (r : Report) : String :=
  s!"{r.output}\nInstructions: {r.instructions} Ticks: {r.ticks}\n"

def loadedEntry (image : Image) (arrivals : List Arrival) : Log.Entry :=
  ⟨.info, "loaded code image",
    [("records", toString image.memory.size), ("events", toString arrivals.length)]⟩

def runImage (image : Image) (arrivals : List Arrival) (limits : Limits) : Outcome :=
  let log := loadedEntry image arrivals :: (Run.start image arrivals).log limits
  match Accumulator.simulate image arrivals limits with
  | .error f => .failure s!"Execution error: {f.message}" log
  | .ok report => { output := reportText report, log }

/-- The arrivals of an input file, or the failure of the tool. Without a file there are none. -/
def readInput : Option File → Except Outcome (List Arrival)
  | none => .ok []
  | some (.error why) => .error (.unreadable why)
  | some (.ok text) =>
    (Arrival.readAll text).mapError fun e =>
      .failure s!"Invalid input file: {e.messageIn text}" []

/-- Runs an image file on an input file, if there is one. The image is read before the input. -/
def simulate (image : File) (input : Option File) (limits : Limits) : Outcome :=
  match image with
  | .error why => .unreadable why
  | .ok text =>
    match Image.read text with
    | .error e => .failure s!"Invalid code image: {e.messageIn text}" []
    | .ok image =>
      match readInput input with
      | .error failure => failure
      | .ok arrivals => runImage image arrivals limits

end Accumulator.Tool
