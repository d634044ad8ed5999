import Accumulator.Command

/-!
The program: reads the files that the command names, runs the tool, and writes
what it leaves behind.
-/

open Accumulator

def systemText : IO.Error → String
  | .noFileOrDirectory .. => "No such file or directory (os error 2)"
  | e => toString e

def readTextFile (path : String) : IO Tool.File := do
  try
    match String.fromUTF8? (← IO.FS.readBinFile path) with
    | some text => return .ok text.toList
    | none => return .error "stream did not contain valid UTF-8"
  catch e => return .error (systemText e)

def runCommand : Command → IO Tool.Outcome
  | .assemble source _ _ => return Tool.assemble (← readTextFile source)
  | .simulate image input options => do
    let image ← readTextFile image
    let input ← input.mapM readTextFile
    return Tool.simulate image input options.limits

def writeTarget (c : Command) (outcome : Tool.Outcome) : IO Tool.Outcome := do
  match c, outcome.target with
  | .assemble _ target _, some text =>
    try
      IO.FS.writeFile target (String.ofList text)
      return outcome
    catch e => return .unreadable (systemText e)
  | _, _ => return outcome

def showEntry (e : Log.Entry) : String :=
  let fields := e.fields.map fun (key, value) => s!"{key}: {value}"
  ", ".intercalate (s!"{e.level.name} {e.message}" :: fields)

def main (arguments : List String) : IO UInt32 := do
  match Command.parse arguments with
  | .error message =>
    IO.eprintln message
    return 1
  | .ok command =>
    let outcome ← writeTarget command (← runCommand command)
    for e in command.shown outcome.log do
      IO.eprintln (showEntry e)
    IO.print outcome.output
    if let some message := outcome.message then
      IO.eprintln message
    return UInt32.ofNat outcome.code
