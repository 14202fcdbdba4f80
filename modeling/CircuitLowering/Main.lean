import CircuitLowering.CommandLine.Run

/-!
# The program

`netlower` reads a circuit description and writes it as BLIF, RTLIL or a JSON netlist. The sections that
modules name are those of its specification.
-/

namespace CircuitLowering.CommandLine

def readHandle (handle : IO.FS.Handle) : IO FileContent := do
  try
    return .ok (← handle.readBinToEnd).toList
  catch _ =>
    return .error .notRead

def readContent (path : String) : IO FileContent := do
  try
    readHandle (← IO.FS.Handle.mk path .read)
  catch _ =>
    return .error .notOpened

/-- Writes the text to the output that the options name. -/
def writeText (o : Options) (text : String) : IO UInt32 := do
  match o.output with
  | none =>
    IO.print text
    return 0
  | some path =>
    try
      IO.FS.writeFile path text
      return 0
    catch e =>
      IO.eprintln (toString e)
      return outputErrorCode

/-- Answers a command line; the answer is the exit code. -/
def answer (args : List String) : IO UInt32 := do
  match request args with
  | .about a =>
    IO.print a.text
    return 0
  | .misuse =>
    IO.eprint helpText
    return misuseCode
  | .run input o =>
    let circuit ← readContent input
    let config ← o.config.mapM readContent
    match execute .standard o circuit config with
    | .ok text => writeText o text
    | .error e => return e.exitCode

end CircuitLowering.CommandLine

def main (args : List String) : IO UInt32 := CircuitLowering.CommandLine.answer args
