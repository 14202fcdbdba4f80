import CircuitLowering.Circuit.Build
import CircuitLowering.Circuit.Document
import CircuitLowering.CommandLine.Options
import CircuitLowering.Emission.Writer

/-!
# Runs of the command line

What a run computes from the files that it reads. The circuit is read first, then the configuration;
then the circuit is written. Opening and creating files is left to the caller.
-/

namespace CircuitLowering.CommandLine

open Json (Codec)

/-- Why a file could not be had. -/
inductive FileError where
  | notOpened
  | notRead
deriving DecidableEq, Repr

/-- Why a run failed. -/
inductive RunError where
  | inputNotOpened
  | configNotRead
  | circuit (e : CircuitError)
  | emission (f : Failure)
deriving DecidableEq, Repr

abbrev FileContent := Except FileError (List UInt8)

def loadCircuit (c : Codec) (content : FileContent) : Except RunError Circuit :=
  match content with
  | .error .notOpened => .error .inputNotOpened
  | .error .notRead => .error (.circuit .malformedJson)
  | .ok bytes => ((CircuitDescription.parseBytes c bytes).bind (·.build)).mapError .circuit

def loadConfig (c : Codec) (content : Option FileContent) : Except RunError Config :=
  match content with
  | none => .ok {}
  | some (.error _) => .error .configNotRead
  | some (.ok bytes) =>
    match String.fromUTF8? (ByteArray.mk bytes.toArray) with
    | none => .error .configNotRead
    | some text => (Config.parse c text).mapError .circuit

def write (c : Context) : Format → Emit String
  | .blif => Emit.writeBlif c
  | .rtlil => Emit.writeRtlil c
  | .json => Emit.writeJson c

def execute (codec : Codec) (o : Options) (input : FileContent) (config : Option FileContent) :
    Except RunError String := do
  let circuit ← loadCircuit codec input
  let config := o.toConfig (← loadConfig codec config) circuit.top
  let context := Context.new circuit.catalog config
  match (write context (o.format.getD .blif)).run { netlist := circuit.netlist } with
  | .ok text _ => .ok text
  | .error f _ => .error (.emission f)

/-- The exit code of a failed run: an error of the input is one, a broken invariant another. -/
def RunError.exitCode : RunError → UInt32
  | inputNotOpened | configNotRead | circuit _ | emission (.error _) => 1
  | emission (.violated _) | emission (.fault _) => 101

def misuseCode : UInt32 := 2

def outputErrorCode : UInt32 := 1

def versionText : String := "netlower 0.1.0\n"

def helpText : String :=
  "Write a mapped circuit as BLIF, RTLIL or a JSON netlist\n\n"
    ++ "Usage: netlower [OPTIONS] --input <INPUT>\n\n"
    ++ "Options:\n"
    ++ "  -i, --input <INPUT>      circuit description (JSON)\n"
    ++ "  -o, --output <OUTPUT>    output file; standard output when omitted\n"
    ++ "  -f, --format <FORMAT>    blif, rtlil or json [default: blif]\n"
    ++ "  -c, --config <CONFIG>    configuration file (JSON)\n"
    ++ "  -t, --top <TOP>          name of the top module\n"
    ++ "      --split-memory-width\n"
    ++ "      --split-memory-depth <DEPTH>\n"
    ++ "      --dual-port-split-depth <DEPTH>\n"
    ++ "      --no-params          leave hard-block parameters out of BLIF\n"
    ++ "  -h, --help\n"
    ++ "  -V, --version\n"

def About.text : About → String
  | help => helpText
  | version => versionText

end CircuitLowering.CommandLine
