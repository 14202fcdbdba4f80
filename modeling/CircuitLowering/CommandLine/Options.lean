import CircuitLowering.Config

/-!
# Options of the command line

Arguments are read from left to right. An option with a value takes it from the same argument,
after an equals sign if its name is long, or else from the next one, which then must not look like
an option. No option may be repeated. The first wrong argument, or the first that asks for a text
about the program, decides; that the input is missing shows only at the end.

The options are in section 11 of the specification, item 8.
-/

namespace CircuitLowering.CommandLine

/-- The forms in which a circuit can be written. -/
inductive Format where
  | blif
  | rtlil
  | json
deriving DecidableEq, Repr

namespace Format

def name : Format → String
  | blif => "blif"
  | rtlil => "rtlil"
  | json => "json"

def ofName? (name : String) : Option Format := [blif, rtlil, json].find? (·.name = name)

end Format

/-- What the arguments ask for. -/
structure Options where
  input : Option String := none
  /-- The file to write; the standard output without one. -/
  output : Option String := none
  format : Option Format := none
  config : Option String := none
  top : Option String := none
  splitMemoryWidth : Bool := false
  splitMemoryDepth : Option UInt64 := none
  dualPortSplitDepth : Option UInt64 := none
  /-- Leaves the parameters of hard blocks out of BLIF. -/
  noParams : Bool := false
deriving DecidableEq, Repr

/-- The options that have a value. -/
inductive Setting where
  | input
  | output
  | format
  | config
  | top
  | splitMemoryDepth
  | dualPortSplitDepth
deriving DecidableEq, Repr

inductive About where
  | help
  | version
deriving DecidableEq, Repr

/-- What an argument is. -/
inductive Argument where
  | endOfOptions
  | splitMemoryWidth
  | noParams
  | about (a : About)
  | assign (s : Setting) (value : String)
  /-- An option whose value is the next argument. -/
  | await (s : Setting)
  | unknown
deriving DecidableEq, Repr

namespace Argument

/-- The options with a value that have a short name. -/
def short? : Char → Option Setting
  | 'i' => some .input
  | 'o' => some .output
  | 'f' => some .format
  | 'c' => some .config
  | 't' => some .top
  | _ => none

/-- An option with a value, by its long name. -/
def long? : String → Option Setting
  | "input" => some .input
  | "output" => some .output
  | "format" => some .format
  | "config" => some .config
  | "top" => some .top
  | "split-memory-depth" => some .splitMemoryDepth
  | "dual-port-split-depth" => some .dualPortSplitDepth
  | _ => none

def ofLong (name : String) : Argument :=
  match name with
  | "split-memory-width" => splitMemoryWidth
  | "no-params" => noParams
  | "help" => about .help
  | "version" => about .version
  | _ => match long? name with
    | some s => await s
    | none => unknown

/-- A short option and what follows it in the same argument. -/
def ofShort (c : Char) (rest : List Char) : Argument :=
  if c = 'h' then about .help
  else if c = 'V' then about .version
  else match short? c, rest with
    | some s, [] => await s
    | some s, '=' :: value => assign s (String.ofList value)
    | some s, value => assign s (String.ofList value)
    | none, _ => unknown

def ofChars : List Char → Argument
  | ['-', '-'] => endOfOptions
  | '-' :: '-' :: text =>
    let name := String.ofList (text.takeWhile (· ≠ '='))
    match text.dropWhile (· ≠ '=') with
    | [] => ofLong name
    | _ :: value => match long? name with
      | some s => assign s (String.ofList value)
      | none => unknown
  | '-' :: c :: rest => ofShort c rest
  | _ => unknown

end Argument

/-- Whether an argument may be the value of the option before it. -/
def isValue (arg : String) : Bool := arg = "-" || !arg.startsWith "-"

/-- Reads a number of 64 bits: decimal digits, with a plus sign before them if one likes. -/
def uint64? (text : String) : Option UInt64 :=
  let digits := match text.toList with
    | '+' :: rest => rest
    | cs => cs
  let value := Nat.ofDigitChars 10 digits 0
  if digits ≠ [] ∧ digits.all Char.isDigit ∧ value < UInt64.size then some (UInt64.ofNat value)
  else none

/-- A value for a setting that has none. -/
def fresh {α : Type} (old value : Option α) : Option (Option α) :=
  match old, value with
  | none, some v => some (some v)
  | _, _ => none

/-- A file name, which is not empty. -/
def path? (text : String) : Option String := if text = "" then none else some text

namespace Options

/-- Sets an option that is not set; fails at a value that does not fit it. -/
def set? (o : Options) (s : Setting) (value : String) : Option Options :=
  match s with
  | .input => (fresh o.input (path? value)).map fun v => { o with input := v }
  | .output => (fresh o.output (path? value)).map fun v => { o with output := v }
  | .format => (fresh o.format (Format.ofName? value)).map fun v => { o with format := v }
  | .config => (fresh o.config (path? value)).map fun v => { o with config := v }
  | .top => (fresh o.top (some value)).map fun v => { o with top := v }
  | .splitMemoryDepth =>
    (fresh o.splitMemoryDepth (uint64? value)).map fun v => { o with splitMemoryDepth := v }
  | .dualPortSplitDepth =>
    (fresh o.dualPortSplitDepth (uint64? value)).map fun v => { o with dualPortSplitDepth := v }

/-- The configuration of the run: options count before the configuration file, and the name that the
circuit gives to its top counts before that of the file. -/
def toConfig (o : Options) (base : Config) (circuitTop : Option String) : Config where
  topModule := (o.top.or circuitTop).getD base.topModule
  splitMemoryWidth := base.splitMemoryWidth || o.splitMemoryWidth
  splitMemoryDepth := o.splitMemoryDepth.or base.splitMemoryDepth
  dualPortSplitDepth := o.dualPortSplitDepth.or base.dualPortSplitDepth
  emitParams := base.emitParams && !o.noParams
  traversalMark := base.traversalMark

end Options

/-- What the arguments amount to. -/
inductive Request where
  /-- A run that reads the circuit from the file `input`. -/
  | run (input : String) (o : Options)
  | about (a : About)
  | misuse
deriving DecidableEq, Repr

def finish (o : Options) : Request :=
  match o.input with
  | some input => .run input o
  | none => .misuse

def requestFrom (o : Options) : List String → Request
  | [] => finish o
  | arg :: rest =>
    match Argument.ofChars arg.toList with
    | .endOfOptions => if rest.isEmpty then finish o else .misuse
    | .splitMemoryWidth =>
      if o.splitMemoryWidth then .misuse else requestFrom { o with splitMemoryWidth := true } rest
    | .noParams => if o.noParams then .misuse else requestFrom { o with noParams := true } rest
    | .about a => .about a
    | .assign s value =>
      match o.set? s value with
      | some o => requestFrom o rest
      | none => .misuse
    | .await s =>
      match rest with
      | [] => .misuse
      | value :: rest =>
        if isValue value then
          match o.set? s value with
          | some o => requestFrom o rest
          | none => .misuse
        else .misuse
    | .unknown => .misuse

def request (args : List String) : Request := requestFrom {} args

end CircuitLowering.CommandLine
