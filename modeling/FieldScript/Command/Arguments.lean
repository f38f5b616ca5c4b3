/-
# Arguments of the command line

Arguments are read from the left.  An option's value is the argument behind it
or what stands behind its `=`; it is looked at only when the next argument has
been recognised, or at the end.  So of two faults in a row an argument that is
not known comes before the value in front of it.

| argument | meaning |
| --- | --- |
| `--name`, `--name=value` | an option by its name |
| `-abc` | the options `-a`, `-b`, `-c` |
| `--` | all that follows are files |
| anything else | the value of the option in front, or the file |
-/

import FieldScript.Log
import FieldScript.Single.Text
import FieldScript.Text.Blank

namespace FieldScript

/-- An option without a value. -/
inductive Switch where
  | tokens | noColor | pretty | ast | listing | verbose | help | version
deriving DecidableEq, Inhabited

/-- What takes a value. -/
inductive Setting where
  | file | emit | seed | set
deriving DecidableEq, Inhabited

/-- The option in messages. -/
def Switch.text : Switch → String
  | tokens => "--tokens"
  | noColor => "--no-color"
  | pretty => "--pretty"
  | ast => "--ast"
  | listing => "--bc"
  | verbose => "--verbose..."
  | help => "--help"
  | version => "--version"

/-- The option in messages, with a name for its value. -/
def Setting.text : Setting → String
  | file => "<FILE>"
  | emit => "--emit <PATH>"
  | seed => "--seed <SEED>"
  | set => "--set <NAME=VALUE>"

/-- Why arguments are refused. -/
inductive UsageError where
  | missingFile
  | unknown (argument : String)
  | missingValue (setting : Setting)
  | invalidValue (setting : Setting) (value reason : String)
  /-- An option given twice, by its text. -/
  | repeated (option : String)
  | unneededValue (option : Switch) (value : String)
deriving DecidableEq, Inhabited

def UsageError.message : UsageError → String
  | missingFile => "the following required arguments were not provided:"
  | unknown argument => "unexpected argument '" ++ argument ++ "' found"
  | missingValue setting =>
    "a value is required for '" ++ setting.text ++ "' but none was supplied"
  | invalidValue setting value reason =>
    "invalid value '" ++ value ++ "' for '" ++ setting.text ++ "': " ++ reason
  | repeated option => "the argument '" ++ option ++ "' cannot be used multiple times"
  | unneededValue option value =>
    "unexpected value '" ++ value ++ "' for '" ++ option.text ++ "' found; no more were expected"

/-- What the arguments ask for. -/
structure Invocation where
  file : String
  tokens : Bool
  noColor : Bool
  pretty : Bool
  ast : Bool
  listing : Bool
  emit : Option String
  seed : Option UInt64
  set : List (String × Single)
  verbosity : Nat
deriving DecidableEq, Inhabited

namespace Invocation

/-- The least important events that the log shows. -/
def level (inv : Invocation) : Level :=
  match inv.verbosity with
  | 0 => .warn
  | 1 => .debug
  | _ => .trace

end Invocation

/-- Why there is nothing to run. -/
inductive Refusal where
  | usage (error : UsageError)
  | help
  | version
deriving DecidableEq, Inhabited

namespace Arguments

/-- The digits behind a plus sign, if there is one; a sign alone is kept. -/
def unsigned : List Char → List Char
  | ['+'] => ['+']
  | '+' :: cs => cs
  | cs => cs

/-- A number below `2^64` with one more digit. -/
def seedDigit (n : Nat) (c : Char) : Except String Nat := do
  if !c.isDigit then throw "invalid digit found in string"
  let next := 10 * n + (c.toNat - '0'.toNat)
  if UInt64.size ≤ next then throw "number too large to fit in target type"
  return next

/-- Reads a seed: decimal digits, a plus sign allowed in front, below `2^64`.
The first character at which this fails tells why. -/
def readSeed (s : String) : Except String UInt64 := do
  let digits := unsigned s.toList
  if digits.isEmpty then throw "cannot parse integer from empty string"
  let n ← digits.foldlM seedDigit 0
  return UInt64.ofNat n

/-- Reads a field and its value, divided by the first `=`. -/
def readAssignment (s : String) : Except String (String × Single) :=
  let cs := s.toList
  match cs.dropWhile (· ≠ '=') with
  | [] => .error ("expected NAME=VALUE, got '" ++ s ++ "'")
  | _ :: rest =>
    let name := Text.trim (String.ofList (cs.takeWhile (· ≠ '=')))
    let value := Text.trim (String.ofList rest)
    if name.isEmpty then .error ("missing field name in '" ++ s ++ "'")
    else
      match Single.read? value with
      | some x => .ok (name, x)
      | none => .error ("'" ++ value ++ "' is not a number")

/-- The arguments read so far. -/
structure Reading where
  switches : List Switch
  verbosity : Nat
  file : Option String
  emit : Option String
  seed : Option UInt64
  set : List (String × Single)
  /-- A setting that is not looked at yet, and its value if it has one. -/
  waiting : Option (Setting × Option String)
  /-- Whether an argument was taken for the file. -/
  fileGiven : Bool
deriving DecidableEq, Inhabited

def Reading.start : Reading := ⟨[], 0, none, none, none, [], none, false⟩

/-- Takes a value for a setting. -/
def Reading.accept (r : Reading) (setting : Setting) (value : String) :
    Except Refusal Reading :=
  match setting with
  | .file =>
    if value.isEmpty then .error (.usage (.missingValue .file))
    else .ok { r with file := some value }
  | .emit =>
    if r.emit.isSome then .error (.usage (.repeated setting.text))
    else if value.isEmpty then .error (.usage (.missingValue .emit))
    else .ok { r with emit := some value }
  | .seed =>
    if r.seed.isSome then .error (.usage (.repeated setting.text))
    else
      match readSeed value with
      | .ok seed => .ok { r with seed := some seed }
      | .error reason => .error (.usage (.invalidValue .seed value reason))
  | .set =>
    match readAssignment value with
    | .ok assignment => .ok { r with set := r.set ++ [assignment] }
    | .error reason => .error (.usage (.invalidValue .set value reason))

/-- Looks at the setting that waits. -/
def Reading.settle (r : Reading) : Except Refusal Reading :=
  match r.waiting with
  | none => .ok r
  | some (setting, none) => .error (.usage (.missingValue setting))
  | some (setting, some value) => Reading.accept { r with waiting := none } setting value

/-- Turns on a switch; only `-v` may come again. -/
def Reading.turnOn (r : Reading) (switch : Switch) : Except Refusal Reading := do
  let r ← r.settle
  match switch with
  | .help => throw .help
  | .version => throw .version
  | .verbose => return { r with verbosity := r.verbosity + 1 }
  | _ =>
    if r.switches.contains switch then throw (.usage (.repeated switch.text))
    return { r with switches := switch :: r.switches }

def switch? : String → Option Switch
  | "tokens" => some .tokens
  | "no-color" => some .noColor
  | "pretty" => some .pretty
  | "ast" => some .ast
  | "bc" => some .listing
  | "bytecode" => some .listing
  | "verbose" => some .verbose
  | "help" => some .help
  | "version" => some .version
  | _ => none

def setting? : String → Option Setting
  | "emit" => some .emit
  | "seed" => some .seed
  | "set" => some .set
  | _ => none

/-- Reads `--name` or `--name=value`, given without the dashes. -/
def Reading.long (r : Reading) (cs : List Char) : Except Refusal Reading :=
  let name := String.ofList (cs.takeWhile (· ≠ '='))
  let value := match cs.dropWhile (· ≠ '=') with
    | [] => none
    | _ :: rest => some (String.ofList rest)
  match switch? name, setting? name, value with
  | some switch, _, none => r.turnOn switch
  | some switch, _, some value => .error (.usage (.unneededValue switch value))
  | none, some setting, none => do
    let r ← r.settle
    return { r with waiting := some (setting, none) }
  | none, some setting, some value => do
    let r ← r.settle
    r.accept setting value
  | none, none, _ => .error (.usage (.unknown ("--" ++ name)))

/-- Reads a one-letter option. -/
def Reading.short (r : Reading) (c : Char) : Except Refusal Reading :=
  match c with
  | 'v' => r.turnOn .verbose
  | 'h' => r.turnOn .help
  | 'V' => r.turnOn .version
  | _ => .error (.usage (.unknown ("-" ++ String.singleton c)))

/-- Reads the file; there is one at most. -/
def Reading.positional (r : Reading) (argument : String) : Except Refusal Reading :=
  if r.fileGiven then .error (.usage (.unknown argument))
  else do
    let r ← r.settle
    return { r with waiting := some (.file, some argument), fileGiven := true }

/-- Reads an argument that is no option: a value that an option waits for, or
the file. -/
def Reading.plain (r : Reading) (argument : String) : Except Refusal Reading :=
  match r.waiting with
  | some (setting, none) => .ok { r with waiting := some (setting, some argument) }
  | _ => r.positional argument

/-- Reads all arguments; behind `--` they are files. -/
def Reading.all (r : Reading) (onlyFiles : Bool) : List String → Except Refusal Reading
  | [] => r.settle
  | argument :: rest => do
    if onlyFiles then
      Reading.all (← r.positional argument) true rest
    else
      match argument.toList with
      | ['-', '-'] => Reading.all r true rest
      | '-' :: '-' :: cs => Reading.all (← r.long cs) false rest
      | '-' :: c :: cs => Reading.all (← (c :: cs).foldlM Reading.short r) false rest
      | _ => Reading.all (← r.plain argument) false rest

end Arguments

/-- What the arguments of a command line ask for. -/
def Invocation.ofArguments (arguments : List String) : Except Refusal Invocation := do
  let r ← Arguments.Reading.start.all false arguments
  match r.file with
  | none => throw (.usage .missingFile)
  | some file =>
    return {
      file
      tokens := r.switches.contains .tokens
      noColor := r.switches.contains .noColor
      pretty := r.switches.contains .pretty
      ast := r.switches.contains .ast
      listing := r.switches.contains .listing
      emit := r.emit
      seed := r.seed
      set := r.set
      verbosity := r.verbosity }

end FieldScript
