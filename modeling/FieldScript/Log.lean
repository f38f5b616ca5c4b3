/-
# The log

What the compiler, the machine and the command line report while they work.  An
event is kept as data; `Event.line` is its text: the level, where it comes
from, and what happened.
-/

import FieldScript.Instr
import FieldScript.Text.Quoted

namespace FieldScript

/-- How much a reader has to care, the most first. -/
inductive Level where
  | warn | info | debug | trace
deriving DecidableEq, Inhabited

namespace Level

def name : Level → String
  | warn => "WARN"
  | info => "INFO"
  | debug => "DEBUG"
  | trace => "TRACE"

/-- The place of the level in the order from warnings to traces. -/
def rank : Level → Nat
  | warn => 0
  | info => 1
  | debug => 2
  | trace => 3

end Level

/-- Where an event comes from. -/
inductive Origin where
  | compiler | machine | command
deriving DecidableEq, Inhabited

/-- The origin as it stands in a line of the log. -/
def Origin.name : Origin → String
  | compiler => "glint::bytecode::compile"
  | machine => "glint::runtime::vm"
  | command => "glint"

inductive Event where
  /-- A read of a field that nothing declares. -/
  | undeclaredRead (name : String)
  /-- A call of a function that is not known. -/
  | unknownCall (name : String)
  | compiledConditional (bodyStart stop : Nat)
  | compiledChunk (size fields : Nat)
  | runStart (size fields : Nat)
  /-- An instruction was executed and left `depth` values on the stack. -/
  | executed (instr : Instr) (depth : Nat) (top : Option Single)
  | returned (offset depth : Nat)
  | runEnd (depth : Nat)
  | compiledSource (size : Nat)
  | wroteProgram (path : String) (bytes : Nat)
  /-- A value was given for a field that a compiled program does not have. -/
  | unusedField (name : String)
deriving DecidableEq, Inhabited

namespace Event

def level : Event → Level
  | undeclaredRead _ | unknownCall _ | unusedField _ => .warn
  | wroteProgram _ _ => .info
  | executed _ _ _ | returned _ _ => .trace
  | _ => .debug

def origin : Event → Origin
  | undeclaredRead _ | unknownCall _ | compiledConditional _ _ | compiledChunk _ _ => .compiler
  | runStart _ _ | executed _ _ _ | returned _ _ | runEnd _ => .machine
  | compiledSource _ | wroteProgram _ _ | unusedField _ => .command

/-- A number that may be missing. -/
def topText : Option Single → String
  | none => "None"
  | some x => "Some(" ++ x.tagged ++ ")"

/-- What happened. -/
def text : Event → String
  | undeclaredRead name => "read of undeclared field, using 0 name=" ++ Text.quoted name
  | unknownCall name => "unknown function, using 0 name=" ++ Text.quoted name
  | compiledConditional bodyStart stop =>
    "compiled conditional body_start=" ++ toString bodyStart ++ " end=" ++ toString stop
  | compiledChunk size fields =>
    "compiled function size=" ++ toString size ++ " locals=" ++ toString fields
  | runStart size fields => "run start size=" ++ toString size ++ " locals=" ++ toString fields
  | executed i depth top =>
    "at=" ++ toString i.offset ++ " op=" ++ Text.quoted i.opcode.mnemonic
      ++ " operand=" ++ Operand.outline? i.operand
      ++ " depth=" ++ toString depth ++ " top=" ++ topText top
  | returned offset depth =>
    "at=" ++ toString offset ++ " op=" ++ Text.quoted Opcode.ret.mnemonic
      ++ " depth=" ++ toString depth
  | runEnd depth => "run end depth=" ++ toString depth
  | compiledSource size => "compiled source size=" ++ toString size
  | wroteProgram path bytes =>
    "wrote compiled program path=" ++ path ++ " bytes=" ++ toString bytes
  | unusedField name => "field not used by compiled program, ignored name=" ++ Text.quoted name

/-- The line of an event in the log. -/
def line (e : Event) : String := e.level.name ++ " " ++ e.origin.name ++ ": " ++ e.text

/-- The lines of the events up to a level. -/
def lines (level : Level) (events : List Event) : List String :=
  (events.filter fun e => e.level.rank ≤ level.rank).map line

end Event
end FieldScript
