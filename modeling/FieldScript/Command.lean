/-
# The command line

One call reads a program, as source or as an artifact, and does one of four
things with it: list its tokens, outline its tree, write its artifact, or run
it.  `perform` is what happens once the file is read, `run` the whole call.

| outcome | exit code |
| --- | ---: |
| the call did what was asked, or showed help or version | 0 |
| the program could not be read, compiled, written or run | 1 |
| the arguments were refused | 2 |
-/

import FieldScript.Chunk.Listing
import FieldScript.Command.Arguments
import FieldScript.Command.Report
import FieldScript.Compiler
import FieldScript.Expr.Outline
import FieldScript.Machine
import FieldScript.Token.Listing

namespace FieldScript
namespace Command

/-- What a file holds, by the extension of its name. -/
inductive FileKind where
  | source | compiled
deriving DecidableEq, Inhabited

def FileKind.of? (path : String) : Option FileKind :=
  match Path.extension? path with
  | some "glint" => some .source
  | some "glintc" => some .compiled
  | _ => none

/-- What is left to do after a program was looked at. -/
inductive Finish where
  | done
  | failed (report : Report)
  | write (path : String) (content : List UInt8)
deriving DecidableEq, Inhabited

/-- What looking at a program gives: printed text, events, and what is left. -/
structure Performance where
  stdout : String
  log : List Event
  finish : Finish
deriving DecidableEq, Inhabited

namespace Performance

def printed (stdout : String) (log : List Event) : Performance := ⟨stdout, log, .done⟩

def failed (stdout : String) (log : List Event) (report : Report) : Performance :=
  ⟨stdout, log, .failed report⟩

end Performance

/-- Runs a chunk and summarises it; `stdout` is what is printed already. -/
def runChunk (inv : Invocation) (c : Chunk) (stdout : String) (log : List Event) :
    Performance :=
  let machine := Machine.ofSeed (inv.seed.getD Machine.defaultSeed)
  match machine.runChecked c with
  | .error e => .failed stdout log (.ofVerify e)
  | .ok run => .printed (stdout ++ run.chunk.summary) (log ++ run.log)

/-- Writes or runs a chunk, listed first if asked for. -/
def useChunk (inv : Invocation) (c : Chunk) (log : List Event) : Performance :=
  match inv.emit with
  | some path => ⟨"", log, .write path c.toBytes⟩
  | none =>
    if inv.listing then
      match c.listing with
      | .error e => .failed "" log (.ofDecode e)
      | .ok text => runChunk inv c text log
    else runChunk inv c "" log

/-- The chunk before compiling: fields for all values that are set. -/
def seededChunk (set : List (String × Single)) : Chunk :=
  set.foldl (fun c (name, x) => c.assign name x) Chunk.empty

/-- Sets fields of a chunk that is compiled already; names that it does not have
are reported. -/
def setFields (c : Chunk) : List (String × Single) → Chunk × List Event
  | [] => (c, [])
  | (name, x) :: rest =>
    match c.slot? name with
    | some slot => setFields (c.setValue slot x) rest
    | none =>
      let (c, log) := setFields c rest
      (c, .unusedField name :: log)

/-- Lists the tokens of a source. -/
def listTokens (inv : Invocation) (source : String) : Performance :=
  match Token.scan source with
  | .error e => .failed "" [] (.ofLex e)
  | .ok tokens => .printed (Token.listing ⟨!inv.noColor, inv.pretty⟩ tokens) []

/-- Parses a source, and outlines or compiles it. -/
def useSource (inv : Invocation) (source : String) : Performance :=
  match Expr.ofSource source with
  | .error e => .failed "" [] (.ofSource e)
  | .ok program =>
    if inv.ast then .printed (program.outline.indented 0 ++ "\n") []
    else
      let compiled := program.compileInto (seededChunk inv.set)
      match compiled.result with
      | .error e => .failed "" compiled.log (.ofCompile e)
      | .ok c => useChunk inv c (compiled.log ++ [.compiledSource c.size])

/-- What a call does once its file is read. -/
def perform (inv : Invocation) (kind : FileKind) (content : List UInt8) : Performance :=
  match kind with
  | .source =>
    match String.fromUTF8? content.toByteArray with
    | none => .failed "" [] (.unreadable inv.file .notText)
    | some source => if inv.tokens then listTokens inv source else useSource inv source
  | .compiled =>
    match Chunk.ofBytes content with
    | .error e => .failed "" [] (.ofArtifact inv.file e)
    | .ok c =>
      let (c, log) := setFields c inv.set
      useChunk inv c log

/-- What a call leaves behind, its files apart. -/
structure Outcome where
  exitCode : Nat
  stdout : String
  /-- The report on standard error, without the log. -/
  stderr : String
  /-- The lines of the log. -/
  log : List String
deriving DecidableEq, Inhabited

/-- The outcome of a call whose file was looked at. -/
def Outcome.of (inv : Invocation) (stdout : String) (log : List Event) (failure : Option Report) :
    Outcome :=
  ⟨if failure.isSome then 1 else 0, stdout, (failure.map Report.text).getD "",
    Event.lines inv.level log⟩

def versionText : String := "glint 0.1.0\n"

def helpText : String := "\n".intercalate
  ["Compile and run Glint expression programs",
   "",
   "Usage: glint [OPTIONS] <FILE>",
   "",
   "Arguments:",
   "  <FILE>  Program to run: `.glint` source or `.glintc` compiled bytecode",
   "",
   "Options:",
   "      --tokens            Print the token stream and exit",
   "      --no-color          Disable ANSI colors in --tokens output",
   "      --pretty            Print tokens as source text instead of Debug form",
   "      --ast               Print the parsed tree and exit",
   "      --bc                Print the disassembly before running",
   "      --emit <PATH>       Write the compiled program to PATH and exit",
   "      --seed <SEED>       Seed for `rand`",
   "      --set <NAME=VALUE>  Set a field before running (repeatable)",
   "  -v, --verbose...        More logging: -v for debug, -vv for trace",
   "  -h, --help              Print help",
   "  -V, --version           Print version",
   ""]

/-- The first line of a text. -/
def firstLine (s : String) : String := String.ofList (s.toList.takeWhile (· ≠ '\n'))

/-- The outcome of a call whose arguments leave nothing to run. -/
def Outcome.ofRefusal : Refusal → Outcome
  | .usage e => ⟨2, "", firstLine ("error: " ++ e.message), []⟩
  | .help => ⟨0, helpText, "", []⟩
  | .version => ⟨0, versionText, "", []⟩

/-- Does what an invocation asks for. -/
def runInvocation {m : Type → Type} [Monad m] (disk : Disk m) (inv : Invocation) : m Outcome := do
  match FileKind.of? inv.file with
  | none => return .of inv "" [] (some (.unknownKind inv.file))
  | some kind =>
    match (← disk.read inv.file) with
    | .error e => return .of inv "" [] (some (.unreadable inv.file e))
    | .ok content =>
      let p := perform inv kind content
      match p.finish with
      | .done => return .of inv p.stdout p.log none
      | .failed report => return .of inv p.stdout p.log (some report)
      | .write path bytes =>
        match (← disk.write path bytes) with
        | .ok _ => return .of inv p.stdout (p.log ++ [.wroteProgram path bytes.length]) none
        | .error e => return .of inv p.stdout p.log (some (.unwritable path e))

/-- One call of the command line. -/
def run {m : Type → Type} [Monad m] (disk : Disk m) (arguments : List String) : m Outcome :=
  match Invocation.ofArguments arguments with
  | .error refusal => return .ofRefusal refusal
  | .ok inv => runInvocation disk inv

end Command
end FieldScript
