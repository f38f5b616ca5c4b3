/-
# Error reports

A report says what failed and, under it, the causes from the outermost to the
innermost.  A single cause is indented; several are numbered from zero.
-/

import FieldScript.Chunk.Artifact
import FieldScript.Chunk.Verifier
import FieldScript.Command.Disk
import FieldScript.Compiler.Emitter
import FieldScript.Expr.Parser

namespace FieldScript

structure Report where
  message : String
  causes : List String
deriving DecidableEq, Inhabited

namespace Report

/-- The lines of a text, the first behind `lead` and the others behind as many
spaces. -/
def hang (lead text : String) : String :=
  ("\n" ++ String.ofList (List.replicate lead.length ' ')).intercalate
    ((lead ++ text).splitOn "\n")

/-- A cause with its number. -/
def numbered (cause : String) (n : Nat) : String :=
  hang (Text.padLeft ' ' 5 (toString n) ++ ": ") cause

/-- The report as text. -/
def text (r : Report) : String :=
  "Error: " ++ r.message ++ match r.causes with
  | [] => ""
  | [cause] => "\n\nCaused by:\n" ++ hang "    " cause
  | causes =>
    "\n\nCaused by:\n" ++ "\n".intercalate (causes.zipIdx.map fun (cause, n) => numbered cause n)

def ofLex (e : LexError) : Report := ⟨e.message, []⟩

def ofSource (e : SourceError) : Report := ⟨e.message, [e.cause]⟩

def ofCompile (e : CompileError) : Report := ⟨e.message, []⟩

def ofDecode (e : DecodeError) : Report := ⟨e.message, []⟩

/-- A chunk that must not be run. -/
def ofVerify (e : VerifyError) : Report :=
  ⟨"refusing to run invalid bytecode", e.message :: match e with
    | .decode inner => [inner.message]
    | _ => []⟩

/-- A file that is no artifact. -/
def ofArtifact (path : String) (e : ArtifactError) : Report :=
  ⟨"'" ++ path ++ "' is not a compiled Glint program", e.message :: e.cause?.toList⟩

def unreadable (path : String) (e : FileError) : Report :=
  ⟨"failed to read '" ++ path ++ "'", [e.message]⟩

def unwritable (path : String) (e : FileError) : Report :=
  ⟨"failed to write '" ++ path ++ "'", [e.message]⟩

/-- A file that is neither source nor artifact by its name. -/
def unknownKind (path : String) : Report :=
  ⟨"expected a .glint or .glintc file, got '" ++ path ++ "'", []⟩

end Report
end FieldScript
