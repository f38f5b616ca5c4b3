/-
# Files

The command line reads and writes files through a `Disk`, in whatever monad the
files live.  `Files` is a disk in memory: the files of the working directory, of
its parents and of the root, which hold no other directories.

A path is looked up from the left, and what comes first decides:

| destination | to read | to write |
| --- | --- | --- |
| a directory | is a directory | is a directory |
| a file | its content | written over |
| a free name | not found | a new file |
| a file, as a directory | not a directory | is a directory |
| a free name, as a directory | not found | is a directory |
| beyond a file | not a directory | not a directory |
| beyond a free name | not found | not found |
-/

import FieldScript.Command.Path

namespace FieldScript

/-- Why a file cannot be read or written. -/
inductive FileError where
  | notFound
  | denied
  | notADirectory
  | isADirectory
  | nameTooLong
  | notText
  | other (reason : String)
deriving DecidableEq, Inhabited

def FileError.message : FileError → String
  | notFound => "No such file or directory (os error 2)"
  | denied => "Permission denied (os error 13)"
  | notADirectory => "Not a directory (os error 20)"
  | isADirectory => "Is a directory (os error 21)"
  | nameTooLong => "File name too long (os error 36)"
  | notText => "stream did not contain valid UTF-8"
  | other reason => reason

/-- Access to files by their paths. -/
structure Disk (m : Type → Type) where
  read : String → m (Except FileError (List UInt8))
  write : String → List UInt8 → m (Except FileError Unit)

/-- Files by their entries. -/
structure Files where
  files : List (Entry × List UInt8)
deriving DecidableEq, Inhabited

namespace Files

def empty : Files := ⟨[]⟩

/-- The content of a file. -/
def get? (fs : Files) (e : Entry) : Option (List UInt8) :=
  (fs.files.find? (·.1 = e)).map (·.2)

/-- The files with one written over or added at the end. -/
def put (fs : Files) (e : Entry) (content : List UInt8) : Files :=
  if (fs.get? e).isSome then
    ⟨fs.files.map fun f => if f.1 = e then (e, content) else f⟩
  else ⟨fs.files ++ [(e, content)]⟩

/-- The files with one in the working directory. -/
def putHere (fs : Files) (name : String) (content : List UInt8) : Files :=
  fs.put ⟨.working, name⟩ content

/-- The names and contents of the files in the working directory. -/
def here (fs : Files) : List (String × List UInt8) :=
  (fs.files.filter (·.1.place = .working)).map fun f => (f.1.name, f.2)

/-- The largest size of a name, in bytes. -/
def maxName : Nat := 255

/-- The largest size of a path, in bytes. -/
def maxPath : Nat := 4095

/-- Where a path leads that is neither empty nor too long. -/
def resolve (path : String) : Except FileError Destination :=
  if path.isEmpty then .error .notFound
  else if maxPath < path.utf8ByteSize then .error .nameTooLong
  else .ok (Path.destination path)

/-- The content of the file at an entry, if there is one. -/
def lookup (fs : Files) (e : Entry) : Except FileError (Option (List UInt8)) :=
  if maxName < e.name.utf8ByteSize then .error .nameTooLong else .ok (fs.get? e)

/-- The fault of a path that goes on from an entry. -/
def pastEntry (fs : Files) (e : Entry) : FileError :=
  match fs.lookup e with
  | .error fault => fault
  | .ok none => .notFound
  | .ok (some _) => .notADirectory

def read (fs : Files) (path : String) : Except FileError (List UInt8) := do
  match (← resolve path) with
  | .directory _ => throw .isADirectory
  | .entryAsDirectory e => throw (fs.pastEntry e)
  | .beyond e => throw (fs.pastEntry e)
  | .entry e =>
    match (← fs.lookup e) with
    | some content => return content
    | none => throw .notFound

def write (fs : Files) (path : String) (content : List UInt8) : Except FileError Files := do
  match (← resolve path) with
  | .directory _ => throw .isADirectory
  | .entryAsDirectory _ => throw .isADirectory
  | .beyond e => throw (fs.pastEntry e)
  | .entry e =>
    let _ ← fs.lookup e
    return fs.put e content

/-- The disk whose files are the state. -/
def disk : Disk (StateM Files) where
  read path := do return (← get).read path
  write path content := do
    match (← get).write path content with
    | .ok fs =>
      set fs
      return .ok ()
    | .error e => return .error e

end Files
end FieldScript
