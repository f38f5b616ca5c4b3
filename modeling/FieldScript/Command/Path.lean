/-
# Paths

A path is a row of steps with slashes between them, taken from the working
directory or, behind a leading slash, from the root.  The step `.` stays, `..`
goes to the parent, and any other step is a name.  Slashes that follow one
another count once, and slashes at the end ask for a directory.

| path | destination |
| --- | --- |
| `a`, `./a` | the name `a` in the working directory |
| `a/` | the name `a`, as a directory |
| `..`, `/`, `./` | a directory |
| `a/b`, `a/.`, `a/../b` | something beyond the name `a` |
-/

namespace FieldScript

/-- A directory that a path can reach without a name. -/
inductive Place where
  /-- So many parents above the working directory. -/
  | above (levels : Nat)
  | root
deriving DecidableEq, Inhabited

namespace Place

def working : Place := above 0

/-- The parent of a directory; the root is its own. -/
def parent : Place → Place
  | above levels => above (levels + 1)
  | root => root

end Place

/-- A name in a directory. -/
structure Entry where
  place : Place
  name : String
deriving DecidableEq, Inhabited

/-- Where a path leads, as far as its text tells. -/
inductive Destination where
  | directory (place : Place)
  | entry (entry : Entry)
  /-- A name with slashes behind it. -/
  | entryAsDirectory (entry : Entry)
  /-- Something beyond a name. -/
  | beyond (entry : Entry)
deriving DecidableEq, Inhabited

namespace Path

/-- The steps of a path. -/
def steps (path : String) : List String :=
  ((path.toList.splitOn '/').filter (· ≠ [])).map String.ofList

/-- Takes steps from a directory up to the first name. -/
def walk (slashed : Bool) (place : Place) : List String → Destination
  | [] => .directory place
  | "." :: rest => walk slashed place rest
  | ".." :: rest => walk slashed place.parent rest
  | [name] => if slashed then .entryAsDirectory ⟨place, name⟩ else .entry ⟨place, name⟩
  | name :: _ :: _ => .beyond ⟨place, name⟩

/-- Where a path leads. -/
def destination (path : String) : Destination :=
  walk (path.endsWith "/") (if path.startsWith "/" then .root else .working) (steps path)

/-- The extension of the file that a path names: what follows the last point of
its name, unless the name starts with that point. -/
def extension? (path : String) : Option String :=
  match ((steps path).filter (· ≠ ".")).getLast? with
  | none => none
  | some name =>
    if name = ".." then none
    else
      let reversed := name.toList.reverse
      let stem := (reversed.dropWhile (· ≠ '.')).tail
      if stem.isEmpty then none
      else some (String.ofList (reversed.takeWhile (· ≠ '.')).reverse)

end Path
end FieldScript
