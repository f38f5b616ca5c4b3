/-
# Artifacts

An artifact is a chunk as bytes: the code, the values of the fields, and their
names.  Each part is its number of items and then the items.

| item | bytes |
| --- | --- |
| count, length | base 128, lowest digit first, the top bit set on all bytes but the last |
| byte of code | itself |
| value | its four bytes, lowest first |
| name | length in bytes, then its UTF-8 |

A count has at most ten bytes, and the tenth is 0 or 1, so it is below `2^64`;
it need not be written in the shortest way.  What follows the last name is
ignored.
-/

import FieldScript.Chunk

namespace FieldScript

/-- Why bytes are no artifact. -/
inductive ArtifactError where
  | endOfBytes
  /-- A count that does not end within ten bytes. -/
  | badCount
  /-- A name that is no UTF-8. -/
  | badText
  | fieldMismatch (values names : Nat)
deriving DecidableEq, Inhabited

namespace ArtifactError

/-- What is wrong with the bytes themselves, if that is the reason. -/
def cause? : ArtifactError → Option String
  | endOfBytes => some "Hit the end of buffer, expected more data"
  | badCount =>
    some "Found a varint that didn't terminate. Is the usize too big for this platform?"
  | badText => some "Tried to parse invalid utf-8"
  | fieldMismatch _ _ => none

def message : ArtifactError → String
  | fieldMismatch values names =>
    "artifact has " ++ toString values ++ " local values but " ++ toString names ++ " local names"
  | e => "bytecode (de)serialisation failed: " ++ e.cause?.getD ""

end ArtifactError

namespace Artifact

/-- A count in base 128. -/
def countBytes (n : Nat) : List UInt8 :=
  if n < 128 then [UInt8.ofNat n] else UInt8.ofNat (n % 128 + 128) :: countBytes (n / 128)
termination_by n
decreasing_by omega

/-- The value of a field. -/
def valueBytes (f : Field) : List UInt8 := Word.bytes f.value.bits

/-- The name of a field. -/
def nameBytes (f : Field) : List UInt8 :=
  let utf8 := f.name.toUTF8.toList
  countBytes utf8.length ++ utf8

/-- A reader takes a value off the front of the bytes. -/
abbrev Reader := StateT (List UInt8) (Except ArtifactError)

/-- One byte. -/
def byte : Reader UInt8 := fun bytes =>
  match bytes with
  | b :: rest => .ok (b, rest)
  | [] => .error .endOfBytes

/-- One word. -/
def word : Reader UInt32 := fun bytes =>
  match Word.read? bytes with
  | some result => .ok result
  | none => .error .endOfBytes

/-- The digits of a count behind the first `k`. -/
def countFrom (k : Nat) : Reader Nat := do
  let b ← byte
  if b.toNat < 128 then
    if k = 9 ∧ 1 < b.toNat then throw .badCount
    return b.toNat
  else if k < 9 then
    return b.toNat - 128 + 128 * (← countFrom (k + 1))
  else throw .badCount
termination_by 10 - k

/-- A count. -/
def count : Reader Nat := countFrom 0

/-- `n` items. -/
def times {α : Type} (item : Reader α) : Nat → Reader (List α)
  | 0 => return []
  | n + 1 => do
    let first ← item
    let rest ← times item n
    return first :: rest

/-- A count and as many items. -/
def counted {α : Type} (item : Reader α) : Reader (List α) := do
  times item (← count)

/-- A name: a length, and as many bytes of UTF-8. -/
def name : Reader String := do
  let length ← count
  let bytes ← get
  if bytes.length < length then throw .endOfBytes
  set (bytes.drop length)
  match String.fromUTF8? (bytes.take length).toByteArray with
  | some s => return s
  | none => throw .badText

end Artifact

namespace Chunk

/-- The chunk as bytes. -/
def toBytes (c : Chunk) : List UInt8 :=
  let fields := c.fields.toList
  Artifact.countBytes c.size ++ c.code.toList
    ++ Artifact.countBytes fields.length ++ fields.flatMap Artifact.valueBytes
    ++ Artifact.countBytes fields.length ++ fields.flatMap Artifact.nameBytes

/-- Reads a chunk off the front of the bytes. -/
def reader : Artifact.Reader Chunk := do
  let code ← Artifact.counted Artifact.byte
  let values ← Artifact.counted Artifact.word
  let names ← Artifact.counted Artifact.name
  if values.length ≠ names.length then
    throw (.fieldMismatch values.length names.length)
  return ⟨code.toArray, (List.zipWith (fun name bits => ⟨name, ⟨bits⟩⟩) names values).toArray⟩

/-- The chunk that bytes start with. -/
def ofBytes (bytes : List UInt8) : Except ArtifactError Chunk := (reader.run bytes).map (·.1)

end Chunk
end FieldScript
