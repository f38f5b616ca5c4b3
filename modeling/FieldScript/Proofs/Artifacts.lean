/-
# Artifacts are read back

A reader that takes items off the front of bytes composes well if two things are
known of each item: its bytes are read as the item whatever stands behind them,
and bytes that stop inside the item are found to end too early.  `Reads` holds
both.  It passes through sequencing (`Reads.bind`), because bytes that stop
inside two items in a row either stop inside the first or hold all of the first
and stop inside the second.

So it holds of counts, words and names, of counted rows of these, and of whole
chunks (`reads_toBytes`).  A count has ten bytes at most, which bounds what can be
written: a chunk has to be `Writable`, with fewer than `2^64` bytes of code,
fields and bytes in each name.  The bytes of a larger chunk cannot be read, but
they are never read as another one (`eq_of_ofBytes_toBytes`).
-/

import FieldScript.Chunk.Artifact
import Mathlib.Algebra.Group.Nat.Defs

namespace FieldScript
namespace Artifact

/-- A reader reads some bytes as a value: it takes them off the front of any
bytes, and it finds that every strict prefix of them ends too early. -/
structure Reads {α : Type} (r : Reader α) (bytes : List UInt8) (a : α) : Prop where
  whole : ∀ tail, r (bytes ++ tail) = .ok (a, tail)
  cut : ∀ start, start <+: bytes → start ≠ bytes → r start = .error .endOfBytes

/-! ### Readers one after the other -/

section Rules

variable {α β : Type} {x : Reader α} {f : α → Reader β} {a : α} {b : β}
  {bytes front tail : List UInt8}

theorem bind_of_ok (h : x bytes = .ok (a, tail)) : (x >>= f) bytes = f a tail := by
  show (x bytes >>= fun p => f p.1 p.2) = f a tail
  rw [h]
  rfl

theorem bind_of_error {e : ArtifactError} (h : x bytes = .error e) : (x >>= f) bytes = .error e := by
  show (x bytes >>= fun p => f p.1 p.2) = .error e
  rw [h]
  rfl

namespace Reads

theorem pure (a : α) : Reads (Pure.pure a) [] a where
  whole _ := rfl
  cut _ hstart hne := absurd (List.prefix_nil.1 hstart) hne

/-- **Two items in a row.** -/
theorem bind (hx : Reads x front a) (hf : Reads (f a) bytes b) :
    Reads (x >>= f) (front ++ bytes) b where
  whole tail := by
    rw [List.append_assoc, bind_of_ok (hx.whole (bytes ++ tail)), hf.whole]
  cut start hstart hne := by
    by_cases hfront : front <+: start
    · -- All of the first item is there, so the bytes stop inside the second.
      obtain ⟨start, rfl⟩ := hfront
      rw [bind_of_ok (hx.whole start)]
      exact hf.cut start ((List.prefix_append_right_inj front).1 hstart) fun heq => hne (heq ▸ rfl)
    · have hle : start <+: front :=
        (List.prefix_or_prefix_of_prefix hstart (List.prefix_append front bytes)).resolve_right hfront
      have hlt : start ≠ front := fun heq => hfront (heq ▸ List.prefix_refl start)
      exact bind_of_error (hx.cut start hle hlt)

/-- A value that is computed from the item. -/
theorem map (hx : Reads x bytes a) (g : α → β) : Reads (do return g (← x)) bytes (g a) := by
  have h : Reads (do return g (← x)) (bytes ++ []) (g a) := hx.bind (pure (g a))
  rwa [List.append_nil] at h

end Reads
end Rules

/-! ### Items -/

theorem reads_byte (b : UInt8) : Reads byte [b] b where
  whole _ := rfl
  cut start hstart hne := by
    rcases List.prefix_cons_iff.1 hstart with rfl | ⟨rest, rfl, hrest⟩
    · rfl
    · rw [List.prefix_nil.1 hrest] at hne
      exact absurd rfl hne

theorem reads_word (w : UInt32) : Reads word (Word.bytes w) w where
  whole tail := by rw [word, Word.read?_bytes_append]
  cut start hstart hne := by
    have hlt : start.length < 4 := by
      refine Nat.lt_of_le_of_ne hstart.length_le fun heq => hne ?_
      exact hstart.eq_of_length heq
    match start, hlt with
    | [], _ => rfl
    | [_], _ => rfl
    | [_, _], _ => rfl
    | [_, _, _], _ => rfl

/-- `k` bytes of a count are already read, and it has ten at most. -/
theorem reads_countFrom {k n : Nat} (hk : k ≤ 9) (hn : n < 2 * 128 ^ (9 - k)) :
    Reads (countFrom k) (countBytes n) n := by
  induction n using Nat.strongRecOn generalizing k with
  | ind n ih =>
    by_cases hsmall : n < 128
    · -- The last byte.
      have hbyte : (UInt8.ofNat n).toNat = n := by rw [UInt8.toNat_ofNat']; omega
      have hlast : ¬ (k = 9 ∧ 1 < n) := by
        rintro ⟨rfl, h⟩
        omega
      rw [countBytes, if_pos hsmall, countFrom]
      refine (reads_byte _).bind (?_ : Reads _ [] n)
      rw [hbyte, if_pos hsmall, if_neg hlast]
      exact .pure n
    · have hbyte : (UInt8.ofNat (n % 128 + 128)).toNat = n % 128 + 128 := by
        rw [UInt8.toNat_ofNat']; omega
      have hlt : k < 9 := by
        refine Nat.lt_of_le_of_ne hk fun heq => ?_
        rw [heq] at hn
        omega
      have hrest : n / 128 < 2 * 128 ^ (9 - (k + 1)) := by
        have hpow : 128 ^ (9 - k) = 128 * 128 ^ (9 - (k + 1)) := by
          rw [show 9 - k = 9 - (k + 1) + 1 by omega, Nat.pow_succ, Nat.mul_comm]
        omega
      have hvalue : n % 128 + 128 - 128 + 128 * (n / 128) = n := by omega
      rw [countBytes, if_neg hsmall, countFrom]
      refine (reads_byte _).bind ?_
      rw [hbyte, if_neg (by omega), if_pos hlt]
      have h := (ih (n / 128) (by omega) hlt hrest).map fun m => n % 128 + 128 - 128 + 128 * m
      rwa [hvalue] at h

theorem reads_count {n : Nat} (h : n < 2 ^ 64) : Reads count (countBytes n) n :=
  reads_countFrom (Nat.zero_le 9) h

theorem reads_times {α γ : Type} {item : Reader α} {bytes : γ → List UInt8} {value : γ → α}
    (gs : List γ) (h : ∀ g ∈ gs, Reads item (bytes g) (value g)) :
    Reads (times item gs.length) (gs.flatMap bytes) (gs.map value) := by
  induction gs with
  | nil => exact .pure []
  | cons g gs ih =>
    have hrest := ih fun g' hg' => h g' (List.mem_cons_of_mem g hg')
    exact (h g (List.mem_cons_self ..)).bind (hrest.map fun rest => value g :: rest)

theorem reads_counted {α γ : Type} {item : Reader α} {bytes : γ → List UInt8} {value : γ → α}
    (gs : List γ) (hlength : gs.length < 2 ^ 64) (h : ∀ g ∈ gs, Reads item (bytes g) (value g)) :
    Reads (counted item) (countBytes gs.length ++ gs.flatMap bytes) (gs.map value) :=
  (reads_count hlength).bind (reads_times gs h)

/-! ### Names -/

theorem toList_loop (bytes : ByteArray) (i : Nat) (r : List UInt8) :
    ByteArray.toList.loop bytes i r = r.reverse ++ bytes.data.toList.drop i := by
  fun_induction ByteArray.toList.loop bytes i r with
  | case1 i r h ih =>
    have hget : bytes.get! i = bytes.data.toList[i] := getElem!_pos bytes.data i h
    rw [ih, List.reverse_cons, List.append_assoc, List.singleton_append, hget, List.getElem_cons_drop]
  | case2 i r h =>
    have hsize : bytes.data.toList.length ≤ i := Nat.le_of_not_lt h
    rw [List.drop_of_length_le hsize, List.append_nil]

theorem toList_eq_data (bytes : ByteArray) : bytes.toList = bytes.data.toList := by
  rw [ByteArray.toList, toList_loop, List.drop_zero, List.reverse_nil, List.nil_append]

theorem fromUTF8?_utf8 (s : String) : String.fromUTF8? s.toUTF8.toList.toByteArray = some s := by
  have hbytes : s.toUTF8.toList.toByteArray = s.toByteArray := by
    rw [toList_eq_data]
    exact ByteArray.ext (by rw [List.data_toByteArray, Array.toArray_toList, String.toUTF8])
  rw [hbytes, String.fromUTF8?, dif_pos s.isValidUTF8]
  rfl

/-- A text whose bytes are all there is read; otherwise the bytes end too early. -/
theorem reads_name {f : Field} (h : f.name.utf8ByteSize < 2 ^ 64) :
    Reads name (nameBytes f) f.name := by
  have hlength : f.name.toUTF8.toList.length = f.name.utf8ByteSize := by
    rw [toList_eq_data, Array.length_toList]
    exact String.size_toByteArray
  refine (reads_count (by rw [hlength]; exact h)).bind ⟨fun tail => ?_, fun start hstart hne => ?_⟩
  · have henough : ¬ (f.name.toUTF8.toList ++ tail).length < f.name.toUTF8.toList.length := by
      rw [List.length_append]
      omega
    rw [bind_of_ok (x := get) rfl, if_neg henough]
    simp only [List.take_left, List.drop_left, fromUTF8?_utf8]
    rfl
  · have hfew : start.length < f.name.toUTF8.toList.length :=
      Nat.lt_of_le_of_ne hstart.length_le fun heq => hne (hstart.eq_of_length heq)
    rw [bind_of_ok (x := get) rfl, if_pos hfew]
    rfl

end Artifact

namespace Chunk

/-- Each count of the chunk is below `2^64`. -/
structure Writable (c : Chunk) : Prop where
  code : c.size < 2 ^ 64
  fields : c.fields.size < 2 ^ 64
  names : ∀ f ∈ c.fields, f.name.utf8ByteSize < 2 ^ 64

theorem zipWith_fields (fields : List Field) :
    List.zipWith (fun name bits => (⟨name, ⟨bits⟩⟩ : Field)) (fields.map (·.name))
      (fields.map (·.value.bits)) = fields := by
  rw [List.zipWith_map, List.zipWith_self, List.map_id']

/-- A chunk is put together from its code, its names and its values. -/
theorem eq_of_parts (c : Chunk) :
    (⟨c.code.toList.toArray, (List.zipWith (fun name bits => (⟨name, ⟨bits⟩⟩ : Field))
      (c.fields.toList.map (·.name)) (c.fields.toList.map (·.value.bits))).toArray⟩ : Chunk) = c := by
  rw [zipWith_fields, Array.toArray_toList, Array.toArray_toList]

open Artifact in
/-- The bytes of a chunk as three counted rows. -/
theorem toBytes_eq (c : Chunk) :
    c.toBytes = countBytes c.size ++ c.code.toList ++
      (countBytes c.fields.toList.length ++ c.fields.toList.flatMap valueBytes ++
        (countBytes c.fields.toList.length ++ c.fields.toList.flatMap nameBytes ++ [])) := by
  simp only [toBytes, List.append_assoc, List.append_nil]

open Artifact in
theorem reads_toBytes {c : Chunk} (h : c.Writable) : Reads reader c.toBytes c := by
  have hcode : Reads (counted byte) (countBytes c.size ++ c.code.toList) c.code.toList := by
    have hbytes := reads_counted c.code.toList h.code fun b _ => reads_byte b
    rwa [List.flatMap_singleton', List.map_id'] at hbytes
  have hvalues : Reads (counted word)
      (countBytes c.fields.toList.length ++ c.fields.toList.flatMap valueBytes)
      (c.fields.toList.map (·.value.bits)) :=
    reads_counted _ h.fields fun f _ => reads_word f.value.bits
  have hnames := reads_counted c.fields.toList h.fields fun f hf =>
    reads_name (h.names f (Array.mem_def.2 hf))
  rw [c.toBytes_eq, reader]
  refine hcode.bind (hvalues.bind (hnames.bind ?_))
  -- There are as many names as values.
  rw [if_neg (by rw [List.length_map, List.length_map]; exact fun h => h rfl), c.eq_of_parts]
  exact .pure c

theorem ofBytes_append {c : Chunk} (h : c.Writable) (tail : List UInt8) :
    ofBytes (c.toBytes ++ tail) = .ok c := by
  rw [ofBytes, StateT.run, (reads_toBytes h).whole]
  rfl

/-- **An artifact is read back.**  The bytes of a chunk, and whatever may stand
behind them, are read as the chunk itself; a strict prefix of them is found to
end too early, wherever it stops. -/
theorem ofBytes_toBytes {c : Chunk} (h : c.Writable) :
    (∀ tail, ofBytes (c.toBytes ++ tail) = .ok c) ∧
      ∀ start, start <+: c.toBytes → start ≠ c.toBytes → ofBytes start = .error .endOfBytes := by
  refine ⟨ofBytes_append h, fun start hstart hne => ?_⟩
  rw [ofBytes, StateT.run, (reads_toBytes h).cut start hstart hne]
  rfl

/-- A chunk with a name of 128 bytes, so that its length has two, a NaN with a
payload, and a code byte that is no opcode. -/
def longName : Chunk :=
  ⟨#[0xff], #[⟨String.ofList (List.replicate 128 'n'), ⟨0xff812345⟩⟩, ⟨"é", Single.one⟩]⟩

theorem ofBytes_toBytes_longName :
    longName.Writable ∧ longName.toBytes.length = 145 ∧
      ofBytes (longName.toBytes ++ [1, 2, 3]) = .ok longName ∧
      ofBytes (longName.toBytes.take 13) = .error .endOfBytes := by
  have hwritable : longName.Writable := ⟨by decide, by decide, by decide +kernel⟩
  have hlength : longName.toBytes.length = 145 := by decide +kernel
  obtain ⟨hwhole, hcut⟩ := ofBytes_toBytes hwritable
  refine ⟨hwritable, hlength, hwhole [1, 2, 3], hcut _ (List.take_prefix ..) fun heq => ?_⟩
  have := congrArg List.length heq
  rw [List.length_take, hlength] at this
  omega

end Chunk

/-! ### Chunks of any size -/

namespace Artifact

/-- If a reader succeeds on some bytes, whatever stands behind them, it reads them
as a value. -/
def Trusts {α : Type} (r : Reader α) (bytes : List UInt8) (a : α) : Prop :=
  ∀ tail result, r (bytes ++ tail) = .ok result → result = (a, tail)

namespace Trusts

variable {α β : Type} {x : Reader α} {f : α → Reader β} {a : α} {b : β} {bytes front : List UInt8}

theorem of_reads (h : Reads x bytes a) : Trusts x bytes a := by
  intro tail result hok
  rw [h.whole] at hok
  cases hok
  rfl

theorem throw (e : ArtifactError) : Trusts (MonadExcept.throw e) bytes a := by
  rintro tail result ⟨⟩

theorem bind (hx : Trusts x front a) (hf : Trusts (f a) bytes b) :
    Trusts (x >>= f) (front ++ bytes) b := by
  intro tail result hok
  rw [List.append_assoc] at hok
  cases h : x (front ++ (bytes ++ tail)) with
  | error e =>
    rw [bind_of_error h] at hok
    cases hok
  | ok p =>
    obtain rfl := hx _ _ h
    rw [bind_of_ok h] at hok
    exact hf tail result hok

theorem map (hx : Trusts x bytes a) (g : α → β) : Trusts (do return g (← x)) bytes (g a) := by
  have h : Trusts (do return g (← x)) (bytes ++ []) (g a) := hx.bind (of_reads (.pure (g a)))
  rwa [List.append_nil] at h

theorem countFrom (k n : Nat) : Trusts (countFrom k) (countBytes n) n := by
  induction n using Nat.strongRecOn generalizing k with
  | ind n ih =>
    rw [countBytes, Artifact.countFrom]
    by_cases hsmall : n < 128
    · have hbyte : (UInt8.ofNat n).toNat = n := by rw [UInt8.toNat_ofNat']; omega
      rw [if_pos hsmall]
      refine (of_reads (reads_byte _)).bind (?_ : Trusts _ [] n)
      rw [hbyte, if_pos hsmall]
      split
      · exact throw _
      · exact of_reads (.pure n)
    · have hbyte : (UInt8.ofNat (n % 128 + 128)).toNat = n % 128 + 128 := by
        rw [UInt8.toNat_ofNat']; omega
      have hvalue : n % 128 + 128 - 128 + 128 * (n / 128) = n := by omega
      rw [if_neg hsmall]
      refine (of_reads (reads_byte _)).bind ?_
      rw [hbyte, if_neg (by omega)]
      split
      · have h := (ih (n / 128) (by omega) (k + 1)).map fun m => n % 128 + 128 - 128 + 128 * m
        rwa [hvalue] at h
      · exact throw _

theorem counted {γ : Type} {item : Reader α} {bytes : γ → List UInt8} {value : γ → α}
    (gs : List γ) (h : ∀ g, Trusts item (bytes g) (value g)) :
    Trusts (counted item) (countBytes gs.length ++ gs.flatMap bytes) (gs.map value) := by
  refine (countFrom 0 gs.length).bind ?_
  induction gs with
  | nil => exact of_reads (.pure [])
  | cons g gs ih => exact (h g).bind (ih.map fun rest => value g :: rest)

theorem name (f : Field) : Trusts name (nameBytes f) f.name := by
  refine (countFrom 0 _).bind fun tail result hok => ?_
  have henough : ¬ (f.name.toUTF8.toList ++ tail).length < f.name.toUTF8.toList.length := by
    rw [List.length_append]
    omega
  rw [bind_of_ok (x := get) rfl, if_neg henough] at hok
  simp only [List.take_left, List.drop_left, fromUTF8?_utf8] at hok
  cases hok
  rfl

end Trusts
end Artifact

namespace Chunk

open Artifact in
/-- What is read back from the bytes of a chunk, if anything, is the chunk, however
large it is. -/
theorem eq_of_ofBytes_toBytes {c d : Chunk} (h : ofBytes c.toBytes = .ok d) : d = c := by
  have hcode : Trusts (counted byte) (countBytes c.size ++ c.code.toList) c.code.toList := by
    have hbytes := Trusts.counted c.code.toList fun b => .of_reads (reads_byte b)
    rwa [List.flatMap_singleton', List.map_id'] at hbytes
  have hvalues : Trusts (counted word)
      (countBytes c.fields.toList.length ++ c.fields.toList.flatMap valueBytes)
      (c.fields.toList.map (·.value.bits)) :=
    .counted _ fun f => .of_reads (reads_word f.value.bits)
  have hreader : Trusts reader c.toBytes c := by
    rw [c.toBytes_eq, reader]
    refine hcode.bind (hvalues.bind ((Trusts.counted c.fields.toList .name).bind ?_))
    rw [if_neg (by rw [List.length_map, List.length_map]; exact fun h => h rfl), c.eq_of_parts]
    exact .of_reads (.pure c)
  rw [ofBytes, StateT.run, ← List.append_nil c.toBytes] at h
  cases hread : reader (c.toBytes ++ []) with
  | error e =>
    rw [hread] at h
    cases h
  | ok p =>
    rw [hread, hreader [] p hread] at h
    cases h
    rfl

end Chunk
end FieldScript
