/-
# Words as bytes

Operands and field values are 32-bit words, written as four bytes with the
lowest first.
-/

namespace FieldScript
namespace Word

/-- The four bytes of a word, lowest first. -/
def bytes (w : UInt32) : List UInt8 :=
  let n := w.toNat
  [UInt8.ofNat n, UInt8.ofNat (n / 0x100), UInt8.ofNat (n / 0x10000), UInt8.ofNat (n / 0x1000000)]

/-- The word of four bytes, lowest first. -/
def ofBytes (a b c d : UInt8) : UInt32 :=
  UInt32.ofNat (a.toNat + 0x100 * b.toNat + 0x10000 * c.toNat + 0x1000000 * d.toNat)

/-- Reads a word off the front. -/
def read? : List UInt8 → Option (UInt32 × List UInt8)
  | a :: b :: c :: d :: rest => some (ofBytes a b c d, rest)
  | _ => none

@[simp] theorem length_bytes (w : UInt32) : (bytes w).length = 4 := rfl

/-- **Four bytes hold a word.** -/
theorem read?_bytes_append (w : UInt32) (rest : List UInt8) :
    read? (bytes w ++ rest) = some (w, rest) := by
  have hw := w.toNat_lt
  simp only [bytes, read?, List.cons_append, List.nil_append, ofBytes, UInt8.toNat_ofNat',
    Option.some.injEq, Prod.mk.injEq, and_true]
  apply UInt32.toNat_inj.1
  simp only [UInt32.toNat_ofNat']
  omega

/-- **Only the word's own bytes read as the word.** -/
theorem bytes_ofBytes (a b c d : UInt8) : bytes (ofBytes a b c d) = [a, b, c, d] := by
  have ha := a.toNat_lt
  have hb := b.toNat_lt
  have hc := c.toNat_lt
  have hd := d.toNat_lt
  simp only [bytes, ofBytes, UInt32.toNat_ofNat', List.cons.injEq, and_true]
  refine ⟨?_, ?_, ?_, ?_⟩ <;>
    · apply UInt8.toNat_inj.1
      simp only [UInt8.toNat_ofNat']
      omega

end Word
end FieldScript
