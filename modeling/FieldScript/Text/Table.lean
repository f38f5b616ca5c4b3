/-
# Tables of character ranges

A class of characters is a list of ranges of code points, both ends included,
in ascending order.
-/

namespace FieldScript
namespace Text

/-- Whether a character lies in one of the ranges. -/
def inTable (table : List (Nat × Nat)) (c : Char) : Bool :=
  table.any fun (lo, hi) => lo ≤ c.toNat && c.toNat ≤ hi

end Text
end FieldScript
