/-!
# Words

Offsets are 64-bit words. A growth may be negative, so it is added to an offset in signed words, in
which an offset of 9223372036854775808 or more counts as negative; the place of a negative sum is
the beginning of the document. Sums that fit are exact.
-/

namespace Snippets.Word

/-- The signed word that a number wraps to. -/
def signed (n : Int) : Int := n.bmod 18446744073709551616

def unsigned (n : Nat) : Nat := n % 18446744073709551616

def offset (n : Int) : Nat := (signed n).toNat

def Fits (n : Int) : Prop := -9223372036854775808 ≤ n ∧ n < 9223372036854775808

instance (n : Int) : Decidable (Fits n) := inferInstanceAs (Decidable (_ ∧ _))

theorem signed_eq {n : Int} (h : Fits n) : signed n = n :=
  Int.bmod_eq_of_le (by have := h.1; omega) (by have := h.2; omega)

theorem offset_eq {n : Int} (h : Fits n) : offset n = n.toNat := by
  rw [offset, signed_eq h]

theorem unsigned_eq {n : Nat} (h : n < 18446744073709551616) : unsigned n = n := Nat.mod_eq_of_lt h

/-- Wrapping a term of a sum does not change what the sum wraps to. -/
theorem signed_add_signed (m n : Int) : signed (m + signed n) = signed (m + n) :=
  Int.add_bmod_bmod

end Snippets.Word
