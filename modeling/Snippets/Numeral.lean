import Snippets.Text

/-!
# Numerals

Numbers written with digits, the most significant digit first.
-/

namespace Snippets

def digit? (base : Nat) (c : Char) : Option Nat :=
  let value :=
    if c.isDigit then c.toNat - '0'.toNat
    else if 'a' ≤ c ∧ c ≤ 'z' then c.toNat - 'a'.toNat + 10
    else if 'A' ≤ c ∧ c ≤ 'Z' then c.toNat - 'A'.toNat + 10
    else base
  if value < base then some value else none

def numeral? (base : Nat) (digits : Text) : Option Nat :=
  digits.foldlM (fun n c => (digit? base c).map (base * n + ·)) 0

def numeral (digits : Text) : Nat := digits.foldl (fun n c => 10 * n + (c.toNat - '0'.toNat)) 0

end Snippets
