import Mathlib.Data.Char
import Mathlib.Data.List.Lex
import Snippets.Text

/-!
# The order of names

Names are compared character by character. Main statement: this is the order of their bytes in
UTF-8.
-/

namespace Snippets

open String (utf8EncodeChar)

namespace Byte

variable {a b : Nat} (ha : a < 256) (hb : b < 256)

include ha hb

theorem ofNat_lt_ofNat : UInt8.ofNat a < UInt8.ofNat b ↔ a < b := by
  rw [UInt8.lt_iff_toNat_lt, UInt8.toNat_ofNat', UInt8.toNat_ofNat', Nat.mod_eq_of_lt ha,
    Nat.mod_eq_of_lt hb]

theorem ofNat_inj : UInt8.ofNat a = UInt8.ofNat b ↔ a = b := by
  rw [← UInt8.toNat_inj, UInt8.toNat_ofNat', UInt8.toNat_ofNat', Nat.mod_eq_of_lt ha,
    Nat.mod_eq_of_lt hb]

end Byte

/-- The lesser number has the lesser digits in front, or the lesser last digit behind the same
ones. -/
theorem digits_lt {v w : Nat} (h : v < w) :
    v / 64 < w / 64 ∨ (v / 64 = w / 64 ∧ v % 64 < w % 64) := by
  omega

/-- The bytes of two characters differ within both, and compare like the characters. -/
theorem utf8EncodeChar_append_lt {c d : Char} (h : c < d) (x y : List UInt8) :
    utf8EncodeChar c ++ x < utf8EncodeChar d ++ y := by
  have hlt : c.val.toNat < d.val.toNat := h
  have hbound : d.val.toNat < 1114112 := by
    rcases d.valid with hlow | ⟨-, hhigh⟩
    · omega
    · exact hhigh
  generalize hv : c.val.toNat = v at hlt
  generalize hw : d.val.toNat = w at hlt hbound
  simp only [utf8EncodeChar, hv, hw]
  split_ifs
  all_goals
    simp (disch := omega) only [List.cons_append, List.nil_append, List.cons_lt_cons_iff,
      Byte.ofNat_lt_ofNat, Byte.ofNat_inj]
  any_goals omega
  -- Two characters of four bytes: the first digit in which they differ decides.
  have hdiv (n : Nat) : n / 4096 = n / 64 / 64 ∧ n / 262144 = n / 64 / 64 / 64 := by omega
  rw [(hdiv v).1, (hdiv w).1, (hdiv v).2, (hdiv w).2]
  rcases digits_lt hlt with hfront | hlast
  · rcases digits_lt hfront with hfront | hlast
    · rcases digits_lt hfront with hfront | hlast
      · omega
      · omega
    · omega
  · omega

theorem utf8EncodeChar_ne_nil (c : Char) : utf8EncodeChar c ≠ [] := by
  unfold utf8EncodeChar
  dsimp only
  split_ifs
  all_goals exact List.cons_ne_nil _ _

namespace Text

/-- The bytes of a text in UTF-8. -/
def bytes (t : Text) : List UInt8 := t.flatMap utf8EncodeChar

theorem bytes_append (a b : Text) : bytes (a ++ b) = bytes a ++ bytes b := List.flatMap_append

theorem bytes_lt_of_lt {a b : Text} (h : a < b) : a.bytes < b.bytes := by
  induction a generalizing b with
  | nil =>
    cases b with
    | nil => cases h
    | cons d b =>
      rw [bytes, bytes, List.flatMap_cons, List.flatMap_nil]
      cases hd : utf8EncodeChar d with
      | nil => exact absurd hd (utf8EncodeChar_ne_nil d)
      | cons e rest => exact List.nil_lt_cons _ _
  | cons c a ih =>
    cases b with
    | nil => cases h
    | cons d b =>
      rw [bytes, bytes, List.flatMap_cons, List.flatMap_cons]
      rcases List.cons_lt_cons_iff.mp h with hlt | ⟨rfl, htail⟩
      · exact utf8EncodeChar_append_lt hlt _ _
      · exact List.append_left_lt (ih htail)

theorem bytes_lt_bytes_iff {a b : Text} : a.bytes < b.bytes ↔ a < b := by
  constructor
  · intro h
    rcases lt_trichotomy a b with hlt | rfl | hgt
    · exact hlt
    · exact absurd h (List.lt_irrefl _)
    · exact absurd h (List.lt_asymm (bytes_lt_of_lt hgt))
  · exact bytes_lt_of_lt

theorem bytes_le_bytes_iff {a b : Text} : a.bytes ≤ b.bytes ↔ ¬ b < a :=
  not_congr bytes_lt_bytes_iff

end Text

end Snippets
