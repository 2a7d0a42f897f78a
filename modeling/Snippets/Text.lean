import Snippets.Word

/-!
# Text

Text is a list of characters. Every offset in this library counts characters, so lengths, cuts and
replacements are operations on lists.
-/

namespace Snippets

/-- A piece of text, one entry per character. -/
abbrev Text := List Char

/-- A half-open range of character offsets. It may be inverted until something checks it. -/
structure Span where
  start : Nat
  finish : Nat
  deriving DecidableEq, Repr

namespace Span

def length (s : Span) : Nat := s.finish - s.start

def IsEmpty (s : Span) : Prop := s.start = s.finish

instance (s : Span) : Decidable s.IsEmpty := inferInstanceAs (Decidable (_ = _))

/-- The offset lies in the range, both ends counted. -/
def Touches (s : Span) (offset : Nat) : Prop := s.start ≤ offset ∧ offset ≤ s.finish

instance (s : Span) (offset : Nat) : Decidable (s.Touches offset) :=
  inferInstanceAs (Decidable (_ ∧ _))

def shift (s : Span) (distance : Nat) : Span :=
  ⟨Word.unsigned (distance + s.start), Word.unsigned (distance + s.finish)⟩

/-- Two ranges share a character, or the first is empty and lies strictly inside the second. -/
def Overlaps (a b : Span) : Prop :=
  if a.start = a.finish then b.start < a.start ∧ a.start < b.finish
  else a.start < b.finish ∧ b.start < a.finish

instance (a b : Span) : Decidable (a.Overlaps b) := by
  unfold Overlaps
  infer_instance

end Span

namespace Text

/-- The characters of a range, cut to the text; an inverted range holds none. -/
def slice (t : Text) (s : Span) : Text := (t.take s.finish).drop s.start

def splice (t : Text) (s : Span) (new : Text) : Text := t.take s.start ++ new ++ t.drop s.finish

@[simp] theorem length_slice (t : Text) (s : Span) :
    (t.slice s).length = min s.finish t.length - s.start := by
  simp [slice]

theorem slice_inverted (t : Text) {s : Span} (h : s.finish ≤ s.start) : t.slice s = [] := by
  apply List.eq_nil_of_length_eq_zero
  rw [length_slice]
  omega

theorem length_splice (t : Text) {s : Span} (new : Text) (h : s.start ≤ t.length) :
    (t.splice s new).length = s.start + new.length + (t.length - s.finish) := by
  simp [splice, Nat.min_eq_left h]
  omega

end Text

end Snippets
