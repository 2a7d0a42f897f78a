import Snippets.Text

/-!
# Selections

A selection has a fixed end, the anchor, and a moving end, the head; a cursor has both at one
offset.
-/

namespace Snippets

structure Selection where
  anchor : Nat
  head : Nat
  deriving DecidableEq, Repr

namespace Selection

def cursor (offset : Nat) : Selection := ⟨offset, offset⟩

def ofSpan (s : Span) : Selection := ⟨s.start, s.finish⟩

def span (s : Selection) : Span := ⟨min s.anchor s.head, max s.anchor s.head⟩

def IsEmpty (s : Selection) : Prop := s.anchor = s.head

instance (s : Selection) : Decidable s.IsEmpty := inferInstanceAs (Decidable (_ = _))

def IsReversed (s : Selection) : Prop := s.head < s.anchor

instance (s : Selection) : Decidable s.IsReversed := inferInstanceAs (Decidable (_ < _))

/-- The selection covers exactly the range; for an empty range the cursor sits on it. -/
def Covers (s : Selection) (r : Span) : Prop := s.span = r

instance (s : Selection) (r : Span) : Decidable (s.Covers r) := inferInstanceAs (Decidable (_ = _))

def Within (s : Selection) (r : Span) : Prop := r.start ≤ s.span.start ∧ s.span.finish ≤ r.finish

instance (s : Selection) (r : Span) : Decidable (s.Within r) :=
  inferInstanceAs (Decidable (_ ∧ _))

def clamp (s : Selection) (length : Nat) : Selection := ⟨min s.anchor length, min s.head length⟩

end Selection

end Snippets
