import Snippets.Text

/-!
# Templates

A template is text ready to be put into a document, with the places in it that the user will visit
and the places that variables filled.
-/

namespace Snippets

/-- A place to visit. Stops that share an index carry the number of their group. -/
structure TabStop where
  index : Nat
  span : Span
  choices : Option (List Text) := none
  group : Option Nat := none
  deriving DecidableEq, Repr

/-- A place that a variable filled, with the text that it replaced or left standing. -/
structure Variable where
  name : Text
  span : Span
  fallback : Option Text
  deriving DecidableEq, Repr

structure Template where
  text : Text
  stops : List TabStop
  vars : List Variable
  deriving DecidableEq, Repr

namespace Template

def exit? (t : Template) : Option TabStop := t.stops.find? (·.index == 0)

def firstIndex? (t : Template) : Option Nat :=
  ((t.stops.map (·.index)).filter (0 < ·)).min?

end Template

end Snippets
