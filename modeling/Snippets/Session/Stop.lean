import Snippets.Template
import Snippets.Sorting

/-!
# Live stops

The stops of an open session, placed in the document. A list of them is kept in document order, and
each stop knows the positions in the list of the other stops of its group. `LiveStop.normalize`
restores both after offsets have moved.
-/

namespace Snippets

structure LiveStop extends TabStop where
  /-- Positions of the other stops of the group. -/
  linked : List Nat := []
  deriving DecidableEq, Repr

namespace LiveStop

def ofTabStop (base : Nat) (s : TabStop) : LiveStop := { s with span := s.span.shift base }

def isReference (s : LiveStop) : Bool := s.group.isSome

/-- At equal ranges the exit comes last and the others by index: text inserted at a shared offset
belongs to a numbered stop, and the exit has to come behind it. -/
def rankLe (a b : LiveStop) : Bool :=
  if a.index = 0 then b.index == 0 else b.index == 0 || a.index ≤ b.index

def le (a b : LiveStop) : Bool :=
  a.span.start < b.span.start || (a.span.start == b.span.start &&
    (a.span.finish < b.span.finish || (a.span.finish == b.span.finish && rankLe a b)))

/-- An inverted range becomes empty. -/
def upright (s : LiveStop) : LiveStop :=
  { s with span := ⟨s.span.start, max s.span.start s.span.finish⟩ }

def members (stops : List LiveStop) (group self : Nat) : List Nat :=
  (stops.zipIdx.filter fun (t, i) => i != self && t.group == some group).map (·.2)

def link (stops : List LiveStop) : List LiveStop :=
  stops.zipIdx.map fun (s, i) =>
    { s with linked := match s.group with
        | none => []
        | some group => members stops group i }

def normalize (stops : List LiveStop) : List LiveStop :=
  link (sortStable le (stops.map upright))

end LiveStop

end Snippets
