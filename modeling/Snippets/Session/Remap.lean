import Snippets.Session.Stack
import Snippets.Change

/-!
# Carrying stops across a change

Stops of the current index are being typed into, so text inserted at either end of them makes them
grow. Every other stop keeps such text outside; an empty one moves behind it.
-/

namespace Snippets

def Change.mapSpan (c : Change) (s : Span) (grows : Bool) (length : Nat) : Span :=
  let start := min (c.mapOffset s.start (if grows then .before else .after)) length
  let finish := min (c.mapOffset s.finish (if grows then .after else .before)) length
  ⟨start, max start finish⟩

def remapStops (stops : List LiveStop) (current : Nat) (c : Change) (length : Nat) :
    List LiveStop :=
  stops.map fun s => { s with span := c.mapSpan s.span (s.index == current) length }

namespace Session

def remap (s : Session) (c : Change) (length : Nat) : List LiveStop :=
  remapStops s.stops s.current c length

def movedBy (s : Session) (stops : List LiveStop) : Bool :=
  (stops.zip s.stops).any fun (new, old) => new.span != old.span

end Session

namespace Stack

/-- The replacements that a change asks for: one for every session that it moves, the outermost
first. -/
def replacements (c : Change) (length : Nat) : List Session → List Effect
  | [] => []
  | s :: outer =>
    let stops := s.remap c length
    replacements c length outer ++ if s.movedBy stops then [.replace outer.length stops] else []

/-- The transitions that carry a stack across a change; a change without edits asks for none. -/
def remapEffects (s : Stack) (c : Change) (length : Nat) : List Effect :=
  if c.edits.isEmpty then [] else replacements c length s.sessions

def remap (s : Stack) (c : Change) (length : Nat) : Stack :=
  s.applyAll (s.remapEffects c length)

end Stack

end Snippets
