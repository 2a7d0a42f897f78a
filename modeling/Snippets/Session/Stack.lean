import Snippets.Session.Stop
import Snippets.Selection

/-!
# Sessions

A session keeps the stops of one inserted template until the user leaves it. Sessions nest: a
snippet that is expanded inside a stop opens a session on top of the one it is in. The stack changes
by effects only.
-/

namespace Snippets

structure Session where
  id : Nat
  /-- The index that is being visited; 0 also before any is. -/
  current : Nat
  stops : List LiveStop
  deriving DecidableEq, Repr

namespace Session

def hasIndex (s : Session) (index : Nat) : Bool := s.stops.any (·.index == index)

def positionOf? (s : Session) (index : Nat) : Option Nat := s.stops.findIdx? (·.index == index)

def firstStop? (s : Session) (index : Nat) : Option LiveStop := s.stops.find? (·.index == index)

/-- The position of the stop that the user is in: among the stops with the current index the first
that touches the head of the selection, else the first. -/
def currentPosition? (s : Session) (selection : Selection) : Option Nat :=
  (s.stops.findIdx? fun t => t.index == s.current && t.span.Touches selection.head).or
    (s.positionOf? s.current)

def currentStop? (s : Session) (selection : Selection) : Option LiveStop :=
  (s.currentPosition? selection).bind (s.stops[·]?)

end Session

/-- Open sessions, the innermost first. -/
structure Stack where
  sessions : List Session := []
  /-- The id of the next session; no id is given out twice. -/
  nextId : Nat := 0
  deriving DecidableEq, Repr

/-- A transition of the stack. Depth counts from the outermost session, which has depth 0. -/
inductive Effect where
  | push (current : Nat) (stops : List LiveStop)
  | pop
  | updateIndex (index : Nat)
  | replace (depth : Nat) (stops : List LiveStop)
  | clear
  deriving DecidableEq, Repr

namespace Stack

def depth (s : Stack) : Nat := s.sessions.length

def top? (s : Stack) : Option Session := s.sessions.head?

def contains (s : Stack) (id : Nat) : Bool := s.sessions.any (·.id == id)

def replaceAt (depth : Nat) (stops : List LiveStop) : List Session → List Session
  | [] => []
  | s :: outer =>
    if outer.length = depth then { s with stops } :: outer else s :: replaceAt depth stops outer

/-- Makes a transition. One that does not fit the stack changes nothing. -/
def apply (s : Stack) : Effect → Stack
  | .push current stops =>
    ⟨⟨s.nextId, current, LiveStop.normalize stops⟩ :: s.sessions, s.nextId + 1⟩
  | .pop => { s with sessions := s.sessions.tail }
  | .updateIndex index => match s.sessions with
    | [] => s
    | top :: outer => { s with sessions := { top with current := index } :: outer }
  | .replace depth stops =>
    { s with sessions := replaceAt depth (LiveStop.normalize stops) s.sessions }
  | .clear => { s with sessions := [] }

def applyAll (s : Stack) (effects : List Effect) : Stack := effects.foldl apply s

end Stack

end Snippets
