import Snippets.Sync.Guard

/-!
# The scene

A scene is all that changes while the user works: the open sessions, the sync that is in flight and
the editor surface.
-/

namespace Snippets

structure Scene (σ : Type) where
  stack : Stack
  guard : Sync.Guard
  surface : σ
  deriving DecidableEq, Repr

namespace Scene

variable {σ : Type}

def start (surface : σ) : Scene σ := ⟨{}, {}, surface⟩

def effect (s : Scene σ) (e : Effect) : Scene σ := { s with stack := s.stack.apply e }

def isActive (s : Scene σ) : Bool := !s.stack.sessions.isEmpty

variable [Surface σ]

def remap (s : Scene σ) (c : Change) : Scene σ :=
  { s with stack := s.stack.remap c (Surface.length s.surface) }

def currentStop? (s : Scene σ) : Option LiveStop :=
  s.stack.top?.bind (·.currentStop? (Surface.selection s.surface))

/-- Selects the first stop with an index and makes that index current. -/
def visit (s : Scene σ) (index : Nat) : Scene σ :=
  let surface := match s.stack.top?.bind (·.firstStop? index) with
    | some stop => Surface.select s.surface (.ofSpan stop.span)
    | none => s.surface
  { s with surface }.effect (.updateIndex index)

end Scene

end Snippets
