import Snippets.Document
import Snippets.Scene.Insertion
import Snippets.Template.Rendering

/-!
# A user at a document

A body inserted into a document, and the user who types into it. Typing may go wrong only where the
document refuses the batch.
-/

namespace Snippets.Scene

def opened (t : Template) : Scene Document := ((start (.ofText [])).insertTemplate t ⟨0, 0⟩).2

def typing (s : Scene Document) (typed : Text) : Except Fault (Change × Scene Document) :=
  (s.surface.type typed).map fun (change, surface) => (change, { s with surface })

/-- The user types and the engine takes note of it. -/
def typed (settings : Settings) (s : Scene Document) (t : Text) : Except Fault (Scene Document) :=
  (s.typing t).map fun (change, s) => (s.observe settings change).2

def backspaced (settings : Settings) (s : Scene Document) : Except Fault (Scene Document) :=
  s.surface.backspace.map fun
    | (none, surface) => { s with surface }
    | (some change, surface) => ({ s with surface }.observe settings change).2

def ticks : Nat → Scene Document → Scene Document
  | 0, s => s
  | n + 1, s => ticks n s.tick.2

/-- What the user types for a stop, and how many ticks come before the engine takes note of it,
before the user jumps on and after that. -/
structure Turn where
  typed : Text
  unnoted : Nat
  noted : Nat
  left : Nat

def turn (settings : Settings) (s : Scene Document) (r : Turn) : Except Fault (Scene Document) :=
  (s.typing r.typed).map fun (change, s) =>
    ticks r.left (ticks r.noted ((ticks r.unnoted s).observe settings change).2).jumpNext.2

def turns (settings : Settings) : List Turn → Scene Document → Except Fault (Scene Document)
  | [], s => .ok s
  | r :: rest, s => (s.turn settings r).bind (turns settings rest)

/-- A body is inserted at the cursor, and after some ticks the user fills it in turn by turn. -/
def fillIn (settings : Settings) (body : Text) (first : Nat) (rs : List Turn) (s : Scene Document) :
    Except Fault (Scene Document) :=
  turns settings rs (ticks first (s.insertTemplate (.parse body) s.surface.selection.span).2)

def answer (rs : List Turn) (index : Nat) : Text := (rs[index - 1]?.map Turn.typed).getD []

end Snippets.Scene
