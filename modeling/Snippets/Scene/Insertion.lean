import Snippets.Scene.Navigation
import Snippets.TriggerIndex

/-!
# Insertion

Putting a template into the document, opening its session and visiting its first stop.
-/

namespace Snippets

def leadingIndent (line : Text) : Text := line.takeWhile fun c => c == ' ' || c == '\t'

namespace Scene

variable {σ : Type}

/-- Opens a session for a template whose text begins at `base`. It stands at its exit until a stop
is visited. -/
def openSession (s : Scene σ) (base : Nat) (t : Template) : Scene σ :=
  s.effect (.push 0 (t.stops.map (LiveStop.ofTabStop base)))

variable [Surface σ]

/-- Replaces a range by a template. A template without numbered stops is left at once, with the
selection on its exit. -/
def insertTemplate (s : Scene σ) (t : Template) (target : Span) : Navigation × Scene σ :=
  match Surface.apply s.surface ⟨[⟨target, t.text⟩], .expansion⟩ with
  | (.error _, surface) => (.unavailable .surfaceUnavailable, { s with surface })
  | (.ok change, surface) =>
    let s := ({ s with surface }.remap change).openSession target.start t
    match t.firstIndex? with
    | some index => (.moved index, s.visit index)
    | none => (.exited, (s.visit 0).effect .pop)

def insertSnippet (settings : Settings) (resolve : Resolver) (s : Scene σ) (d : Definition)
    (target : Span) : Navigation × Scene σ :=
  let indent :=
    if settings.indentMultiline then leadingIndent (Surface.linePrefix s.surface target.start)
    else []
  s.insertTemplate (d.instantiate resolve indent) target

/-- Replaces the trigger in front of the cursor by its snippet. Nothing happens when text is
selected or no trigger ends at the cursor. -/
def expandAtCursor (settings : Settings) (resolve : Resolver) (index : TriggerIndex) (s : Scene σ) :
    Option Navigation × Scene σ :=
  let selection := Surface.selection s.surface
  if ¬ selection.IsEmpty then (none, s)
  else
    let cursor := selection.head
    match index.lookup (Surface.slice s.surface ⟨cursor - index.longest, cursor⟩) with
    | none => (none, s)
    | some d =>
      let (result, s) :=
        s.insertSnippet settings resolve d ⟨cursor - d.trigger.length, cursor⟩
      (some result, s)

end Scene

end Snippets
