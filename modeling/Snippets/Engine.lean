import Snippets.Scene.Insertion

/-!
# The engine

One editor surface with all that is needed to serve it. The editor sends messages; the answer says
whether to draw again and whether to send a tick.
-/

namespace Snippets

inductive Message where
  /-- Expand the trigger in front of the cursor. -/
  | expand
  /-- Insert the snippet with this trigger over the selection. -/
  | insert (trigger : Text)
  | jumpNext
  | jumpPrevious
  | cycleChoice
  | forceExit
  /-- The document was changed. -/
  | changed (change : Change)
  | tick
  deriving DecidableEq, Repr

inductive Command where
  | redraw
  | scheduleTick
  | redrawAndTick
  deriving DecidableEq, Repr

namespace Command

def needsRedraw : Command → Bool
  | scheduleTick => false
  | _ => true

def needsTick : Command → Bool
  | redraw => false
  | _ => true

def asking (redraw tick : Bool) : Option Command :=
  match redraw, tick with
  | true, true => some .redrawAndTick
  | true, false => some .redraw
  | false, true => some .scheduleTick
  | false, false => none

end Command

structure Engine (σ : Type) where
  settings : Settings
  index : TriggerIndex
  /-- Values of variables; the first entry of a name counts. -/
  values : List (Text × Text)
  scene : Scene σ

namespace Engine

variable {σ : Type}

def start (settings : Settings) (surface : σ) : Engine σ := ⟨settings, .empty, [], .start surface⟩

def resolver (e : Engine σ) : Resolver := fun name => e.values.lookup name

def setValue (e : Engine σ) (name value : Text) : Engine σ :=
  { e with values := (name, value) :: e.values }

def register (e : Engine σ) (definitions : List Definition) : Engine σ :=
  { e with index := .ofList definitions }

variable [Surface σ]

/-- The work that a message asks for, and whether it changed what the user sees. `none` means that
there was nothing to work on. -/
def perform (e : Engine σ) : Message → Option (Bool × Scene σ)
  | .expand =>
    let (result, scene) := e.scene.expandAtCursor e.settings e.resolver e.index
    some (result.any (·.succeeded), scene)
  | .insert trigger =>
    (e.index.get? trigger).map fun d =>
      let target := (Surface.selection e.scene.surface).span
      let (result, scene) := e.scene.insertSnippet e.settings e.resolver d target
      (result.succeeded, scene)
  | .jumpNext => let (result, scene) := e.scene.jumpNext; some (result.succeeded, scene)
  | .jumpPrevious => let (result, scene) := e.scene.jumpPrevious; some (result.succeeded, scene)
  | .cycleChoice =>
    let (result, scene) := e.scene.cycleChoice e.settings
    some (result.succeeded, scene)
  | .forceExit => let (result, scene) := e.scene.forceExit; some (result.succeeded, scene)
  | .changed change => some (false, (e.scene.observe e.settings change).2)
  | .tick => let (outcome, scene) := e.scene.tick; some (outcome.any (·.isApplied), scene)

/-- Serves a message. A tick is asked for as long as a sync is in flight. -/
def handle (e : Engine σ) (m : Message) : Option Command × Engine σ :=
  match e.perform m with
  | none => (none, e)
  | some (changed, scene) => (Command.asking changed scene.guard.inFlight, { e with scene })

end Engine

end Snippets
