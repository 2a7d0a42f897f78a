import Snippets.Scene

/-!
# Syncing

Carrying out the sync of the stop that the user is in: at once, on the next tick, or before
navigation leaves the stop.
-/

namespace Snippets.Scene

variable {σ : Type} [Surface σ]

def remapOuter (stack : Stack) (c : Change) (length : Nat) : Stack :=
  let outer := stack.sessions.tail
  stack.applyAll (outer.reverse.zipIdx.map fun (s, depth) => .replace depth (s.remap c length))

def runSync (op : Nat) (s : Scene σ) : Sync.Outcome × Scene σ :=
  let s := { s with guard := s.guard.settle }
  match Sync.plan s.stack s.surface with
  | .error reason => (.skipped reason, s)
  | .ok plan =>
    if plan.edits.isEmpty then
      let moved := s.stack.top?.any (·.movedBy plan.stops)
      (.skipped .upToDate, if moved then s.effect (.replace plan.depth plan.stops) else s)
    else match Surface.apply s.surface ⟨plan.edits, .sync op⟩ with
      | (.error _, surface) => (.skipped .surfaceUnavailable, { s with surface })
      | (.ok change, surface) =>
        let stack := remapOuter s.stack change (Surface.length surface)
        let guard := { s.guard with phase := .settling op }
        (.applied op plan.edits.length,
          Scene.effect ⟨stack, guard, surface⟩ (.replace plan.depth plan.stops))

def requestSync (s : Scene σ) : Sync.Outcome × Scene σ :=
  let (outcome, guard) := s.guard.request s.stack
  (outcome, { s with guard })

def syncNow (s : Scene σ) : Sync.Outcome × Scene σ :=
  if s.guard.inFlight then (.skipped .inFlight, s)
  else runSync s.guard.issue.latest { s with guard := s.guard.issue }

/-- Ends whatever is in flight and syncs at once. A waiting sync that is still current is the one
that runs. -/
def flush (s : Scene σ) : Sync.Outcome × Scene σ :=
  let afresh := syncNow { s with guard := s.guard.settle }
  match s.guard.phase with
  | .scheduled op session => if s.guard.isCurrent op session s.stack then runSync op s else afresh
  | _ => afresh

/-- One scheduling tick: a waiting sync runs or is found stale, a settling one ends. -/
def tick (s : Scene σ) : Option Sync.Outcome × Scene σ :=
  match s.guard.phase with
  | .idle => (none, s)
  | .scheduled op session =>
    if s.guard.isCurrent op session s.stack then
      let (outcome, s) := runSync op s
      (some outcome, s)
    else (some (.skipped .stale), { s with guard := s.guard.settle })
  | .settling _ => (none, { s with guard := s.guard.settle })

/-- Gives up any sync in flight. The new operation id makes a waiting one stale. -/
def cancelSync (s : Scene σ) : Scene σ := { s with guard := s.guard.issue.settle }

end Snippets.Scene
