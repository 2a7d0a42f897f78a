import Snippets.Session.Remap
import Snippets.Surface

/-!
# Planning a sync

A sync copies the text of the stop that the user is in to the other stops of its group. The plan
says which ranges of the document to replace and where all stops of the session will be then.
-/

namespace Snippets.Sync

inductive SkipReason where
  | noSession
  | notReference
  | noLinkedStops
  | inFlight
  | upToDate
  | stale
  | surfaceUnavailable
  deriving DecidableEq, Repr

structure Plan where
  depth : Nat
  /-- The range whose text is copied, in the document before the sync. -/
  source : Span
  text : Text
  /-- Replacements, the highest first. -/
  edits : List Edit
  /-- The stops of the session in the document after the sync. -/
  stops : List LiveStop
  deriving DecidableEq, Repr

/-- The range whose text counts. Typing past the end of the stop is part of it, but it does not
reach into the next stop of the group. -/
def sourceSpan (stops : List LiveStop) (stop : LiveStop) (selection : Selection) (length : Nat) :
    Span :=
  let starts := (stop.linked.filterMap (stops[·]?)).map (·.span.start)
  let next := (starts.filter (stop.span.finish ≤ ·)).min?.getD length
  let start := min stop.span.start length
  ⟨start, max start (min (min (max stop.span.finish selection.span.finish) next) length)⟩

/-- The replacements of a sync, each with the position of its stop. A stop that shares characters
with the source or already holds the text is left alone. -/
def replacements {σ : Type} [Surface σ] (surface : σ) (stops : List LiveStop) (linked : List Nat)
    (source : Span) (text : Text) : List (Nat × Edit) :=
  linked.filterMap fun i => stops[i]?.bind fun s =>
    if s.span.Overlaps source ∨ Surface.slice surface s.span = text then none
    else some (i, ⟨s.span, text⟩)

/-- An offset after the replacements. Those at the offset itself count only for stops behind theirs
in the list. -/
def shifted (edits : List (Nat × Edit)) (offset position : Nat) : Nat :=
  let before := edits.filter fun (i, e) =>
    e.span.start < offset || (e.span.start == offset && i < position)
  Word.offset (offset + Edit.growth (before.map (·.2)))

/-- Where a stop will be. The source and its copies all have the length of the text. -/
def shiftedSpan (edits : List (Nat × Edit)) (current length : Nat) (s : Span) (position : Nat) :
    Span :=
  let start := shifted edits s.start position
  if position = current ∨ edits.any (·.1 == position) then ⟨start, start + length⟩
  else ⟨start, max start (shifted edits s.finish position)⟩

def plan {σ : Type} [Surface σ] (stack : Stack) (surface : σ) : Except SkipReason Plan := do
  let top :: outer := stack.sessions | throw .noSession
  let selection := Surface.selection surface
  let some current := top.currentPosition? selection | throw .notReference
  let some stop := top.stops[current]? | throw .notReference
  if !stop.isReference then throw .notReference
  if stop.linked.isEmpty then throw .noLinkedStops
  let source := sourceSpan top.stops stop selection (Surface.length surface)
  let text := Surface.slice surface source
  let edits := replacements surface top.stops stop.linked source text
  let stops := top.stops.zipIdx.map fun (s, i) =>
    { s with span := shiftedSpan edits current source.length s.span i }
  return {
    depth := outer.length
    source, text, stops
    edits := sortStable (fun a b => b.span.start ≤ a.span.start) (edits.map (·.2)) }

end Snippets.Sync
