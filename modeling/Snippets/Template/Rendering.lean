import Snippets.Body.Reader
import Snippets.Template
import Snippets.Sorting

/-!
# Rendering

From a body to a template. A body is evaluated from left to right at an offset of the produced text;
a stop is reported after the stops inside its default. `Template.ofRendering` then sorts the stops,
keeps one exit and numbers the groups of stops that share an index.
-/

namespace Snippets

abbrev Resolver := Text → Option Text

def indentLines (indent : Text) (t : Text) : Text :=
  t.flatMap fun c => if c = '\n' then c :: indent else [c]

/-- Produced text with the stops and variables in it, in the order in which they were completed. -/
structure Rendering where
  text : Text
  stops : List TabStop
  vars : List Variable
  deriving DecidableEq, Repr

namespace Rendering

def empty : Rendering := ⟨[], [], []⟩

/-- Two renderings side by side, their offsets already counted from one place. -/
def append (a b : Rendering) : Rendering :=
  ⟨a.text ++ b.text, a.stops ++ b.stops, a.vars ++ b.vars⟩

def spanFrom (r : Rendering) (start : Nat) : Span := ⟨start, start + r.text.length⟩

def withStop (r : Rendering) (index start : Nat) (choices : Option (List Text)) : Rendering :=
  { r with stops := r.stops ++ [{ index, span := r.spanFrom start, choices }] }

def withVariable (r : Rendering) (name : Text) (start : Nat) (fallback : Option Text) : Rendering :=
  { r with vars := r.vars ++ [⟨name, r.spanFrom start, fallback⟩] }

end Rendering

/-- Evaluates a body at an offset. A value is plain text, never read as a body. A variable that has
a value drops what its default produced, the stops and variables inside it too. -/
def Body.render (resolve : Resolver) (indent : Text) : Body → Nat → Rendering
  | .done, _ => .empty
  | .char c rest, start =>
    let piece : Rendering := ⟨indentLines indent [c], [], []⟩
    piece.append (rest.render resolve indent (piece.spanFrom start).finish)
  | .stop index rest, start =>
    let piece := Rendering.empty.withStop index start none
    piece.append (rest.render resolve indent (piece.spanFrom start).finish)
  | .stopOver index fallback rest, start =>
    let piece := (fallback.render resolve indent start).withStop index start none
    piece.append (rest.render resolve indent (piece.spanFrom start).finish)
  | .choice index first others rest, start =>
    let shown : Rendering := ⟨indentLines indent first, [], []⟩
    let piece := shown.withStop index start (some (first :: others))
    piece.append (rest.render resolve indent (piece.spanFrom start).finish)
  | .variable name rest, start =>
    let shown : Rendering := ⟨indentLines indent ((resolve name).getD []), [], []⟩
    let piece := shown.withVariable name start none
    piece.append (rest.render resolve indent (piece.spanFrom start).finish)
  | .variableOver name fallback rest, start =>
    let standing := fallback.render resolve indent start
    let shown : Rendering := match resolve name with
      | none => standing
      | some value => ⟨indentLines indent value, [], []⟩
    let piece := shown.withVariable name start (some standing.text)
    piece.append (rest.render resolve indent (piece.spanFrom start).finish)

def TabStop.le (a b : TabStop) : Bool :=
  a.index < b.index || (a.index == b.index && a.span.start ≤ b.span.start)

def repeatedIndices (stops : List TabStop) : List Nat :=
  let indices := stops.map (·.index)
  (indices.filter fun i => 1 < indices.count i).eraseDups

/-- The first exit of sorted stops, or an empty one at the end of the text. -/
def exitStop (sorted : List TabStop) (length : Nat) : TabStop :=
  (sorted.find? (·.index == 0)).getD { index := 0, span := ⟨length, length⟩ }

/-- Completes a rendering: one exit in front, the other stops in order, groups numbered by index. -/
def Template.ofRendering (r : Rendering) : Template :=
  let sorted := sortStable TabStop.le r.stops
  let kept := exitStop sorted r.text.length :: sorted.filter (·.index != 0)
  let repeated := repeatedIndices kept
  ⟨r.text, kept.map fun s => { s with group := repeated.idxOf? s.index }, r.vars⟩

def Template.instantiate (body : Text) (resolve : Resolver) (indent : Text) : Template :=
  .ofRendering ((Body.read body).render resolve indent 0)

def Template.parse (body : Text) : Template := instantiate body (fun _ => none) []

end Snippets
