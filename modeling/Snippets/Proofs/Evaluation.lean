import Snippets.Template.Rendering

/-!
# Evaluation

A body evaluated piece by piece, every piece with offsets of its own, and the renderings put side by
side afterwards. Rendering with a running offset comes to the same, so a piece is the same wherever
it stands.
-/

namespace Snippets

def Span.behind (distance : Nat) (s : Span) : Span := ⟨distance + s.start, distance + s.finish⟩

namespace Rendering

def ofText (t : Text) : Rendering := ⟨t, [], []⟩

/-- A rendering whose offsets are counted from a place further in front. -/
def behind (distance : Nat) (r : Rendering) : Rendering :=
  ⟨r.text, r.stops.map fun s => { s with span := s.span.behind distance },
    r.vars.map fun v => { v with span := v.span.behind distance }⟩

def followedBy (a b : Rendering) : Rendering := a.append (b.behind a.text.length)

variable (a b : Rendering) (distance : Nat)

theorem behind_zero : a.behind 0 = a := by
  simp only [behind, Span.behind, Nat.zero_add, List.map_id_fun', id_eq]

theorem append_behind :
    (a.append b).behind distance = (a.behind distance).append (b.behind distance) := by
  simp only [append, behind, List.map_append]

theorem behind_behind (further : Nat) :
    (a.behind distance).behind further = a.behind (further + distance) := by
  simp only [behind, List.map_map, Span.behind, Function.comp_def, Nat.add_assoc]

theorem withStop_behind (index : Nat) (choices : Option (List Text)) :
    (a.withStop index 0 choices).behind distance =
      (a.behind distance).withStop index distance choices := by
  simp only [withStop, behind, spanFrom, Span.behind, List.map_append, List.map_cons, List.map_nil,
    Nat.zero_add, Nat.add_zero]

theorem withVariable_behind (name : Text) (fallback : Option Text) :
    (a.withVariable name 0 fallback).behind distance =
      (a.behind distance).withVariable name distance fallback := by
  simp only [withVariable, behind, spanFrom, Span.behind, List.map_append, List.map_cons,
    List.map_nil, Nat.zero_add, Nat.add_zero]

theorem followedBy_behind :
    (a.followedBy b).behind distance =
      (a.behind distance).append (b.behind (distance + a.text.length)) := by
  rw [followedBy, append_behind, behind_behind]

end Rendering

namespace Body

/-- What a body produces: its pieces side by side. A value stands in the place of a default and of
everything in it. -/
def evaluate (resolve : Resolver) (indent : Text) : Body → Rendering
  | .done => .empty
  | .char c rest =>
    (Rendering.ofText (indentLines indent [c])).followedBy (evaluate resolve indent rest)
  | .stop index rest =>
    (Rendering.empty.withStop index 0 none).followedBy (evaluate resolve indent rest)
  | .stopOver index fallback rest =>
    ((evaluate resolve indent fallback).withStop index 0 none).followedBy
      (evaluate resolve indent rest)
  | .choice index first others rest =>
    ((Rendering.ofText (indentLines indent first)).withStop index 0
      (some (first :: others))).followedBy (evaluate resolve indent rest)
  | .variable name rest =>
    ((Rendering.ofText (indentLines indent ((resolve name).getD []))).withVariable name 0
      none).followedBy (evaluate resolve indent rest)
  | .variableOver name fallback rest =>
    let standing := evaluate resolve indent fallback
    let shown := ((resolve name).map (Rendering.ofText ∘ indentLines indent)).getD standing
    (shown.withVariable name 0 (some standing.text)).followedBy (evaluate resolve indent rest)

theorem render_eq (resolve : Resolver) (indent : Text) (body : Body) (start : Nat) :
    body.render resolve indent start = (body.evaluate resolve indent).behind start := by
  induction body generalizing start with
  | done => rfl
  | char c rest ih =>
    rw [render, evaluate, Rendering.followedBy_behind, ih]
    rfl
  | stop index rest ih =>
    rw [render, evaluate, Rendering.followedBy_behind, Rendering.withStop_behind, ih]
    rfl
  | stopOver index fallback rest ihFallback ih =>
    rw [render, evaluate, Rendering.followedBy_behind, Rendering.withStop_behind, ihFallback, ih]
    rfl
  | choice index first others rest ih =>
    rw [render, evaluate, Rendering.followedBy_behind, Rendering.withStop_behind, ih]
    rfl
  | «variable» name rest ih =>
    rw [render, evaluate, Rendering.followedBy_behind, Rendering.withVariable_behind, ih]
    rfl
  | variableOver name fallback rest ihFallback ih =>
    rw [render, evaluate, Rendering.followedBy_behind, Rendering.withVariable_behind, ihFallback,
      ih]
    cases resolve name with
    | none => rfl
    | some value => rfl

end Body

theorem Template.instantiate_eq_evaluate (body : Text) (resolve : Resolver) (indent : Text) :
    instantiate body resolve indent = .ofRendering ((Body.read body).evaluate resolve indent) := by
  rw [instantiate, Body.render_eq, Rendering.behind_zero]

end Snippets
