import Snippets.JsonValue.Printer
import Snippets.Document
import Snippets.Engine

/-!
# Reports

What the program prints about a template and about an expansion, as JSON.
-/

namespace Snippets.Report

open JsonValue

def ofTabStop (s : TabStop) : JsonValue :=
  let choices := s.choices.map fun choices => ("choices", ofList ofText choices)
  let group := s.group.map fun group => ("group", ofNat group)
  let kind := if s.group.isSome then "reference" else "standard"
  record (choices.toList ++ ("end", ofNat s.span.finish) :: group.toList ++
    [("index", ofNat s.index), ("kind", ofText kind.toList), ("start", ofNat s.span.start)])

def ofVariable (v : Variable) : JsonValue :=
  let fallback := v.fallback.map fun text => ("default_value", ofText text)
  record (fallback.toList ++ [("end", ofNat v.span.finish), ("name", ofText v.name),
    ("start", ofNat v.span.start)])

def ofTemplate (t : Template) : JsonValue :=
  record [("tab_stops", ofList ofTabStop t.stops), ("text", ofText t.text),
    ("variables", ofList ofVariable t.vars)]

def ofLiveStop (s : LiveStop) : JsonValue :=
  record [("choices", ofOption (ofList ofText) s.choices), ("end", ofNat s.span.finish),
    ("index", ofNat s.index), ("reference", .bool s.isReference), ("start", ofNat s.span.start)]

def ofScene (s : Scene Document) : JsonValue :=
  let d := s.surface
  let stops := s.stack.top?.elim [] (·.stops)
  record [("expanded", .bool (0 < d.revision)),
    ("selection", record [("anchor", ofNat d.selection.anchor), ("head", ofNat d.selection.head)]),
    ("stops", ofList ofLiveStop stops), ("text", ofText d.text)]

end Snippets.Report
