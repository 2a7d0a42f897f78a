import Snippets.JsonValue.Reader
import Snippets.Definition

/-!
# Snippet files

A snippet file is a JSON object with a named entry for each snippet. An entry is an object with
known fields, or an array of their values in order. One bad entry makes the whole file bad.
-/

namespace Snippets.SnippetFile

def text? : JsonValue → Option Text
  | .string t => t
  | _ => none

def body? : JsonValue → Option Text
  | .string t => t
  | .array lines => (lines.mapM text?).map fun lines => List.intercalate ['\n'] lines
  | _ => none

def description? : JsonValue → Option (Option Text)
  | .null => some none
  | .string t => t.map some
  | _ => none

def priority? : JsonValue → Option Int
  | .number (some n) => if -2147483648 ≤ n ∧ n < 2147483648 then some n else none
  | _ => none

def hidden? : JsonValue → Option Bool
  | .bool b => some b
  | _ => none

def orElse {α : Type} (decode : JsonValue → Option α) (fallback : α) : Option JsonValue → Option α
  | none => some fallback
  | some v => decode v

def definition? (trigger body description priority hidden : Option JsonValue) :
    Option Definition := do
  return {
    trigger := ← trigger.bind text?
    body := ← body.bind body?
    description := ← orElse description? none description
    priority := ← orElse priority? 0 priority
    hidden := ← orElse hidden? false hidden }

/-- The value of a field, if there is one; a field must not occur twice. -/
def field? (name : String) (fields : List (Option Text × JsonValue)) :
    Option (Option JsonValue) :=
  match fields.filter fun (n, _) => n == some name.toList with
  | [] => some none
  | [(_, v)] => some (some v)
  | _ => none

/-- An entry of a file. Unknown fields are passed over, but every name has to be a text. -/
def entry? : JsonValue → Option Definition
  | .object fields =>
    if fields.any fun (name, _) => name.isNone then none
    else do
      definition? (← field? "prefix" fields) (← field? "body" fields)
        (← field? "description" fields) (← field? "priority" fields) (← field? "hidden" fields)
  | .array items =>
    if 5 < items.length then none
    else definition? items[0]? items[1]? items[2]? items[3]? items[4]?
  | _ => none

/-- Puts an entry among entries in the order of their names; it takes the place of one of its
name. -/
def put (name : Text) (d : Definition) : List (Text × Definition) → List (Text × Definition)
  | [] => [(name, d)]
  | (other, e) :: rest =>
    if name = other then (name, d) :: rest
    else if name < other then (name, d) :: (other, e) :: rest
    else (other, e) :: put name d rest

def entries? (t : Text) : Option (List (Text × Definition)) :=
  match JsonValue.read? t with
  | some (.object fields) => fields.mapM fun (name, value) => do return (← name, ← entry? value)
  | _ => none

/-- A way to read the entries of a file, as they are written. -/
abbrev Decoder := Text → Option (List (Text × Definition))

/-- The snippets of a file, in the order of their names. Of two entries with one name the last
counts. -/
def read? (t : Text) (decode : Decoder := entries?) : Option (List Definition) :=
  (decode t).map fun entries =>
    (entries.foldl (fun sorted (name, d) => put name d sorted) []).map (·.2)

end Snippets.SnippetFile
