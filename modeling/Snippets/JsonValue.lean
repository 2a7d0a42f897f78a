import Snippets.Text

/-!
# JSON values

What a JSON text holds, as far as snippet files and reports need it. A number that is no integer and
a string that spells half of a surrogate pair are well formed but have no value here.
-/

namespace Snippets

inductive JsonValue where
  | null
  | bool (b : Bool)
  | number (value : Option Int)
  | string (value : Option Text)
  | array (items : List JsonValue)
  | object (fields : List (Option Text × JsonValue))
  deriving Repr

namespace JsonValue

def ofNat (n : Nat) : JsonValue := .number (some n)

def ofText (t : Text) : JsonValue := .string (some t)

def ofOption {α : Type} (item : α → JsonValue) : Option α → JsonValue
  | none => .null
  | some a => item a

def ofList {α : Type} (item : α → JsonValue) (l : List α) : JsonValue := .array (l.map item)

def record (fields : List (String × JsonValue)) : JsonValue :=
  .object (fields.map fun (name, value) => (some name.toList, value))

end JsonValue

end Snippets
