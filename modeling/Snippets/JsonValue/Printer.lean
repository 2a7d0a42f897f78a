import Snippets.JsonValue

/-!
# Writing JSON

One item or field a line, two blanks of indent a level.
-/

namespace Snippets.JsonValue

def printChar (c : Char) : Text :=
  match c with
  | '"' => ['\\', '"']
  | '\\' => ['\\', '\\']
  | '\x08' => ['\\', 'b']
  | '\x0c' => ['\\', 'f']
  | '\n' => ['\\', 'n']
  | '\r' => ['\\', 'r']
  | '\t' => ['\\', 't']
  | c =>
    if c < ' ' then
      ['\\', 'u', '0', '0', Nat.digitChar (c.toNat / 16), Nat.digitChar (c.toNat % 16)]
    else [c]

def printString (t : Text) : Text := '"' :: t.flatMap printChar ++ ['"']

def newLine (level : Nat) : Text := '\n' :: List.replicate (2 * level) ' '

mutual

/-- Writes a value that stands at an indent level. What has no value is written as null. -/
def print (level : Nat) : JsonValue → Text
  | .null => "null".toList
  | .bool b => (if b then "true" else "false").toList
  | .number n => (n.elim "null" toString).toList
  | .string t => t.elim "null".toList printString
  | .array [] => "[]".toList
  | .array (item :: items) =>
    '[' :: newLine (level + 1) ++ print (level + 1) item ++ printItems (level + 1) items ++
      newLine level ++ [']']
  | .object [] => "\x7b\x7d".toList
  | .object ((name, value) :: fields) =>
    '\x7b' :: newLine (level + 1) ++ printField (level + 1) name value ++
      printFields (level + 1) fields ++ newLine level ++ ['\x7d']

def printField (level : Nat) (name : Option Text) (value : JsonValue) : Text :=
  printString (name.getD []) ++ ':' :: ' ' :: print level value

def printItems (level : Nat) : List JsonValue → Text
  | [] => []
  | item :: items => ',' :: newLine level ++ print level item ++ printItems level items

def printFields (level : Nat) : List (Option Text × JsonValue) → Text
  | [] => []
  | (name, value) :: fields =>
    ',' :: newLine level ++ printField level name value ++ printFields level fields

end

end Snippets.JsonValue
