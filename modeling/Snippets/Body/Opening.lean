import Snippets.Body
import Snippets.Numeral

/-!
# Openings

What follows a dollar sign, up to the point where a default would start. This part of the grammar
does not nest, so it is read by plain recursion on the characters.
-/

namespace Snippets.Body

/-- The head of a dollar form. The last two are still open: a default and a closing brace follow. -/
inductive Opening where
  | stop (index : Nat)
  | choice (index : Nat) (first : Text) (others : List Text)
  | variable (name : Text)
  | stopOver (index : Nat)
  | variableOver (name : Text)
  deriving DecidableEq, Repr

namespace Opening

def isOpen : Opening → Bool
  | stopOver _ => true
  | variableOver _ => true
  | _ => false

/-- The piece that an opening stands for, in front of the rest of a body. The default of a form that
has none is ignored. -/
def close : Opening → Body → Body → Body
  | stop index, _, rest => .stop index rest
  | choice index first others, _, rest => .choice index first others rest
  | .variable name, _, rest => .variable name rest
  | stopOver index, fallback, rest => .stopOver index fallback rest
  | variableOver name, fallback, rest => .variableOver name fallback rest

end Opening

def index? (t : Text) : Option (Nat × Text) :=
  let n := numeral (t.takeWhile Char.isDigit)
  if n < indexLimit then some (n, t.dropWhile Char.isDigit) else none

def extendFirst (c : Char) (options : Text × List Text × Text) : Text × List Text × Text :=
  (c :: options.1, options.2)

/-- Options between commas up to an unescaped pipe: the first one, the others and what follows. -/
def options? : Text → Option (Text × List Text × Text)
  | [] => none
  | ['\\'] => none
  | '\\' :: c :: rest =>
    if isChoiceEscape c then (options? rest).map (extendFirst c)
    else (options? (c :: rest)).map (extendFirst '\\')
  | ',' :: rest => (options? rest).map fun (first, others, after) => ([], first :: others, after)
  | '|' :: rest => some ([], [], rest)
  | c :: rest => (options? rest).map (extendFirst c)

/-- A choice list after its first pipe. One empty option is no choice. -/
def choice? (index : Nat) (t : Text) : Option (Opening × Text) :=
  match options? t with
  | some (first, others, '}' :: after) =>
    if first = [] ∧ others = [] then none else some (.choice index first others, after)
  | _ => none

def braced? (t : Text) : Option (Opening × Text) :=
  match t with
  | [] => none
  | c :: _ =>
    if c.isDigit then
      match index? t with
      | some (index, '}' :: after) => some (.stop index, after)
      | some (index, ':' :: after) => some (.stopOver index, after)
      | some (index, '|' :: after) => choice? index after
      | _ => none
    else if isNameChar c then
      match t.dropWhile isNameChar with
      | '}' :: after => some (.variable (t.takeWhile isNameChar), after)
      | ':' :: after => some (.variableOver (t.takeWhile isNameChar), after)
      | _ => none
    else none

/-- The head of a dollar form, after the dollar sign. Braces count only where they may still
nest. -/
def opening? (braces : Bool) (t : Text) : Option (Opening × Text) :=
  match t with
  | [] => none
  | '{' :: rest => if braces then braced? rest else none
  | c :: _ =>
    if c.isDigit then (index? t).map fun (index, after) => (.stop index, after)
    else if isNameChar c then some (.variable (t.takeWhile isNameChar), t.dropWhile isNameChar)
    else none

end Snippets.Body
