import Snippets.JsonValue
import Snippets.Numeral

/-!
# Reading JSON

The strict grammar: no comments, no trailing commas, no byte order mark. Nesting has no limit.
-/

namespace Snippets.JsonValue

def isBlank (c : Char) : Bool := c == ' ' || c == '\n' || c == '\t' || c == '\r'

def skipBlanks (t : Text) : Text := t.dropWhile isBlank

/-- Part of a string: a character, or a code unit that an escape spells in hexadecimal. -/
inductive Piece where
  | char (c : Char)
  | unit (n : Nat)
  deriving DecidableEq, Repr

def escaped? : Char → Option Char
  | '"' => some '"'
  | '\\' => some '\\'
  | '/' => some '/'
  | 'b' => some '\x08'
  | 'f' => some '\x0c'
  | 'n' => some '\n'
  | 'r' => some '\r'
  | 't' => some '\t'
  | _ => none

/-- The pieces of a string after its opening quote, and what follows the closing one. A control
character has to be escaped. -/
def pieces? : Text → Option (List Piece × Text)
  | [] => none
  | c :: rest =>
    if c = '"' then some ([], rest)
    else if c = '\\' then
      match rest with
      | 'u' :: a :: b :: c :: d :: after =>
        match numeral? 16 [a, b, c, d], pieces? after with
        | some n, some (pieces, rest) => some (.unit n :: pieces, rest)
        | _, _ => none
      | e :: after =>
        match escaped? e, pieces? after with
        | some c, some (pieces, rest) => some (.char c :: pieces, rest)
        | _, _ => none
      | [] => none
    else if c < ' ' then none
    else (pieces? rest).map fun (pieces, rest) => (.char c :: pieces, rest)

def isHighSurrogate (n : Nat) : Bool := 0xD800 ≤ n && n < 0xDC00

def isLowSurrogate (n : Nat) : Bool := 0xDC00 ≤ n && n < 0xE000

/-- The text of a string: two code units that form a pair are one character, half a pair is none. -/
def join? : List Piece → Option Text
  | [] => some []
  | .char c :: rest => (join? rest).map (c :: ·)
  | .unit n :: rest =>
    if isHighSurrogate n then
      match rest with
      | .unit m :: rest =>
        if isLowSurrogate m then
          (join? rest).map (Char.ofNat (0x10000 + 0x400 * (n - 0xD800) + (m - 0xDC00)) :: ·)
        else none
      | _ => none
    else if isLowSurrogate n then none
    else (join? rest).map (Char.ofNat n :: ·)

def string? (t : Text) : Option (Option Text × Text) :=
  (pieces? t).map fun (pieces, rest) => (join? pieces, rest)

def digits? (t : Text) : Option (Text × Text) :=
  let digits := t.takeWhile Char.isDigit
  if digits.isEmpty then none else some (digits, t.dropWhile Char.isDigit)

/-- Skips a fraction: a point and digits. The flag tells whether there was one. -/
def fraction? : Text → Option (Bool × Text)
  | '.' :: rest => (digits? rest).map fun (_, rest) => (true, rest)
  | t => some (false, t)

def exponent? : Text → Option (Bool × Text)
  | e :: rest =>
    if e = 'e' ∨ e = 'E' then
      let rest := match rest with
        | '+' :: rest => rest
        | '-' :: rest => rest
        | _ => rest
      (digits? rest).map fun (_, rest) => (true, rest)
    else some (false, e :: rest)
  | [] => some (false, [])

/-- A number without its sign. No digit may follow a leading zero; a negative zero is no integer. -/
def unsigned? (negative : Bool) (t : Text) : Option (Option Int × Text) := do
  let (digits, rest) ← digits? t
  if digits.head? == some '0' && digits.length != 1 then none
  let (fraction, rest) ← fraction? rest
  let (exponent, rest) ← exponent? rest
  let n := numeral digits
  let value : Option Int :=
    if fraction || exponent || (negative && n == 0) then none
    else some (if negative then -n else n)
  return (value, rest)

def number? : Text → Option (Option Int × Text)
  | '-' :: rest => unsigned? true rest
  | t => unsigned? false t

def afterWord? (word : String) (t : Text) : Option Text :=
  if word.toList.isPrefixOf t then some (t.drop word.length) else none

mutual

/-- A value and what follows it. Two units of fuel are enough for each character. -/
def value? : Nat → Text → Option (JsonValue × Text)
  | 0, _ => none
  | fuel + 1, t =>
    match skipBlanks t with
    | [] => none
    | c :: rest =>
      if c = '"' then (string? rest).map fun (s, rest) => (.string s, rest)
      else if c = '[' then
        match skipBlanks rest with
        | ']' :: rest => some (.array [], rest)
        | rest => (items? fuel rest).map fun (items, rest) => (.array items, rest)
      else if c = '\x7b' then
        match skipBlanks rest with
        | '\x7d' :: rest => some (.object [], rest)
        | rest => (fields? fuel rest).map fun (fields, rest) => (.object fields, rest)
      else if c = 't' then (afterWord? "rue" rest).map fun rest => (.bool true, rest)
      else if c = 'f' then (afterWord? "alse" rest).map fun rest => (.bool false, rest)
      else if c = 'n' then (afterWord? "ull" rest).map fun rest => (.null, rest)
      else (number? (c :: rest)).map fun (n, rest) => (.number n, rest)

def items? : Nat → Text → Option (List JsonValue × Text)
  | 0, _ => none
  | fuel + 1, t =>
    match value? fuel t with
    | none => none
    | some (item, rest) =>
      match skipBlanks rest with
      | ',' :: rest => (items? fuel rest).map fun (items, rest) => (item :: items, rest)
      | ']' :: rest => some ([item], rest)
      | _ => none

def fields? : Nat → Text → Option (List (Option Text × JsonValue) × Text)
  | 0, _ => none
  | fuel + 1, t =>
    match skipBlanks t with
    | '"' :: rest =>
      match string? rest with
      | none => none
      | some (name, rest) =>
        match skipBlanks rest with
        | ':' :: rest =>
          match value? fuel rest with
          | none => none
          | some (value, rest) =>
            match skipBlanks rest with
            | ',' :: rest =>
              (fields? fuel rest).map fun (fields, rest) => ((name, value) :: fields, rest)
            | '\x7d' :: rest => some ([(name, value)], rest)
            | _ => none
        | _ => none
    | _ => none

end

def read? (t : Text) : Option JsonValue :=
  match value? (2 * t.length + 2) t with
  | some (v, rest) => if (skipBlanks rest).isEmpty then some v else none
  | none => none

end Snippets.JsonValue
