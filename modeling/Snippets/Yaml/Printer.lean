import Snippets.Yaml.Number
import Snippets.Yaml.Scalar

/-!
# Writing YAML scalars

A scalar is written plain where that reads back as the same text, a text of several lines as a
literal block, a text that could be taken for another kind of value in single quotes, and all else
in double quotes with escapes.
-/

namespace Snippets.Yaml

def nullWords : List Text := ["null", "Null", "NULL", "~"].map String.toList

def truthWords : List Text :=
  ["true", "True", "TRUE", "false", "False", "FALSE"].map String.toList

/-- A text that a reader could take for another kind of value. -/
def isAmbiguous (t : Text) : Bool :=
  t.isEmpty || nullWords.contains t || truthWords.contains t || isInteger t || isReal t ||
    isZeroPadded t

def isPrintable (c : Char) : Bool :=
  let n := c.toNat
  n == 0x0A || (0x20 ≤ n && n ≤ 0x7E) || (0xA0 ≤ n && n ≤ 0xD7FF) ||
    (0xE000 ≤ n && n ≤ 0xFFFD && n != 0xFEFF) || 0x10000 ≤ n

def hasPair (p q : Char → Bool) : Text → Bool
  | a :: b :: rest => (p a && q b) || hasPair p q (b :: rest)
  | _ => false

/-- A colon that ends a word, or a number sign that begins one. -/
def hasInnerIndicator : Text → Bool
  | a :: b :: rest =>
    (b == ':' && endsWord rest.head?) || (b == '#' && endsWord (some a)) ||
      hasInnerIndicator (b :: rest)
  | _ => false

def hasLeadingIndicator : Text → Bool
  | [] => false
  | c :: rest =>
    ['#', ',', '[', ']', '\x7b', '\x7d', '&', '*', '!', '|', '>', '\'', '"', '%', '@',
      '\x60'].contains c || ((c == '?' || c == ':' || c == '-') && endsWord rest.head?)

def isSpace (c : Char) : Bool := c == ' '

def allowsPlain (t : Text) : Bool :=
  t.all (fun c => isPrintable c && !isBreak c) && !t.head?.any isSpace && !t.getLast?.any isSpace &&
    t.take 3 != ['-', '-', '-'] && t.take 3 != ['.', '.', '.'] && !hasLeadingIndicator t &&
    !hasInnerIndicator t

def allowsSingle (t : Text) : Bool :=
  t.all isPrintable && !hasPair isSpace isBreak t && !hasPair isBreak isSpace t

def allowsLiteral (t : Text) : Bool :=
  t.all isPrintable && !hasPair isSpace isBreak t && !t.getLast?.any isSpace

def chooseStyle (t : Text) : Style :=
  let quoted := if allowsSingle t then Style.singleQuoted else .doubleQuoted
  if t.contains '\n' then (if allowsLiteral t then .literal else .doubleQuoted)
  else if isAmbiguous t then quoted
  else if allowsPlain t then .plain
  else quoted

def hexadecimal (width n : Nat) : Text :=
  let digits := (Nat.toDigits 16 n).map Char.toUpper
  List.replicate (width - digits.length) '0' ++ digits

def escapeOf (c : Char) : Text :=
  match c with
  | '\x00' => ['0']
  | '\x07' => ['a']
  | '\x08' => ['b']
  | '\t' => ['t']
  | '\n' => ['n']
  | '\x0b' => ['v']
  | '\x0c' => ['f']
  | '\r' => ['r']
  | '\x1b' => ['e']
  | '"' => ['"']
  | '\\' => ['\\']
  | '\u0085' => ['N']
  | '\u2028' => ['L']
  | '\u2029' => ['P']
  | c =>
    let n := c.toNat
    if n ≤ 0xFF then 'x' :: hexadecimal 2 n
    else if n ≤ 0xFFFF then 'u' :: hexadecimal 4 n
    else 'U' :: hexadecimal 8 n

def printDouble (t : Text) : Text :=
  '"' :: t.flatMap (fun c =>
    if !isPrintable c || isBreak c || c == '"' || c == '\\' then '\\' :: escapeOf c
    else [c]) ++ ['"']

/-- Lines at an indent; an empty line is not indented. The flag tells that a line begins here. -/
def printLines (indent : Nat) (printChar : Char → Text) : Bool → Text → Text
  | _, [] => []
  | begins, c :: rest =>
    if isBreak c then c :: printLines indent printChar true rest
    else
      (if begins then List.replicate indent ' ' else []) ++ printChar c ++
        printLines indent printChar false rest

def printSingle (indent : Nat) (t : Text) : Text :=
  let closing := if t.getLast?.any isBreak then List.replicate indent ' ' else []
  '\'' :: printLines indent (fun c => if c == '\'' then ['\'', '\''] else [c]) false t ++ closing ++
    ['\'']

/-- The indicators of a literal block: an indent if the text begins with white space, and what
becomes of the line breaks at its end. -/
def literalHeader (indent : Nat) (t : Text) : Text :=
  let stated := if t.head?.any fun c => isSpace c || isBreak c then Nat.toDigits 10 indent else []
  let chomping := match t.reverse with
    | [] => ['-']
    | [last] => if isBreak last then ['+'] else ['-']
    | last :: before :: _ =>
      if !isBreak last then ['-'] else if isBreak before then ['+'] else []
  '|' :: stated ++ chomping

def printScalar (indent : Nat) (t : Text) : Text :=
  match chooseStyle t with
  | .plain => t ++ ['\n']
  | .singleQuoted => printSingle indent t ++ ['\n']
  | .doubleQuoted => printDouble t ++ ['\n']
  | _ =>
    let ending := if t.getLast?.any isBreak then [] else ['\n']
    literalHeader indent t ++ '\n' :: printLines indent (fun c => [c]) true t ++ ending

end Snippets.Yaml
