import Snippets.Text

/-!
# Lines

Lines of a text and the two ways of naming a place in it: a character offset, or a line and a
column, both counted from 0. Lines keep their break at the end, so they add up to the text; the pair
of carriage return and line feed is one break.
-/

namespace Snippets

structure Position where
  line : Nat
  column : Nat
  deriving DecidableEq, Repr

namespace Lines

/-- The characters that end a line: line feed, vertical tab, form feed, carriage return, next line,
line separator and paragraph separator. -/
def isBreak (c : Char) : Bool :=
  c == '\n' || c == '\x0b' || c == '\x0c' || c == '\r' || c == '\u0085' || c == '\u2028' ||
    c == '\u2029'

def extendFirst (c : Char) : List Text → List Text
  | [] => [[c]]
  | line :: rest => (c :: line) :: rest

/-- Cuts a text after every break. The last line has no break and may be empty. -/
def ofText : Text → List Text
  | [] => [[]]
  | '\r' :: '\n' :: rest => ['\r', '\n'] :: ofText rest
  | c :: rest => if isBreak c then [c] :: ofText rest else extendFirst c (ofText rest)

/-- The place of an offset. An offset at the end of a line that has a break is on the next line. -/
def positionAt : List Text → Nat → Position
  | line :: next :: rest, offset =>
    if offset < line.length then ⟨0, offset⟩
    else
      let p := positionAt (next :: rest) (offset - line.length)
      ⟨p.line + 1, p.column⟩
  | _, offset => ⟨0, offset⟩

/-- The columns of a line: all of it but a final line feed. -/
def width (line : Text) : Nat :=
  if line.getLast? = some '\n' then line.length - 1 else line.length

/-- The offset of a place. A column past the width is cut to it, a line past the last one is the end
of the text. -/
def offsetAt : List Text → Position → Nat
  | [], _ => 0
  | line :: _, ⟨0, column⟩ => min column (width line)
  | line :: rest, ⟨n + 1, column⟩ => line.length + offsetAt rest ⟨n, column⟩

end Lines

end Snippets
