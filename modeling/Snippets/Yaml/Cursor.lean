import Snippets.Text

/-!
# A place in a YAML text

What is left to read, with the line and column that decide how it is read. Line breaks of all kinds
but the two Unicode separators are read as a line feed.
-/

namespace Snippets.Yaml

def isBlank (c : Char) : Bool := c == ' ' || c == '\t'

def isSeparator (c : Char) : Bool := c == '\u2028' || c == '\u2029'

def isBreak (c : Char) : Bool := c == '\n' || c == '\r' || c == '\u0085' || isSeparator c

def isWordChar (c : Char) : Bool := c.isAlphanum || c == '_' || c == '-'

def endsWord : Option Char → Bool
  | none => true
  | some c => isBlank c || isBreak c

def isAllowed (c : Char) : Bool :=
  let n := c.toNat
  n == 0x09 || n == 0x0A || n == 0x0D || (0x20 ≤ n && n ≤ 0x7E) || n == 0x85 ||
    (0xA0 ≤ n && n ≤ 0xD7FF) || (0xE000 ≤ n && n ≤ 0xFFFD) || 0x10000 ≤ n

def byteLength (t : Text) : Nat := t.foldl (fun n c => n + c.utf8Size) 0

structure Cursor where
  rest : Text
  /-- Bytes that were read, counted in UTF-8. -/
  offset : Nat := 0
  line : Nat := 0
  column : Nat := 0
  deriving Repr

namespace Cursor

def peek (c : Cursor) (ahead : Nat) : Option Char := c.rest[ahead]?

def skip (c : Cursor) (count : Nat) : Cursor :=
  let passed := c.rest.take count
  { c with
    rest := c.rest.drop count
    offset := c.offset + byteLength passed
    column := c.column + passed.length }

def skipWhile (c : Cursor) (p : Char → Bool) : Cursor := c.skip (c.rest.takeWhile p).length

def takeBreak (c : Cursor) : Text × Cursor :=
  let next (rest : Text) (size : Nat) : Cursor := ⟨rest, c.offset + size, c.line + 1, 0⟩
  match c.rest with
  | '\r' :: '\n' :: rest => (['\n'], next rest 2)
  | b :: rest =>
    if isSeparator b then ([b], next rest b.utf8Size)
    else if isBreak b then (['\n'], next rest b.utf8Size)
    else ([], c)
  | [] => ([], c)

def skipLine (c : Cursor) : Cursor := c.skipWhile fun ch => !isBreak ch

def atMark (c : Cursor) (mark : Char) : Bool :=
  c.column == 0 && c.rest.take 3 == [mark, mark, mark] && endsWord (c.peek 3)

def atDocumentMark (c : Cursor) : Bool := c.atMark '-' || c.atMark '.'

/-- After a directive or the head of a block scalar: blanks, a comment and the end of the line. -/
def takeLineEnd? (c : Cursor) : Option Cursor :=
  let c := c.skipWhile isBlank
  let c := if c.peek 0 == some '#' then c.skipLine else c
  match c.peek 0 with
  | none => some c
  | some ch => if isBreak ch then some c.takeBreak.2 else none

end Cursor

end Snippets.Yaml
