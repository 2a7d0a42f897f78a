import Snippets.Yaml.Scalar

/-!
# YAML tokens

The indicators, scalars and block boundaries of a YAML text. Indentation opens and closes blocks; a
key is recognised only at the colon behind it, so its token goes in front of what was read since it
began.
-/

namespace Snippets.Yaml

/-- What a tag is written with: characters, and `none` for octets that are no character. -/
abbrev Uri := List (Option Char)

namespace Uri

def ofText (t : Text) : Uri := t.map some

/-- A NUL ends what it stands in. -/
def cut (u : Uri) : Uri := u.takeWhile (· != some '\x00')

/-- The text of a tag; one with octets that are no character says nothing. -/
def text (u : Uri) : Text := (u.mapM id).getD []

end Uri

inductive Token where
  | version (major minor : Nat)
  | handle (name : Text) (expansion : Uri)
  | documentStart
  | documentEnd
  | blockSequence
  | blockMapping
  | blockEnd
  | flowSequence
  | flowSequenceEnd
  | flowMapping
  | flowMappingEnd
  | entry
  | comma
  | key
  | value
  | alias (name : Text)
  | anchor (name : Text)
  | tag (handle : Text) (suffix : Uri)
  | scalar (style : Style) (text : Text)
  deriving DecidableEq, Repr

def anchorName? (c : Cursor) : Option (Text × Cursor) :=
  let name := c.rest.takeWhile isWordChar
  let c := c.skip name.length
  let ends := match c.peek 0 with
    | none => true
    | some ch =>
      isBlank ch || isBreak ch || ['?', ':', ',', ']', '\x7d', '%', '@', '\x60'].contains ch
  if name.isEmpty || !ends then none else some (name, c)

def isUriChar (verbatim : Bool) (c : Char) : Bool :=
  isWordChar c || [';', '/', '?', ':', '@', '&', '=', '+', '$', '.', '!', '~', '*', '\'', '(',
    ')'].contains c || (verbatim && [',', '[', ']'].contains c)

def octet? : Text → Option (Nat × Text)
  | '%' :: a :: b :: rest => do return (← numeral? 16 [a, b], rest)
  | _ => none

def continuation? : Nat → Nat → Text → Option (Nat × Text)
  | 0, n, t => some (n, t)
  | count + 1, n, t => do
    let (octet, rest) ← octet? t
    if octet / 0x40 != 2 then none
    continuation? count (0x40 * n + octet % 0x40) rest

def characterOf? (octets n : Nat) : Option Char :=
  let c := Char.ofNat n
  if c.toNat = n ∧ c.utf8Size = octets then some c else none

def octets? (t : Text) : Option (Option Char × Text) := do
  let (first, rest) ← octet? t
  let (count, bits) ←
    if first < 0x80 then some (1, first)
    else if first / 0x20 == 6 then some (2, first % 0x20)
    else if first / 0x10 == 14 then some (3, first % 0x10)
    else if first / 0x08 == 30 then some (4, first % 0x08)
    else none
  let (n, rest) ← continuation? (count - 1) bits rest
  return (characterOf? count n, rest)

def uri? (verbatim : Bool) : Nat → Cursor → Option (Uri × Cursor)
  | 0, _ => none
  | fuel + 1, c =>
    match c.rest with
    | '%' :: _ =>
      match octets? c.rest with
      | none => none
      | some (meant, after) =>
        (uri? verbatim fuel (c.skip (c.rest.length - after.length))).map
          fun (uri, c) => (meant :: uri, c)
    | ch :: _ =>
      if isUriChar verbatim ch then
        (uri? verbatim fuel (c.skip 1)).map fun (uri, c) => (some ch :: uri, c)
      else some ([], c)
    | [] => some ([], c)

def readHandle (c : Cursor) : Text × Cursor :=
  let name := (c.skip 1).rest.takeWhile isWordChar
  let c := c.skip (1 + name.length)
  if c.peek 0 == some '!' then ('!' :: name ++ ['!'], c.skip 1) else ('!' :: name, c)

def isFullHandle (handle : Text) : Bool := 1 < handle.length && handle.getLast? == some '!'

/-- A tag, beginning with its exclamation mark: handle and suffix. The mark alone is a tag too. -/
def tag? (flow : Bool) (c : Cursor) : Option (Token × Cursor) := do
  let fuel := c.rest.length + 1
  let (handle, suffix, c) ←
    if c.peek 1 == some '<' then do
      let (suffix, c) ← uri? true fuel (c.skip 2)
      if suffix.isEmpty || c.peek 0 != some '>' then none
      pure (([] : Text), suffix.cut, c.skip 1)
    else do
      let (handle, c) := readHandle c
      let (suffix, c) ← uri? false fuel c
      if isFullHandle handle then
        if suffix.isEmpty then none
        pure (handle, suffix.cut, c)
      else
        let suffix := (Uri.ofText (handle.drop 1) ++ suffix).cut
        pure (if suffix.isEmpty then ([], [some '!'], c) else (['!'], suffix, c))
  if !endsWord (c.peek 0) && !(flow && c.peek 0 == some ',') then none
  return (.tag handle suffix, c)

def versionNumber? (c : Cursor) : Option (Nat × Cursor) :=
  let digits := c.rest.takeWhile Char.isDigit
  if digits.isEmpty || 9 < digits.length then none
  else some (numeral digits, c.skip digits.length)

def directive? (c : Cursor) : Option (Token × Cursor) := do
  let name := c.rest.takeWhile isWordChar
  let c := c.skip name.length
  if !endsWord (c.peek 0) then none
  let c := c.skipWhile isBlank
  if name == "YAML".toList then
    let (major, c) ← versionNumber? c
    if c.peek 0 != some '.' then none
    let (minor, c) ← versionNumber? (c.skip 1)
    return (.version major minor, ← c.takeLineEnd?)
  else if name == "TAG".toList then
    if c.peek 0 != some '!' then none
    let (handle, c) := readHandle c
    if handle.length != 1 && !isFullHandle handle then none
    if !(c.peek 0).any isBlank then none
    let (expansion, c) ← uri? true (c.rest.length + 1) (c.skipWhile isBlank)
    if expansion.isEmpty || !endsWord (c.peek 0) then none
    return (.handle handle expansion.cut, ← c.takeLineEnd?)
  else none

/-- A place where a key may have begun, with the number of tokens in front of it. -/
structure PossibleKey where
  cursor : Cursor
  position : Nat
  /-- The place decides where its block is indented, so a colon has to follow. -/
  required : Bool
  deriving Repr

structure Lexer where
  cursor : Cursor
  /-- Tokens so far, the last one first. -/
  tokens : List Token := []
  indent : Int := -1
  /-- The indents of the blocks around. -/
  outer : List Int := []
  keyAllowed : Bool := true
  /-- Where a key may have begun, for the innermost brackets. -/
  possible : Option PossibleKey := none
  /-- The same for each pair of brackets around, and for the block. -/
  enclosing : List (Option PossibleKey) := []
  deriving Repr

namespace Lexer

def inFlow (s : Lexer) : Bool := !s.enclosing.isEmpty

def add (s : Lexer) (t : Token) : Lexer := { s with tokens := t :: s.tokens }

def insertAt (position : Nat) (t : Token) (tokens : List Token) : List Token :=
  let behind := tokens.length - position
  tokens.take behind ++ t :: tokens.drop behind

/-- A key that began on an earlier line, or too far back, is none; a required one is missed then. -/
def expire? (here : Cursor) : Option PossibleKey → Option (Option PossibleKey)
  | none => some none
  | some k =>
    if k.cursor.line < here.line || k.cursor.offset + 1024 < here.offset then
      if k.required then none else some none
    else some (some k)

def expireKeys? (s : Lexer) : Option Lexer := do
  return { s with
    possible := ← expire? s.cursor s.possible
    enclosing := ← s.enclosing.mapM (expire? s.cursor) }

def dropKey? (s : Lexer) : Option Lexer :=
  if s.possible.any (·.required) then none else some { s with possible := none }

def noteKey? (s : Lexer) : Option Lexer :=
  if s.keyAllowed then do
    let s ← s.dropKey?
    let required := !s.inFlow && s.indent == s.cursor.column
    return { s with possible := some ⟨s.cursor, s.tokens.length, required⟩ }
  else some s

/-- Opens a block that is indented deeper, in front of the tokens from a position on. -/
def openBlock (s : Lexer) (column position : Nat) (t : Token) : Lexer :=
  if !s.inFlow && s.indent < column then
    { s with
      outer := s.indent :: s.outer
      indent := column
      tokens := insertAt position t s.tokens }
  else s

def closeBlocks (column : Int) (s : Lexer) : Lexer :=
  if s.inFlow then s
  else
    let rec go (indent : Int) : List Int → List Token → Int × List Int × List Token
      | [], tokens => (indent, [], tokens)
      | next :: outer, tokens =>
        if column < indent then go next outer (.blockEnd :: tokens)
        else (indent, next :: outer, tokens)
    let (indent, outer, tokens) := go s.indent s.outer s.tokens
    { s with indent, outer, tokens }

def advance (s : Lexer) (count : Nat) : Lexer := { s with cursor := s.cursor.skip count }

/-- Passes over blanks, comments, line breaks and a byte order mark that begins a line. A tab may
not stand where a key may begin in a block. -/
def skipGap : Nat → Lexer → Lexer
  | 0, s => s
  | fuel + 1, s =>
    let c :=
      if s.cursor.column == 0 && s.cursor.peek 0 == some '\ufeff' then s.cursor.skip 1
      else s.cursor
    let c := c.skipWhile fun ch => ch == ' ' || ((s.inFlow || !s.keyAllowed) && ch == '\t')
    let c := if c.peek 0 == some '#' then c.skipLine else c
    if (c.peek 0).any isBreak then
      skipGap fuel { s with cursor := c.takeBreak.2, keyAllowed := s.keyAllowed || !s.inFlow }
    else { s with cursor := c }

def endBlocks? (s : Lexer) : Option Lexer := do
  let s ← (s.closeBlocks (-1)).dropKey?
  return { s with keyAllowed := false }

def openFlow? (s : Lexer) (t : Token) : Option Lexer := do
  let s ← s.noteKey?
  return { (s.add t).advance 1 with
    keyAllowed := true, possible := none, enclosing := s.possible :: s.enclosing }

def closeFlow? (s : Lexer) (t : Token) : Option Lexer := do
  let s ← s.dropKey?
  let s := { (s.add t).advance 1 with keyAllowed := false }
  return match s.enclosing with
    | [] => s
    | k :: enclosing => { s with possible := k, enclosing }

def comma? (s : Lexer) : Option Lexer := do
  let s ← s.dropKey?
  return { (s.add .comma).advance 1 with keyAllowed := true }

def entry? (s : Lexer) : Option Lexer := do
  if !s.inFlow && !s.keyAllowed then none
  let s ← (s.openBlock s.cursor.column s.tokens.length .blockSequence).dropKey?
  return { (s.add .entry).advance 1 with keyAllowed := true }

def key? (s : Lexer) : Option Lexer := do
  if !s.inFlow && !s.keyAllowed then none
  let s ← (s.openBlock s.cursor.column s.tokens.length .blockMapping).dropKey?
  return { (s.add .key).advance 1 with keyAllowed := !s.inFlow }

def value? (s : Lexer) : Option Lexer :=
  match s.possible with
  | some k =>
    let s := { s with tokens := insertAt k.position .key s.tokens }
    let s := s.openBlock k.cursor.column k.position .blockMapping
    some { (s.add .value).advance 1 with possible := none, keyAllowed := false }
  | none =>
    if !s.inFlow && !s.keyAllowed then none
    else
      let s := s.openBlock s.cursor.column s.tokens.length .blockMapping
      some { (s.add .value).advance 1 with keyAllowed := !s.inFlow }

def content? (s : Lexer) (read : Lexer → Option (Token × Cursor)) : Option Lexer := do
  let s ← s.noteKey?
  let (t, cursor) ← read s
  return { s.add t with cursor, keyAllowed := false }

def blockScalar? (s : Lexer) (style : Style) : Option Lexer := do
  let s ← s.dropKey?
  let (text, cursor) ← block? (style == .literal) s.indent (s.cursor.skip 1)
  return { s.add (.scalar style text) with cursor, keyAllowed := true }

def quotedScalar? (s : Lexer) (style : Style) : Option Lexer :=
  s.content? fun s => do
    let c := s.cursor.skip 1
    let (text, c) ← quoted? (style == .singleQuoted) (c.rest.length + 1) [] c
    return (.scalar style text, c)

/-- A plain scalar that line breaks follow leaves the lexer at a place where a key may begin. -/
def plainScalar? (s : Lexer) : Option Lexer := do
  let s ← s.noteKey?
  let c := s.cursor
  let (text, broken, cursor) ← plain? s.inFlow (s.indent + 1).toNat (c.rest.length + 1) [] {} c
  return { s.add (.scalar .plain text) with cursor, keyAllowed := broken }

def isIndicator (c : Char) : Bool :=
  ['-', '?', ':', ',', '[', ']', '\x7b', '\x7d', '#', '&', '*', '!', '|', '>', '\'', '"', '%', '@',
    '\x60'].contains c

def startsPlain (s : Lexer) (c : Char) : Bool :=
  !isBlank c && !isBreak c &&
    (!isIndicator c || (c == '-' && !(s.cursor.peek 1).any isBlank) ||
      (!s.inFlow && (c == '?' || c == ':') && !endsWord (s.cursor.peek 1)))

def read? (s : Lexer) (c : Char) : Option Lexer :=
  let alone := endsWord (s.cursor.peek 1)
  if s.cursor.column == 0 && c == '%' then do
    let s ← s.endBlocks?
    let (t, cursor) ← directive? (s.cursor.skip 1)
    return { s.add t with cursor }
  else if s.cursor.atDocumentMark then do
    let s ← s.endBlocks?
    return (s.add (if c == '-' then .documentStart else .documentEnd)).advance 3
  else if c == '[' then s.openFlow? .flowSequence
  else if c == '\x7b' then s.openFlow? .flowMapping
  else if c == ']' then s.closeFlow? .flowSequenceEnd
  else if c == '\x7d' then s.closeFlow? .flowMappingEnd
  else if c == ',' then s.comma?
  else if c == '-' && alone then s.entry?
  else if c == '?' && (s.inFlow || alone) then s.key?
  else if c == ':' && (s.inFlow || alone) then s.value?
  else if c == '*' then
    s.content? fun s => (anchorName? (s.cursor.skip 1)).map fun (name, c) => (.alias name, c)
  else if c == '&' then
    s.content? fun s => (anchorName? (s.cursor.skip 1)).map fun (name, c) => (.anchor name, c)
  else if c == '!' then s.content? fun s => tag? s.inFlow s.cursor
  else if c == '|' && !s.inFlow then s.blockScalar? .literal
  else if c == '>' && !s.inFlow then s.blockScalar? .folded
  else if c == '\'' then s.quotedScalar? .singleQuoted
  else if c == '"' then s.quotedScalar? .doubleQuoted
  else if s.startsPlain c then s.plainScalar?
  else none

def run? : Nat → Lexer → Option (List Token)
  | 0, _ => none
  | fuel + 1, s => do
    let s ← (skipGap (s.cursor.rest.length + 1) s).expireKeys?
    let s := s.closeBlocks s.cursor.column
    match s.cursor.peek 0 with
    | none => do
      let s ← (s.closeBlocks (-1)).dropKey?
      return s.tokens.reverse
    | some c => do
      let s ← s.read? c
      run? fuel s

end Lexer

def tokens? (t : Text) : Option (List Token) :=
  if t.all isAllowed then Lexer.run? (t.length + 1) { cursor := { rest := t } } else none

end Snippets.Yaml
