import Snippets.Numeral
import Snippets.Yaml.Cursor

/-!
# YAML scalars

Plain, quoted and block scalars. Inside plain and quoted ones a run of line breaks is folded: the
first becomes a blank, or nothing when more follow.
-/

namespace Snippets.Yaml

inductive Style where
  | plain
  | singleQuoted
  | doubleQuoted
  | literal
  | folded
  deriving DecidableEq, Repr

/-- The white space between two words of a scalar: blanks of one line, or line breaks. -/
structure Gap where
  blanks : Text := []
  broken : Bool := false
  first : Text := []
  more : Text := []
  deriving Repr

namespace Gap

def fold (g : Gap) : Text :=
  if g.broken then
    if g.first == ['\n'] then (if g.more.isEmpty then [' '] else g.more) else g.first ++ g.more
  else g.blanks

/-- Reads white space. A tab must not indent a line up to `indent`. -/
def read? (indent : Nat) : Nat → Gap → Cursor → Option (Gap × Cursor)
  | 0, _, _ => none
  | fuel + 1, g, c =>
    match c.peek 0 with
    | none => some (g, c)
    | some ch =>
      if isBlank ch then
        if g.broken && c.column < indent && ch == '\t' then none
        else
          let g := if g.broken then g else { g with blanks := g.blanks ++ [ch] }
          read? indent fuel g (c.skip 1)
      else if isBreak ch then
        let (lineBreak, c) := c.takeBreak
        read? indent fuel
          (if g.broken then { g with more := g.more ++ lineBreak }
            else { broken := true, first := lineBreak }) c
      else some (g, c)

end Gap

def isFlowIndicator (c : Char) : Bool :=
  c == ',' || c == '[' || c == ']' || c == '\x7b' || c == '\x7d'

/-- The characters up to white space, a colon that ends a key, or inside brackets an indicator. A
colon directly in front of an indicator is refused there. -/
def plainRun? (flow : Bool) : Text → Option Text
  | [] => some []
  | c :: rest =>
    if isBlank c || isBreak c then some []
    else if flow && c == ':' && rest.head?.any fun d => isFlowIndicator d || d == '?' then none
    else if c == ':' && endsWord rest.head? then some []
    else if flow && isFlowIndicator c then some []
    else (plainRun? flow rest).map (c :: ·)

/-- Reads a plain scalar line by line. The flag of the result tells whether line breaks follow
it. -/
def plain? (flow : Bool) (indent : Nat) :
    Nat → Text → Gap → Cursor → Option (Text × Bool × Cursor)
  | 0, _, _, _ => none
  | fuel + 1, read, gap, c =>
    if c.atDocumentMark || c.peek 0 == some '#' then some (read, gap.broken, c)
    else
      match plainRun? flow c.rest with
      | none => none
      | some [] => some (read, gap.broken, c)
      | some run =>
        let read := read ++ gap.fold ++ run
        match Gap.read? indent (c.rest.length + 1) {} (c.skip run.length) with
        | none => none
        | some (gap, next) =>
          if next.offset == c.offset + byteLength run then some (read, false, next)
          else if !flow && next.column < indent then some (read, gap.broken, next)
          else plain? flow indent fuel read gap next

def codeEscape? (count : Nat) (t : Text) : Option (Char × Text) := do
  let digits := t.take count
  if digits.length < count then none
  let n ← numeral? 16 digits
  if (0xD800 ≤ n && n ≤ 0xDFFF) || 0x10FFFF < n then none
  return (Char.ofNat n, t.drop count)

def letterEscape? : Char → Option Char
  | '0' => some '\x00'
  | 'a' => some '\x07'
  | 'b' => some '\x08'
  | 't' => some '\t'
  | '\t' => some '\t'
  | 'n' => some '\n'
  | 'v' => some '\x0b'
  | 'f' => some '\x0c'
  | 'r' => some '\r'
  | 'e' => some '\x1b'
  | ' ' => some ' '
  | '"' => some '"'
  | '/' => some '/'
  | '\\' => some '\\'
  | 'N' => some '\u0085'
  | '_' => some '\u00a0'
  | 'L' => some '\u2028'
  | 'P' => some '\u2029'
  | _ => none

def escape? : Text → Option (Char × Text)
  | 'x' :: rest => codeEscape? 2 rest
  | 'u' :: rest => codeEscape? 4 rest
  | 'U' :: rest => codeEscape? 8 rest
  | c :: rest => (letterEscape? c).map (·, rest)
  | [] => none

/-- Characters of a quoted scalar up to white space or the closing quote. The flag of the result
tells that an escaped line break ended them. -/
def quotedRun? (single : Bool) : Nat → Cursor → Option (Text × Bool × Cursor)
  | 0, _ => none
  | fuel + 1, c =>
    match c.rest with
    | [] => some ([], false, c)
    | ch :: rest =>
      if isBlank ch || isBreak ch then some ([], false, c)
      else if single && ch == '\'' && rest.head? == some '\'' then
        (quotedRun? single fuel (c.skip 2)).map fun (run, r) => ('\'' :: run, r)
      else if ch == (if single then '\'' else '"') then some ([], false, c)
      else if !single && ch == '\\' then
        if rest.head?.any isBreak then some ([], true, (c.skip 1).takeBreak.2)
        else
          match escape? rest with
          | none => none
          | some (meant, after) =>
            (quotedRun? single fuel (c.skip (1 + rest.length - after.length))).map
              fun (run, r) => (meant :: run, r)
      else (quotedRun? single fuel (c.skip 1)).map fun (run, r) => (ch :: run, r)

def quoted? (single : Bool) : Nat → Text → Cursor → Option (Text × Cursor)
  | 0, _, _ => none
  | fuel + 1, read, c =>
    if c.atDocumentMark || c.rest.isEmpty then none
    else
      match quotedRun? single (c.rest.length + 1) c with
      | none => none
      | some (run, escapedBreak, c) =>
        if c.peek 0 == some (if single then '\'' else '"') then some (read ++ run, c.skip 1)
        else
          match Gap.read? 0 (c.rest.length + 1) { broken := escapedBreak } c with
          | none => none
          | some (gap, c) => quoted? single fuel (read ++ run ++ gap.fold) c

inductive Chomping where
  | strip
  | clip
  | keep
  deriving DecidableEq, Repr

def chomping? : Option Char → Option Chomping
  | some '+' => some .keep
  | some '-' => some .strip
  | _ => none

def statedIndent? (c : Cursor) : Option (Nat × Cursor) :=
  match c.peek 0 with
  | some d =>
    if d == '0' then none
    else if d.isDigit then some (d.toNat - '0'.toNat, c.skip 1)
    else some (0, c)
  | none => some (0, c)

/-- The indicators of a block scalar in either order: chomping, and an indent or 0. -/
def blockHeader? (c : Cursor) : Option (Chomping × Nat × Cursor) := do
  match chomping? (c.peek 0) with
  | some chomping =>
    let (indent, c) ← statedIndent? (c.skip 1)
    return (chomping, indent, c)
  | none =>
    let (indent, c) ← statedIndent? c
    match if indent == 0 then none else chomping? (c.peek 0) with
    | some chomping => return (chomping, indent, c.skip 1)
    | none => return (.clip, indent, c)

/-- Reads indentation and empty lines up to the next line with content. The result holds the line
breaks and the deepest indentation. An indent of 0 is not known yet. -/
def blockBreaks? (indent : Nat) : Nat → Text → Nat → Cursor → Option (Text × Nat × Cursor)
  | 0, _, _, _ => none
  | fuel + 1, breaks, deepest, c =>
    let blanks := (c.rest.takeWhile (· == ' ')).length
    let c := c.skip (if indent == 0 then blanks else min blanks (indent - c.column))
    let deepest := max deepest c.column
    if (indent == 0 || c.column < indent) && c.peek 0 == some '\t' then none
    else if (c.peek 0).any isBreak then
      let (lineBreak, c) := c.takeBreak
      blockBreaks? indent fuel (breaks ++ lineBreak) deepest c
    else some (breaks, deepest, c)

/-- The lines of a block scalar. `last` is the break behind the line before, `breaks` those of empty
lines after it, and `blank` tells whether the line before began with a blank. -/
def blockLines? (literal : Bool) (indent : Nat) :
    Nat → Text → Text → Text → Bool → Cursor → Option (Text × Text × Text × Cursor)
  | 0, _, _, _, _, _ => none
  | fuel + 1, read, last, breaks, blank, c =>
    if c.column == indent && !c.rest.isEmpty then
      let startsBlank := (c.peek 0).any isBlank
      let joined :=
        if !literal && last == ['\n'] && !blank && !startsBlank then
          (if breaks.isEmpty then [' '] else breaks)
        else last ++ breaks
      let line := c.rest.takeWhile fun ch => !isBreak ch
      let (last, c) := c.skipLine.takeBreak
      match blockBreaks? indent (c.rest.length + 1) [] 0 c with
      | none => none
      | some (breaks, _, c) =>
        blockLines? literal indent fuel (read ++ joined ++ line) last breaks startsBlank c
    else some (read, last, breaks, c)

def block? (literal : Bool) (parent : Int) (c : Cursor) : Option (Text × Cursor) := do
  let (chomping, stated, c) ← blockHeader? c
  let c ← c.takeLineEnd?
  let fuel := c.rest.length + 2
  let wanted := if stated == 0 then 0 else parent.toNat + stated
  let (breaks, deepest, c) ← blockBreaks? wanted fuel [] 0 c
  let indent := if wanted == 0 then max (max deepest (parent + 1).toNat) 1 else wanted
  let (read, last, breaks, c) ← blockLines? literal indent fuel [] [] breaks false c
  return match chomping with
    | .strip => (read, c)
    | .clip => (read ++ last, c)
    | .keep => (read ++ last ++ breaks, c)

end Snippets.Yaml
