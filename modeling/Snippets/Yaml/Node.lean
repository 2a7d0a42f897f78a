import Snippets.Yaml.Token

/-!
# YAML nodes

The tree that the tokens of a YAML text build. A node with an anchor has a number, the count of the
names in use when it begins, and its name is bound to that number. An alias keeps the number that
its name is bound to where it is written, and stands for the last node of the document with that
number: a name that is bound anew leaves its number to the next anchor.
-/

namespace Snippets.Yaml

inductive Node where
  | scalar (tag : Option Text) (style : Style) (text : Text)
  | sequence (items : List Node)
  | mapping (entries : List (Node × Node))
  | alias (number : Nat)
  deriving Repr

def Node.blank (tag : Option Text) : Node := .scalar tag .plain []

/-- A document: its topmost node and, in the order in which they begin, the nodes with a number. -/
structure Tree where
  root : Node
  numbered : List (Nat × Node)
  deriving Repr

/-- The node that a node stands for. Only an alias stands for another, which is no alias. -/
def Tree.follow (t : Tree) : Node → Node
  | .alias number => (t.numbered.reverse.lookup number).getD (.blank none)
  | n => n

/-- What is left of the tokens, the handles of the document, the numbers of the anchors in use and
the nodes with a number so far. -/
structure Feed where
  tokens : List Token
  handles : List (Text × Uri) := []
  anchors : List (Text × Nat) := []
  numbered : List (Nat × Node) := []

namespace Feed

def next (f : Feed) : Option Token := f.tokens.head?

def drop (f : Feed) : Feed := { f with tokens := f.tokens.tail }

/-- Numbers a node that begins, if it has an anchor. The node is blank until it ends. -/
def begin (anchor : Option Text) (f : Feed) : Feed :=
  match anchor with
  | none => f
  | some name =>
    let number := f.anchors.length
    { f with
      anchors := (name, number) :: f.anchors.filter (·.1 != name)
      numbered := f.numbered ++ [(number, .blank none)] }

/-- Keeps a node that has been read, if it has an anchor; `before` nodes were numbered ahead of
it. -/
def finish (anchor : Option Text) (before : Nat) (read : Node × Feed) : Node × Feed :=
  match anchor with
  | none => read
  | some _ =>
    let (n, f) := read
    (n, { f with numbered := f.numbered.modify before fun (number, _) => (number, n) })

def anchor (f : Feed) : Option Text × Feed :=
  match f.next with
  | some (.anchor a) => (some a, f.drop)
  | _ => (none, f)

def tag? (f : Feed) : Option (Option Text × Feed) :=
  match f.next with
  | some (.tag handle suffix) =>
    if handle.isEmpty then some (some suffix.text, f.drop)
    else (f.handles.lookup handle).map fun expansion =>
      (some (Uri.text (expansion ++ suffix)), f.drop)
  | _ => some (none, f)

def properties? (f : Feed) : Option (Option Text × Option Text × Feed) := do
  match f.next with
  | some (.tag _ _) =>
    let (tag, f) ← f.tag?
    let (anchor, f) := f.anchor
    return (anchor, tag, f)
  | _ =>
    let (anchor, f) := f.anchor
    let (tag, f) ← f.tag?
    return (anchor, tag, f)

def atAny (f : Feed) (ends : List Token) : Bool := f.next.any ends.contains

end Feed

mutual

/-- A node. Blocks may begin only where `block` allows it; `dashes` allows a sequence that is not
indented. Each token costs at most three units of fuel. -/
def node? : Nat → Bool → Bool → Feed → Option (Node × Feed)
  | 0, _, _, _ => none
  | fuel + 1, block, dashes, f =>
    match f.next with
    | some (.alias name) => (f.anchors.lookup name).map fun number => (.alias number, f.drop)
    | _ => do
      let (anchor, tag, f) ← f.properties?
      let inside := f.begin anchor
      let read ← match f.next, block, dashes with
        | some (.scalar style text), _, _ => some (.scalar tag style text, inside.drop)
        | some .entry, _, true => dashes? fuel inside
        | some .flowSequence, _, _ => flowItems? fuel true inside.drop
        | some .flowMapping, _, _ => flowEntries? fuel true inside.drop
        | some .blockSequence, true, _ => blockItems? fuel inside.drop
        | some .blockMapping, true, _ => blockEntries? fuel inside.drop
        | _, _, _ => if anchor.isSome || tag.isSome then some (.blank tag, inside) else none
      return Feed.finish anchor f.numbered.length read

def nodeUnless? : Nat → List Token → Bool → Bool → Feed → Option (Node × Feed)
  | 0, _, _, _, _ => none
  | fuel + 1, ends, block, dashes, f =>
    if f.atAny ends then some (.blank none, f) else node? fuel block dashes f

def dashes? : Nat → Feed → Option (Node × Feed)
  | 0, _ => none
  | fuel + 1, f =>
    if f.next == some .entry then do
      let (item, f) ← nodeUnless? fuel [.entry, .key, .value, .blockEnd] true false f.drop
      match ← dashes? fuel f with
      | (.sequence items, f) => return (.sequence (item :: items), f)
      | _ => none
    else some (.sequence [], f)

def blockItems? : Nat → Feed → Option (Node × Feed)
  | 0, _ => none
  | fuel + 1, f =>
    match f.next with
    | some .entry => do
      let (item, f) ← nodeUnless? fuel [.entry, .blockEnd] true false f.drop
      match ← blockItems? fuel f with
      | (.sequence items, f) => return (.sequence (item :: items), f)
      | _ => none
    | some .blockEnd => some (.sequence [], f.drop)
    | _ => none

def blockEntries? : Nat → Feed → Option (Node × Feed)
  | 0, _ => none
  | fuel + 1, f =>
    match f.next with
    | some .key => do
      let (key, f) ← nodeUnless? fuel [.key, .value, .blockEnd] true true f.drop
      let (value, f) ←
        if f.next == some .value then
          nodeUnless? fuel [.key, .value, .blockEnd] true true f.drop
        else some (.blank none, f)
      match ← blockEntries? fuel f with
      | (.mapping entries, f) => return (.mapping ((key, value) :: entries), f)
      | _ => none
    | some .blockEnd => some (.mapping [], f.drop)
    | _ => none

/-- A key and its value as an item of a sequence in brackets, after the key token. -/
def flowPair? : Nat → Feed → Option (Node × Feed)
  | 0, _ => none
  | fuel + 1, f => do
    let (key, f) ←
      if f.atAny [.value, .comma, .flowSequenceEnd] then some (.blank none, f.drop)
      else node? fuel false false f
    let (value, f) ←
      if f.next == some .value then
        nodeUnless? fuel [.comma, .flowSequenceEnd] false false f.drop
      else some (.blank none, f)
    return (.mapping [(key, value)], f)

def flowItems? : Nat → Bool → Feed → Option (Node × Feed)
  | 0, _, _ => none
  | fuel + 1, first, f =>
    if f.next == some .flowSequenceEnd then some (.sequence [], f.drop)
    else if !first && f.next != some .comma then none
    else do
      let f := if first then f else f.drop
      if f.next == some .flowSequenceEnd then return (.sequence [], f.drop)
      let (item, f) ←
        if f.next == some .key then flowPair? fuel f.drop else node? fuel false false f
      match ← flowItems? fuel false f with
      | (.sequence items, f) => return (.sequence (item :: items), f)
      | _ => none

def flowEntries? : Nat → Bool → Feed → Option (Node × Feed)
  | 0, _, _ => none
  | fuel + 1, first, f =>
    if f.next == some .flowMappingEnd then some (.mapping [], f.drop)
    else if !first && f.next != some .comma then none
    else do
      let f := if first then f else f.drop
      if f.next == some .flowMappingEnd then return (.mapping [], f.drop)
      let ((key, value), f) ←
        if f.next == some .key then do
          let (key, f) ← nodeUnless? fuel [.value, .comma, .flowMappingEnd] false false f.drop
          let (value, f) ←
            if f.next == some .value then
              nodeUnless? fuel [.comma, .flowMappingEnd] false false f.drop
            else some (.blank none, f)
          some ((key, value), f)
        else do
          let (key, f) ← node? fuel false false f
          some ((key, Node.blank none), f)
      match ← flowEntries? fuel false f with
      | (.mapping entries, f) => return (.mapping ((key, value) :: entries), f)
      | _ => none

end

/-- The directives in front of a document: one version at most, which has to be 1.1 or 1.2, and each
handle once. -/
def directives? : List Token → Bool → List (Text × Uri) → Option (List (Text × Uri) × List Token)
  | .version major minor :: rest, versioned, handles =>
    if versioned || major != 1 || (minor != 1 && minor != 2) then none
    else directives? rest true handles
  | .handle name expansion :: rest, versioned, handles =>
    if (handles.lookup name).isSome then none
    else directives? rest versioned ((name, expansion) :: handles)
  | rest, _, handles => some (handles, rest)

def knownHandles : List (Text × Uri) :=
  [("!", "!"), ("!!", "tag:yaml.org,2002:")].map fun (name, expansion) =>
    (name.toList, Uri.ofText expansion.toList)

def isOver (tokens : List Token) : Bool := tokens.all (· == .documentEnd)

/-- The one document of a text; `none` inside the result stands for a text without any. -/
def document? (t : Text) : Option (Option Tree) := do
  let tokens ← tokens? t
  if tokens.isEmpty then return none
  let (handles, rest) ← directives? tokens false []
  let feed (tokens : List Token) : Feed := { tokens, handles := handles ++ knownHandles }
  let fuel := 3 * tokens.length + 3
  let (n, f) ← match rest with
    | .documentStart :: rest =>
      match rest with
      | [] => some (.blank none, feed [])
      | .documentStart :: _ => none
      | .documentEnd :: _ => some (.blank none, feed rest)
      | _ => node? fuel true false (feed rest)
    | _ => if rest.length < tokens.length then none else node? fuel true false (feed rest)
  if isOver f.tokens then return some ⟨n, f.numbered⟩ else none

end Snippets.Yaml
