import Snippets.Definition

/-!
# Triggers

Registered snippets by trigger. A trie answers exact look-ups; a text is looked up by trying its
suffixes from the longest that a trigger can be.
-/

namespace Snippets

/-- A trie of words: the first letter, the value of the word that ends with it, the words that go
on, and the words that begin with another letter. -/
inductive Trie (α : Type) where
  | empty
  | branch (letter : Char) (value : Option α) (longer others : Trie α)
  deriving Repr

namespace Trie

variable {α : Type}

def single : Text → α → Trie α
  | [], _ => .empty
  | [c], a => .branch c (some a) .empty .empty
  | c :: word, a => .branch c none (single word a) .empty

/-- Sets the value of a word. The empty word has no place. -/
def insert : Trie α → Text → α → Trie α
  | .empty, word, a => single word a
  | t, [], _ => t
  | .branch letter value longer others, c :: word, a =>
    if letter = c then
      if word = [] then .branch letter (some a) longer others
      else .branch letter value (longer.insert word a) others
    else .branch letter value longer (others.insert (c :: word) a)

def find? : Trie α → Text → Option α
  | .branch letter value longer others, c :: word =>
    if letter = c then
      if word = [] then value else longer.find? word
    else others.find? (c :: word)
  | _, _ => none

def size : Trie α → Nat
  | .empty => 0
  | .branch _ value longer others => value.toList.length + longer.size + others.size

end Trie

/-- Definitions by trigger, with the least and greatest length of a trigger (0 when there is
none). -/
structure TriggerIndex where
  trie : Trie Definition
  shortest : Nat
  longest : Nat

namespace TriggerIndex

def empty : TriggerIndex := ⟨.empty, 0, 0⟩

/-- Registers definitions in order. A later one takes the place of an earlier one with its trigger,
and an empty trigger is passed over. -/
def ofList (definitions : List Definition) : TriggerIndex :=
  let kept := definitions.filter fun d => !d.trigger.isEmpty
  let lengths := kept.map fun d => d.trigger.length
  ⟨kept.foldl (fun t d => t.insert d.trigger d) .empty, lengths.min?.getD 0, lengths.max?.getD 0⟩

def get? (i : TriggerIndex) (trigger : Text) : Option Definition := i.trie.find? trigger

def size (i : TriggerIndex) : Nat := i.trie.size

/-- The longest suffix of a text that is a trigger. Suffixes shorter than every trigger are not
tried. -/
def longestSuffix? (i : TriggerIndex) : Text → Option Definition
  | [] => none
  | c :: rest =>
    if rest.length + 1 < i.shortest then none
    else (i.get? (c :: rest)).or (longestSuffix? i rest)

/-- The definition whose trigger is the longest suffix of the text. Only as many characters as a
trigger can have are looked at. -/
def lookup (i : TriggerIndex) (text : Text) : Option Definition :=
  i.longestSuffix? (text.drop (text.length - i.longest))

end TriggerIndex

end Snippets
