import Snippets.Text

/-!
# Snippet bodies

The tree of a snippet body: characters, tab stops, choices and variables in order. A stop or
variable may stand over a default, which is a body of its own.
-/

namespace Snippets

/-- A body as its first piece followed by the rest. -/
inductive Body where
  | done
  | char (c : Char) (rest : Body)
  | stop (index : Nat) (rest : Body)
  | stopOver (index : Nat) (fallback rest : Body)
  | choice (index : Nat) (first : Text) (others : List Text) (rest : Body)
  | variable (name : Text) (rest : Body)
  | variableOver (name : Text) (fallback rest : Body)
  deriving DecidableEq, Repr

namespace Body

/-- Braced forms nest this deep; a deeper one is plain text. -/
def maxDepth : Nat := 32

def indexLimit : Nat := 4294967296

def isNameChar (c : Char) : Bool := c.isAlphanum || c == '_'

def isTextEscape (c : Char) : Bool := c == '$' || c == '{' || c == '}' || c == '\\'

def isChoiceEscape (c : Char) : Bool :=
  c == ',' || c == '|' || c == '\\' || c == '$' || c == '}'

end Body

end Snippets
