import Snippets.Text

/-!
# Settings

What the user can choose.
-/

namespace Snippets

/-- When the stops of a group are synced: after every edit in one of them, or when navigation leaves
one. -/
inductive SyncMode where
  | realtime
  | onJump
  deriving DecidableEq, Repr

structure Settings where
  syncMode : SyncMode := .onJump
  /-- The lines of a snippet take the indent of the line where it is inserted. -/
  indentMultiline : Bool := true
  /-- Paths of snippet files, in the order in which they are loaded. -/
  snippetFiles : List Text := []
  deriving DecidableEq, Repr

end Snippets
