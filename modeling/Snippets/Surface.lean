import Snippets.Change
import Snippets.Selection
import Snippets.Lines

/-!
# Editor surfaces

What the engine needs of the text editor that it works in. The editor owns the document and may
refuse a batch.
-/

namespace Snippets

inductive Refusal where
  | unavailable
  | rejected (fault : Fault)
  deriving DecidableEq, Repr

def Refusal.message : Refusal → String
  | unavailable => "The document is unavailable"
  | rejected fault => "Rejected edit batch: " ++ fault.message

/-- An editor surface with state `σ`. Offsets count characters. -/
class Surface (σ : Type) where
  length : σ → Nat
  /-- The characters of a range, cut to the document. -/
  slice : σ → Span → Text
  selection : σ → Selection
  /-- Replaces the selection, cut to the document. -/
  select : σ → Selection → σ
  positionAt : σ → Nat → Position
  offsetAt : σ → Position → Nat
  /-- Asks for a batch as one step. -/
  apply : σ → Batch → Except Refusal Change × σ

def Surface.linePrefix {σ : Type} [Surface σ] (s : σ) (offset : Nat) : Text :=
  let offset := min offset (Surface.length s)
  let start := Surface.offsetAt s ⟨(Surface.positionAt s offset).line, 0⟩
  Surface.slice s ⟨start, offset⟩

end Snippets
