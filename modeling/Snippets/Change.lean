import Snippets.Edit

/-!
# Changes

A change is what a batch did to a document, in the coordinates before it. It carries offsets across
the batch: an offset at an insertion stays on the side of it that the caller asks for.
-/

namespace Snippets

/-- Where an offset goes that sits at inserted text. -/
inductive Side where
  | before
  | after
  deriving DecidableEq, Repr

/-- The edits that were made, sorted, and who asked for them. -/
structure Change where
  edits : List Edit
  origin : Origin
  deriving DecidableEq, Repr

namespace Change

def ofBatch (b : Batch) : Change := ⟨sortStable Edit.le b.edits, b.origin⟩

def delta (c : Change) : Int := Word.signed (Edit.growth c.edits)

/-- Walks the sorted edits with the growth so far. Edits that end before the offset move it; an edit
whose range holds the offset puts it at one end of the inserted text; later edits do not matter. -/
def mapFrom (offset : Nat) (side : Side) : List Edit → Int → Nat
  | [], grown => Word.offset (offset + grown)
  | e :: rest, grown =>
    if offset < e.span.start then Word.offset (offset + grown)
    else if e.span.finish < offset ∨ (offset = e.span.finish ∧ e.span.start < e.span.finish) then
      mapFrom offset side rest (grown + e.delta)
    else match side with
      | .before => Word.offset (e.span.start + grown)
      | .after => Word.offset (e.span.start + grown + e.text.length)

def mapOffset (c : Change) (offset : Nat) (side : Side) : Nat := mapFrom offset side c.edits 0

/-- Makes the edits one by one from the last to the first, so that earlier offsets stay valid. -/
def applyTo (c : Change) (t : Text) : Text :=
  c.edits.foldr (fun e t => Text.splice t e.span e.text) t

end Change

end Snippets
