import Snippets.Surface

/-!
# Documents

A document held in memory, with one selection and a count of the batches it took. A `Host` is a
document whose editor can be away: it then refuses what the engine asks for.
-/

namespace Snippets

structure Document where
  text : Text
  selection : Selection
  revision : Nat
  deriving DecidableEq, Repr

namespace Document

def ofText (text : Text) : Document := ⟨text, .cursor text.length, 0⟩

def select (d : Document) (s : Selection) : Document :=
  { d with selection := s.clamp d.text.length }

/-- Makes the edits of a batch, or none of them. Both ends of the selection stay before text
inserted at them. -/
def apply (d : Document) (b : Batch) : Except Fault (Change × Document) :=
  match b.fault? d.text.length with
  | some fault => .error fault
  | none =>
    let change := Change.ofBatch b
    let text := change.applyTo d.text
    let selection : Selection :=
      ⟨change.mapOffset d.selection.anchor .before, change.mapOffset d.selection.head .before⟩
    .ok (change, ⟨text, selection.clamp text.length, d.revision + 1⟩)

def type (d : Document) (typed : Text) : Except Fault (Change × Document) :=
  (d.apply ⟨[⟨d.selection.span, typed⟩], .user⟩).map fun (change, d') =>
    (change, { d' with selection := .cursor (d.selection.span.start + typed.length) })

def backspaceSpan? (d : Document) : Option Span :=
  if d.selection.IsEmpty then
    if d.selection.head = 0 then none else some ⟨d.selection.head - 1, d.selection.head⟩
  else some d.selection.span

def backspace (d : Document) : Except Fault (Option Change × Document) :=
  match d.backspaceSpan? with
  | none => .ok (none, d)
  | some span =>
    (d.apply ⟨[⟨span, []⟩], .user⟩).map fun (change, d') =>
      (some change, { d' with selection := .cursor span.start })

def positionAt (d : Document) (offset : Nat) : Position :=
  Lines.positionAt (Lines.ofText d.text) (min offset d.text.length)

def offsetAt (d : Document) (p : Position) : Nat := Lines.offsetAt (Lines.ofText d.text) p

instance : Surface Document where
  length d := d.text.length
  slice d s := d.text.slice s
  selection := selection
  select := select
  positionAt := positionAt
  offsetAt := offsetAt
  apply d b := match d.apply b with
    | .ok (change, d') => (.ok change, d')
    | .error fault => (.error (.rejected fault), d)

end Document

/-- A document and whether its editor takes batches from the engine. -/
structure Host where
  document : Document
  available : Bool
  deriving DecidableEq, Repr

instance : Surface Host where
  length h := Surface.length h.document
  slice h s := Surface.slice h.document s
  selection h := Surface.selection h.document
  select h s := { h with document := Surface.select h.document s }
  positionAt h offset := Surface.positionAt h.document offset
  offsetAt h p := Surface.offsetAt h.document p
  apply h b :=
    if h.available then
      let (result, document) := Surface.apply h.document b
      (result, { h with document })
    else (.error .unavailable, h)

end Snippets
