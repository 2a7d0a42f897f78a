import Snippets.Text
import Snippets.Sorting

/-!
# Edits

Edits and batches of edits. A batch is checked as a whole: every range is upright and inside the
document, and no two edits touch the same characters or start with an insertion at one offset.
-/

namespace Snippets

inductive Origin where
  | user
  | expansion
  | choice
  | sync (op : Nat)
  deriving DecidableEq, Repr

def Origin.isEngine : Origin → Bool
  | .user => false
  | _ => true

structure Edit where
  span : Span
  text : Text
  deriving DecidableEq, Repr

namespace Edit

def delta (e : Edit) : Int :=
  Word.signed (e.text.length - ((e.span.finish : Int) - e.span.start))

def growth : List Edit → Int
  | [] => 0
  | e :: rest => e.delta + growth rest

def le (a b : Edit) : Bool :=
  a.span.start < b.span.start || (a.span.start == b.span.start && a.span.finish ≤ b.span.finish)

theorem le_total (a b : Edit) : le a b || le b a := by
  simp only [le, Bool.or_eq_true, Bool.and_eq_true, decide_eq_true_eq, beq_iff_eq]
  omega

theorem le_trans (a b c : Edit) (h : le a b) (k : le b c) : le a c := by
  simp only [le, Bool.or_eq_true, Bool.and_eq_true, decide_eq_true_eq, beq_iff_eq] at *
  omega

end Edit

/-- Edits to be made as one step, all in the coordinates of the document before it. -/
structure Batch where
  edits : List Edit
  origin : Origin
  deriving DecidableEq, Repr

inductive Fault where
  | inverted (span : Span)
  | outside (span : Span) (length : Nat)
  | overlapping (first second : Span)
  deriving DecidableEq, Repr

namespace Fault

def spanText (s : Span) : String := toString s.start ++ ".." ++ toString s.finish

def message : Fault → String
  | inverted s => "Inverted edit range " ++ spanText s
  | outside s n => "Edit range " ++ spanText s ++ " exceeds document length " ++ toString n
  | overlapping a b => "Overlapping edits " ++ spanText a ++ " and " ++ spanText b

end Fault

namespace Edit

def rangeFault? (length : Nat) : List Edit → Option Fault
  | [] => none
  | e :: rest =>
    if e.span.finish < e.span.start then some (.inverted e.span)
    else if length < e.span.finish then some (.outside e.span length)
    else rangeFault? length rest

/-- The first clash between neighbours. Two insertions at one offset clash. -/
def overlapFault? : List Edit → Option Fault
  | a :: b :: rest =>
    if b.span.start < a.span.finish ∨ (a.span.start = b.span.start ∧ a.span.IsEmpty) then
      some (.overlapping a.span b.span)
    else overlapFault? (b :: rest)
  | _ => none

end Edit

/-- The first fault of a batch for a document of the given length: edits are looked at in sorted
order, and every range is checked before any pair. -/
def Batch.fault? (b : Batch) (length : Nat) : Option Fault :=
  let sorted := sortStable Edit.le b.edits
  (Edit.rangeFault? length sorted).or (Edit.overlapFault? sorted)

end Snippets
