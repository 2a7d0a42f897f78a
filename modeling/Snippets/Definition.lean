import Snippets.Template.Rendering

/-!
# Definitions

A registered snippet: a body and the trigger that stands for it while typing.
-/

namespace Snippets

structure Definition where
  trigger : Text
  body : Text
  description : Option Text := none
  priority : Int := 0
  /-- A hidden snippet expands but is not offered in lists. -/
  hidden : Bool := false
  deriving DecidableEq, Repr

namespace Definition

/-- The body without values or indent: the reading that was kept, or else one that is made now. It
is kept from then on. -/
def keepReading (d : Definition) (kept : Option Template) : Template × Option Template :=
  let reading := kept.getD (.parse d.body)
  (reading, some reading)

/-- The template for insertion, and the reading that is kept. Without variables and without a line
to indent, the plain reading of the body already is that template. -/
def prepare (d : Definition) (kept : Option Template) (resolve : Resolver) (indent : Text) :
    Template × Option Template :=
  let (reading, kept) := d.keepReading kept
  if reading.vars.isEmpty && (indent.isEmpty || !reading.text.contains '\n') then (reading, kept)
  else (.instantiate d.body resolve indent, kept)

def parsed (d : Definition) : Template := (d.keepReading none).1

def instantiate (d : Definition) (resolve : Resolver) (indent : Text) : Template :=
  (d.prepare none resolve indent).1

theorem prepare_eq (d : Definition) (kept : Option Template) (resolve : Resolver) (indent : Text) :
    d.prepare kept resolve indent =
      (if (d.keepReading kept).1.vars.isEmpty &&
          (indent.isEmpty || !(d.keepReading kept).1.text.contains '\n') then (d.keepReading kept).1
        else .instantiate d.body resolve indent, (d.keepReading kept).2) := by
  unfold prepare
  cases d.keepReading kept with
  | mk reading kept' =>
    dsimp only
    split
    · rfl
    · rfl

theorem instantiate_cases (d : Definition) (resolve : Resolver) (indent : Text) :
    d.instantiate resolve indent = .parse d.body ∨
      d.instantiate resolve indent = .instantiate d.body resolve indent := by
  rw [instantiate, prepare_eq]
  dsimp only
  split
  · exact Or.inl rfl
  · exact Or.inr rfl

end Definition

end Snippets
