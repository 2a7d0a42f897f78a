import Snippets.Proofs.KeptReadings
import Snippets.Proofs.Nesting

/-!
# Indentation

Main statement: an indent only shifts a template. It stands after every line feed of the text and of
the defaults that variables report, offsets move by the indents in front of them, and nothing else
changes, whatever the body and the values are.
-/

namespace Snippets

/-- Where an offset of a text goes when the text is indented: one indent further for every line feed
in front of it. -/
def indentedOffset (indent t : Text) (offset : Nat) : Nat :=
  offset + indent.length * (t.take offset).count '\n'

section

variable (indent a b : Text)

theorem indentLines_append :
    indentLines indent (a ++ b) = indentLines indent a ++ indentLines indent b :=
  List.flatMap_append

theorem length_indentLines (t : Text) :
    (indentLines indent t).length = t.length + indent.length * t.count '\n' := by
  induction t with
  | nil => rfl
  | cons c t ih =>
    have hcons : indentLines indent (c :: t) =
        (if c = '\n' then c :: indent else [c]) ++ indentLines indent t := rfl
    rw [hcons, List.length_append, ih, List.length_cons, List.count_cons]
    by_cases hc : c = '\n'
    · simp only [hc, if_true, List.length_cons, beq_self_eq_true, Nat.mul_add, Nat.mul_one]
      omega
    · simp only [hc, if_false, List.length_singleton, beq_iff_eq, Nat.add_zero]
      omega

theorem indentedOffset_length (t : Text) :
    indentedOffset indent t t.length = (indentLines indent t).length := by
  rw [indentedOffset, List.take_length, length_indentLines]

theorem indentedOffset_append {offset : Nat} (h : offset ≤ a.length) :
    indentedOffset indent (a ++ b) offset = indentedOffset indent a offset := by
  rw [indentedOffset, indentedOffset, List.take_append_of_le_length h]

theorem indentedOffset_behind (offset : Nat) : indentedOffset indent (a ++ b) (a.length + offset) =
    (indentLines indent a).length + indentedOffset indent b offset := by
  rw [indentedOffset, indentedOffset, length_indentLines, List.take_length_add_append,
    List.count_append, Nat.mul_add]
  omega

theorem indentedOffset_le_iff (t : Text) {x y : Nat} :
    indentedOffset indent t x ≤ indentedOffset indent t y ↔ x ≤ y := by
  have hfeeds {x y : Nat} (h : x ≤ y) :
      indent.length * (t.take x).count '\n' ≤ indent.length * (t.take y).count '\n' :=
    Nat.mul_le_mul_left _ ((List.take_prefix_take_left h).sublist.count_le _)
  unfold indentedOffset
  constructor
  · intro hle
    by_contra hlt
    have := hfeeds (Nat.le_of_not_le hlt)
    omega
  · intro hle
    have := hfeeds hle
    omega

end

def Span.indented (indent t : Text) (s : Span) : Span :=
  ⟨indentedOffset indent t s.start, indentedOffset indent t s.finish⟩

def TabStop.indented (indent t : Text) (s : TabStop) : TabStop :=
  { s with span := s.span.indented indent t }

def Variable.indented (indent t : Text) (v : Variable) : Variable :=
  { v with span := v.span.indented indent t, fallback := v.fallback.map (indentLines indent) }

def Template.indented (indent : Text) (t : Template) : Template :=
  ⟨indentLines indent t.text, t.stops.map (·.indented indent t.text),
    t.vars.map (·.indented indent t.text)⟩

namespace Rendering

/-- A rendering with offsets of its own, with the indent after every line feed. -/
def indented (indent : Text) (r : Rendering) : Rendering :=
  ⟨indentLines indent r.text, r.stops.map (·.indented indent r.text),
    r.vars.map (·.indented indent r.text)⟩

variable {indent : Text} {a b : Rendering}

theorem whole_indented (indent t : Text) :
    Span.indented indent t ⟨0, t.length⟩ = ⟨0, (indentLines indent t).length⟩ := by
  rw [Span.indented, indentedOffset_length, indentedOffset, List.take_zero, List.count_nil]
  rfl

theorem withStop_indented (a : Rendering) (index : Nat) (choices : Option (List Text)) :
    (a.withStop index 0 choices).indented indent =
      (a.indented indent).withStop index 0 choices := by
  simp only [indented, withStop, spanFrom, TabStop.indented, Nat.zero_add, List.map_append,
    List.map_cons, List.map_nil, whole_indented]

theorem withVariable_indented (a : Rendering) (name : Text) (fallback : Option Text) :
    (a.withVariable name 0 fallback).indented indent =
      (a.indented indent).withVariable name 0 (fallback.map (indentLines indent)) := by
  simp only [indented, withVariable, spanFrom, Variable.indented, Nat.zero_add, List.map_append,
    List.map_cons, List.map_nil, whole_indented]

/-- A range in the first of two texts does not see the second one. -/
theorem span_indented_append {s : Span} {t : Text}
    (inside : s.start ≤ s.finish ∧ s.finish ≤ t.length) (rest : Text) :
    s.indented indent (t ++ rest) = s.indented indent t := by
  rw [Span.indented, Span.indented, indentedOffset_append indent t rest inside.2,
    indentedOffset_append indent t rest (Nat.le_trans inside.1 inside.2)]

/-- A range in the second of two texts goes behind the first one. -/
theorem span_indented_behind (front t : Text) (s : Span) :
    (s.behind front.length).indented indent (front ++ t) =
      (s.indented indent t).behind (indentLines indent front).length := by
  simp only [Span.indented, Span.behind, indentedOffset_behind]

theorem followedBy_indented (nested : a.Nested []) (b : Rendering) :
    (a.followedBy b).indented indent = (a.indented indent).followedBy (b.indented indent) := by
  have hstops : a.stops.map (·.indented indent (a.text ++ b.text)) =
      a.stops.map (·.indented indent a.text) := by
    refine List.map_congr_left fun s hs => ?_
    have hin := nested.inside s.span (List.mem_append_left _ (List.mem_map_of_mem hs))
    rw [TabStop.indented, TabStop.indented, span_indented_append hin]
  have hvars : a.vars.map (·.indented indent (a.text ++ b.text)) =
      a.vars.map (·.indented indent a.text) := by
    refine List.map_congr_left fun v hv => ?_
    have hin := nested.inside v.span (List.mem_append_right _ (List.mem_map_of_mem hv))
    rw [Variable.indented, Variable.indented, span_indented_append hin]
  simp only [followedBy, append, behind, indented, List.map_append, hstops, hvars, List.map_map,
    Function.comp_def, indentLines_append]
  simp only [TabStop.indented, Variable.indented, span_indented_behind]

theorem ofText_indented (indent t : Text) :
    (ofText (indentLines [] t)).indented indent = ofText (indentLines indent t) := by
  rw [indentLines_nil]
  rfl

end Rendering

/-- What a body produces with an indent is what it produces without one, indented. -/
theorem Body.evaluate_indented (resolve : Resolver) (indent : Text) (b : Body) :
    b.evaluate resolve indent = (b.evaluate resolve []).indented indent := by
  have hshown (t : Text) := Rendering.nested_ofText [] (indentLines [] t)
  induction b with
  | done => rfl
  | char c rest ih =>
    rw [evaluate, evaluate, Rendering.followedBy_indented (hshown [c]), Rendering.ofText_indented,
      ih]
  | stop index rest ih =>
    have hempty : Rendering.empty.Nested [] := Rendering.nested_ofText [] []
    rw [evaluate, evaluate, Rendering.followedBy_indented (hempty.withStop index (Or.inl rfl)),
      Rendering.withStop_indented, ih]
    rfl
  | stopOver index fallback rest ihFallback ih =>
    have hpiece := (fallback.evaluate_nested resolve []).withStop index (Or.inl rfl)
    rw [evaluate, evaluate, Rendering.followedBy_indented hpiece, Rendering.withStop_indented,
      ihFallback, ih]
  | choice index first others rest ih =>
    have hpiece := (hshown first).withStop index (Or.inr ⟨first, others, rfl, rfl⟩)
    rw [evaluate, evaluate, Rendering.followedBy_indented hpiece, Rendering.withStop_indented,
      Rendering.ofText_indented, ih]
  | «variable» name rest ih =>
    have hpiece := (hshown ((resolve name).getD [])).withVariable name none
    rw [evaluate, evaluate, Rendering.followedBy_indented hpiece, Rendering.withVariable_indented,
      Rendering.ofText_indented, ih]
    rfl
  | variableOver name fallback rest ihFallback ih =>
    rw [evaluate, evaluate]
    cases resolve name with
    | none =>
      have hstanding := fallback.evaluate_nested resolve []
      dsimp only [Option.map_none, Option.getD_none]
      rw [Rendering.followedBy_indented (hstanding.withVariable name _),
        Rendering.withVariable_indented, ihFallback, ih]
      rfl
    | some value =>
      dsimp only [Option.map_some, Option.getD_some, Function.comp_apply]
      rw [Rendering.followedBy_indented ((hshown value).withVariable name _),
        Rendering.withVariable_indented, Rendering.ofText_indented, ihFallback, ih]
      rfl

namespace Template

variable {indent t : Text}

theorem le_indented (a b : TabStop) :
    TabStop.le (a.indented indent t) (b.indented indent t) = TabStop.le a b := by
  rw [Bool.eq_iff_iff, TabStop.le_iff, TabStop.le_iff]
  exact or_congr_right (and_congr_right' (indentedOffset_le_iff indent t))

/-- The stops that are kept are the same, since indenting keeps indices and order. -/
theorem kept_indented (r : Rendering) :
    kept (r.indented indent) = (kept r).map (·.indented indent r.text) := by
  have hsorted : sortStable TabStop.le (r.indented indent).stops =
      (sortStable TabStop.le r.stops).map (·.indented indent r.text) := by
    rw [sortStable_eq_insertionSort, sortStable_eq_insertionSort]
    refine (List.map_insertionSort _ _ _ _ fun a _ b _ => ?_).symm
    rw [le_indented]
  have hexit : exitStop (sortStable TabStop.le (r.indented indent).stops)
      (r.indented indent).text.length =
        (exitStop (sortStable TabStop.le r.stops) r.text.length).indented indent r.text := by
    rw [hsorted, exitStop, exitStop, List.find?_map]
    change Option.getD (Option.map _ ((sortStable TabStop.le r.stops).find? (·.index == 0))) _ = _
    cases (sortStable TabStop.le r.stops).find? (·.index == 0) with
    | none =>
      simp only [Option.map_none, Option.getD_none, TabStop.indented, Span.indented,
        indentedOffset_length]
      rfl
    | some exit => rfl
  rw [kept, kept, List.map_cons, hexit, hsorted, List.filter_map]
  rfl

theorem ofRendering_indented (r : Rendering) :
    ofRendering (r.indented indent) = (ofRendering r).indented indent := by
  have hrepeated : repeatedIndices ((kept r).map (·.indented indent r.text)) =
      repeatedIndices (kept r) := by
    simp only [repeatedIndices, List.map_map, Function.comp_def, TabStop.indented]
  have hstops : (ofRendering (r.indented indent)).stops =
      (ofRendering r).stops.map (·.indented indent r.text) := by
    rw [stops_ofRendering, stops_ofRendering, kept_indented, hrepeated, List.map_map, List.map_map]
    rfl
  exact congrArg (Template.mk _ · _) hstops

/-- The template of a body with an indent is the one without, indented: every line feed of the text
and of the defaults is followed by the indent, every range begins and ends as many indents further
as there are line feeds in front, and stops and variables are else the same, in the same order. -/
theorem instantiate_indented (body : Text) (resolve : Resolver) (indent : Text) :
    instantiate body resolve indent = (instantiate body resolve []).indented indent := by
  rw [instantiate_eq_evaluate, instantiate_eq_evaluate, Body.evaluate_indented,
    ofRendering_indented]

/-- A stop behind one line feed, and behind two of them another one and the exit. -/
example : (instantiate "a\n${1:b}\nc$2".toList (fun _ => none) "  ".toList).stops.map (·.span) =
    [⟨9, 9⟩, ⟨4, 5⟩, ⟨9, 9⟩] := by
  decide +kernel

end Template

end Snippets
