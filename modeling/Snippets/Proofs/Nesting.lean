import Snippets.Proofs.Evaluation
import Snippets.Proofs.Templates

/-!
# Nested ranges

Main statement: two ranges of a template, of stops or of variables, never overlap in part. A stop
with choices shows the first of them, indented.
-/

namespace Snippets

namespace Text

theorem slice_append_of_le {t : Text} {s : Span} (h : s.finish ≤ t.length) (rest : Text) :
    Text.slice (t ++ rest) s = t.slice s := by
  rw [slice, slice, List.take_append_of_le_length h]

theorem slice_append_behind (front t : Text) (s : Span) :
    Text.slice (front ++ t) (s.behind front.length) = t.slice s := by
  rw [slice, slice, Span.behind, List.take_length_add_append, List.drop_length_add_append]

theorem slice_whole (t : Text) : t.slice ⟨0, t.length⟩ = t := by
  rw [slice, List.take_length, List.drop_zero]

end Text

def Span.Crosses (a b : Span) : Prop :=
  a.start < b.start ∧ b.start < a.finish ∧ a.finish < b.finish

instance (a b : Span) : Decidable (a.Crosses b) := inferInstanceAs (Decidable (_ ∧ _))

/-- If the stop has choices, the text in its range is the first of them, indented. -/
def TabStop.ShowsFirst (s : TabStop) (indent text : Text) : Prop :=
  ∀ choices ∈ s.choices, ∃ first, choices.head? = some first ∧
    text.slice s.span = indentLines indent first

namespace Rendering

def spans (r : Rendering) : List Span := r.stops.map (·.span) ++ r.vars.map (·.span)

/-- A rendering with offsets of its own, whose ranges lie in its text and do not overlap in part. -/
structure Nested (indent : Text) (r : Rendering) : Prop where
  inside : ∀ a ∈ r.spans, a.start ≤ a.finish ∧ a.finish ≤ r.text.length
  uncrossed : ∀ a ∈ r.spans, ∀ b ∈ r.spans, ¬ a.Crosses b
  shown : ∀ s ∈ r.stops, s.ShowsFirst indent r.text

variable {indent : Text} {a b : Rendering} {x : Span}

theorem mem_spans_followedBy : x ∈ (a.followedBy b).spans ↔
    x ∈ a.spans ∨ ∃ y ∈ b.spans, y.behind a.text.length = x := by
  simp only [spans, followedBy, append, behind, List.map_append, List.map_map, List.mem_append,
    List.mem_map, Function.comp_apply]
  constructor
  · rintro ((hx | ⟨s, hs, rfl⟩) | hx | ⟨v, hv, rfl⟩)
    · exact Or.inl (Or.inl hx)
    · exact Or.inr ⟨s.span, Or.inl ⟨s, hs, rfl⟩, rfl⟩
    · exact Or.inl (Or.inr hx)
    · exact Or.inr ⟨v.span, Or.inr ⟨v, hv, rfl⟩, rfl⟩
  · rintro ((hx | hx) | ⟨_, ⟨s, hs, rfl⟩ | ⟨v, hv, rfl⟩, rfl⟩)
    · exact Or.inl (Or.inl hx)
    · exact Or.inr (Or.inl hx)
    · exact Or.inl (Or.inr ⟨s, hs, rfl⟩)
    · exact Or.inr (Or.inr ⟨v, hv, rfl⟩)

theorem nested_ofText (indent t : Text) : (ofText t).Nested indent :=
  ⟨nofun, nofun, nofun⟩

/-- One more range over the whole text crosses none that lies in it. -/
theorem Nested.cover (h : a.Nested indent) {r : Rendering} (text : r.text = a.text)
    (spans : ∀ x ∈ r.spans, x ∈ a.spans ∨ x = ⟨0, a.text.length⟩)
    (shown : ∀ s ∈ r.stops, s.ShowsFirst indent r.text) : r.Nested indent := by
  refine ⟨fun x hx => ?_, fun x hx y hy => ?_, shown⟩
  · rw [text]
    rcases spans x hx with hx | rfl
    · exact h.inside x hx
    · exact ⟨Nat.zero_le _, Nat.le_refl _⟩
  · rcases spans x hx with hx | rfl
    · rcases spans y hy with hy | rfl
      · exact h.uncrossed x hx y hy
      · exact fun hcross => Nat.not_lt_zero _ hcross.1
    · rcases spans y hy with hy | rfl
      · have := h.inside y hy
        unfold Span.Crosses
        dsimp only
        omega
      · exact fun hcross => Nat.lt_irrefl _ hcross.1

/-- A stop is put over the whole text; if it has choices, that text is the first of them. -/
theorem Nested.withStop (h : a.Nested indent) (index : Nat) {choices : Option (List Text)}
    (chosen : choices = none ∨
      ∃ first others, choices = some (first :: others) ∧ a.text = indentLines indent first) :
    (a.withStop index 0 choices).Nested indent := by
  refine h.cover rfl (fun x hx => ?_) (fun s hs => ?_)
  · simp only [spans, Rendering.withStop, spanFrom, List.map_append, List.map_cons, List.map_nil,
      List.mem_append, List.mem_singleton, Nat.zero_add] at hx ⊢
    rcases hx with (hx | hx) | hx
    · exact Or.inl (Or.inl hx)
    · exact Or.inr hx
    · exact Or.inl (Or.inr hx)
  · rcases List.mem_append.mp hs with hs | hs
    · exact h.shown s hs
    · obtain rfl := List.mem_singleton.mp hs
      intro list hlist
      rcases chosen with rfl | ⟨first, others, rfl, htext⟩
      · cases hlist
      · cases hlist
        refine ⟨first, rfl, ?_⟩
        rw [← htext, spanFrom, Nat.zero_add]
        exact a.text.slice_whole

theorem Nested.withVariable (h : a.Nested indent) (name : Text) (fallback : Option Text) :
    (a.withVariable name 0 fallback).Nested indent := by
  refine h.cover rfl (fun x hx => ?_) h.shown
  simp only [spans, Rendering.withVariable, spanFrom, List.map_append, List.map_cons,
    List.map_nil, List.mem_append, List.mem_singleton, Nat.zero_add] at hx ⊢
  rcases hx with hx | hx | hx
  · exact Or.inl (Or.inl hx)
  · exact Or.inl (Or.inr hx)
  · exact Or.inr hx

/-- The ranges of two pieces lie on different sides of the place where the pieces meet. -/
theorem Nested.followedBy (ha : a.Nested indent) (hb : b.Nested indent) :
    (a.followedBy b).Nested indent := by
  have hlength : (a.followedBy b).text.length = a.text.length + b.text.length :=
    List.length_append
  refine ⟨fun x hx => ?_, fun x hx y hy => ?_, fun s hs => ?_⟩
  · rw [hlength]
    rcases mem_spans_followedBy.mp hx with hx | ⟨x', hx', rfl⟩
    · have := ha.inside x hx
      omega
    · have := hb.inside x' hx'
      simp only [Span.behind]
      omega
  · rcases mem_spans_followedBy.mp hx with hx | ⟨x', hx', rfl⟩
    · rcases mem_spans_followedBy.mp hy with hy | ⟨y', hy', rfl⟩
      · exact ha.uncrossed x hx y hy
      · have := ha.inside x hx
        simp only [Span.Crosses, Span.behind]
        omega
    · rcases mem_spans_followedBy.mp hy with hy | ⟨y', hy', rfl⟩
      · have := ha.inside y hy
        simp only [Span.Crosses, Span.behind]
        omega
      · have := hb.uncrossed x' hx' y' hy'
        simp only [Span.Crosses, Span.behind] at this ⊢
        omega
  · intro choices hchoices
    rcases List.mem_append.mp hs with hs | hs
    · obtain ⟨first, hhead, hslice⟩ := ha.shown s hs choices hchoices
      have hin := ha.inside s.span (List.mem_append_left _ (List.mem_map_of_mem hs))
      exact ⟨first, hhead, (Text.slice_append_of_le hin.2 b.text).trans hslice⟩
    · obtain ⟨s', hs', rfl⟩ := List.mem_map.mp hs
      obtain ⟨first, hhead, hslice⟩ := hb.shown s' hs' choices hchoices
      exact ⟨first, hhead, (Text.slice_append_behind a.text b.text s'.span).trans hslice⟩

end Rendering

theorem Body.evaluate_nested (resolve : Resolver) (indent : Text) (b : Body) :
    (b.evaluate resolve indent).Nested indent := by
  induction b with
  | done => exact Rendering.nested_ofText indent []
  | char c rest ih => exact (Rendering.nested_ofText indent _).followedBy ih
  | stop index rest ih =>
    exact ((Rendering.nested_ofText indent []).withStop index (Or.inl rfl)).followedBy ih
  | stopOver index fallback rest ihFallback ih =>
    exact (ihFallback.withStop index (Or.inl rfl)).followedBy ih
  | choice index first others rest ih =>
    exact ((Rendering.nested_ofText indent _).withStop index
      (Or.inr ⟨first, others, rfl, rfl⟩)).followedBy ih
  | «variable» name rest ih =>
    exact ((Rendering.nested_ofText indent _).withVariable name none).followedBy ih
  | variableOver name fallback rest ihFallback ih =>
    rw [evaluate]
    cases resolve name with
    | none => exact (ihFallback.withVariable name _).followedBy ih
    | some value => exact ((Rendering.nested_ofText indent _).withVariable name _).followedBy ih

namespace Template

def spans (t : Template) : List Span := t.stops.map (·.span) ++ t.vars.map (·.span)

variable {r : Rendering}

/-- A template keeps stops of its rendering, and else has one at the end of the text. -/
theorem mem_kept {s : TabStop} (h : s ∈ kept r) :
    s ∈ r.stops ∨ s = { index := 0, span := ⟨r.text.length, r.text.length⟩ } := by
  rcases List.mem_cons.mp h with rfl | h
  · rw [exitStop]
    cases hfind : (sortStable TabStop.le r.stops).find? (·.index == 0) with
    | none => exact Or.inr rfl
    | some exit => exact Or.inl (mem_sortStable.mp (List.mem_of_find?_eq_some hfind))
  · exact Or.inl (mem_sortStable.mp (List.mem_filter.mp h).1)

theorem mem_spans_ofRendering {x : Span} (h : x ∈ (ofRendering r).spans) :
    x ∈ r.spans ∨ x = ⟨r.text.length, r.text.length⟩ := by
  rcases List.mem_append.mp h with h | h
  · rw [stops_ofRendering, List.map_map] at h
    obtain ⟨s, hkept, rfl⟩ := List.mem_map.mp h
    rcases mem_kept hkept with hs | rfl
    · exact Or.inl (List.mem_append_left _ (List.mem_map.mpr ⟨s, hs, rfl⟩))
    · exact Or.inr rfl
  · exact Or.inl (List.mem_append_right _ h)

/-- No two ranges of the template of a body overlap in part, and in the range of a stop that has
choices stands the first of them, indented. -/
theorem instantiate_nested (body : Text) (resolve : Resolver) (indent : Text) :
    (∀ a ∈ (instantiate body resolve indent).spans, ∀ b ∈ (instantiate body resolve indent).spans,
        ¬ a.Crosses b) ∧
      ∀ s ∈ (instantiate body resolve indent).stops,
        s.ShowsFirst indent (instantiate body resolve indent).text := by
  have hnested := Body.evaluate_nested resolve indent (Body.read body)
  rw [instantiate_eq_evaluate]
  generalize (Body.read body).evaluate resolve indent = r at hnested ⊢
  constructor
  · intro a ha b hb
    rcases mem_spans_ofRendering ha with ha | rfl
    · rcases mem_spans_ofRendering hb with hb | rfl
      · exact hnested.uncrossed a ha b hb
      · have := hnested.inside a ha
        unfold Span.Crosses
        dsimp only
        omega
    · unfold Span.Crosses
      dsimp only
      omega
  · intro s hs
    rw [stops_ofRendering] at hs
    obtain ⟨k, hkept, rfl⟩ := List.mem_map.mp hs
    rcases mem_kept hkept with hk | rfl
    · exact hnested.shown k hk
    · exact nofun

end Template

end Snippets
