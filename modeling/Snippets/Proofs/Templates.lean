import Snippets.Proofs.Filling
import Snippets.Proofs.Lifetimes

/-!
# Templates

Main statement: every body, however malformed, has a well-formed template. It has one exit, its
stops are listed by index and by where they start, all ranges lie in the text, and the stops that
share an index form a group of their own.
-/

namespace Snippets

namespace TabStop

theorem le_iff {a b : TabStop} : le a b = true ↔
    a.index < b.index ∨ (a.index = b.index ∧ a.span.start ≤ b.span.start) := by
  simp [le]

theorem le_total (a b : TabStop) : le a b || le b a := by
  rw [Bool.or_eq_true, le_iff, le_iff]
  omega

theorem le_trans (a b c : TabStop) (h : le a b) (k : le b c) : le a c := by
  rw [le_iff] at *
  omega

end TabStop

namespace Rendering

def CoversVars (r : Rendering) (start : Nat) : Prop :=
  ∀ v ∈ r.vars, start ≤ v.span.start ∧ v.span.start ≤ v.span.finish ∧
    v.span.finish ≤ start + r.text.length

variable {a b : Rendering} {start : Nat}

theorem coversVars_of_vars_nil (h : a.vars = []) : a.CoversVars start := by
  intro v hv
  rw [h] at hv
  cases hv

theorem CoversVars.append (ha : a.CoversVars start) (hb : b.CoversVars (a.spanFrom start).finish) :
    (a.append b).CoversVars start := by
  intro v hv
  simp only [Rendering.append, List.length_append]
  rcases List.mem_append.mp hv with hv | hv
  · have := ha v hv
    omega
  · have := hb v hv
    simp only [spanFrom] at this
    omega

theorem CoversVars.withVariable (h : a.CoversVars start) (name : Text) (fallback : Option Text) :
    (a.withVariable name start fallback).CoversVars start := by
  intro v hv
  rcases List.mem_append.mp hv with hv | hv
  · exact h v hv
  · rw [List.mem_singleton] at hv
    subst hv
    simp only [Rendering.withVariable, spanFrom]
    omega

end Rendering

theorem Body.render_coversVars (resolve : Resolver) (indent : Text) (b : Body) (start : Nat) :
    (b.render resolve indent start).CoversVars start := by
  induction b generalizing start with
  | done => exact Rendering.coversVars_of_vars_nil rfl
  | char c rest ih => exact (Rendering.coversVars_of_vars_nil rfl).append (ih _)
  | stop index rest ih => exact (Rendering.coversVars_of_vars_nil rfl).append (ih _)
  | stopOver index fallback rest ihf ih =>
    have hpiece : ((fallback.render resolve indent start).withStop index start none).CoversVars
        start := ihf start
    exact hpiece.append (ih _)
  | choice index first others rest ih => exact (Rendering.coversVars_of_vars_nil rfl).append (ih _)
  | «variable» name rest ih =>
    have hshown : (Rendering.mk (indentLines indent ((resolve name).getD [])) [] []).CoversVars
        start := Rendering.coversVars_of_vars_nil rfl
    exact (hshown.withVariable name none).append (ih _)
  | variableOver name fallback rest ihf ih =>
    rw [Body.render]
    cases hvalue : resolve name with
    | none => exact ((ihf start).withVariable name _).append (ih _)
    | some value =>
      have hshown : (Rendering.mk (indentLines indent value) [] []).CoversVars start :=
        Rendering.coversVars_of_vars_nil rfl
      exact (hshown.withVariable name _).append (ih _)

section

variable {sorted : List TabStop} {length : Nat}

theorem exitStop_of_none (h : ∀ s ∈ sorted, s.index ≠ 0) :
    exitStop sorted length = { index := 0, span := ⟨length, length⟩ } := by
  have hfind : sorted.find? (·.index == 0) = none :=
    List.find?_eq_none.mpr fun s hs => by simpa using h s hs
  rw [exitStop, hfind, Option.getD_none]

theorem exitStop_first (length : Nat) (order : sorted.Pairwise fun a b => TabStop.le a b)
    {e : TabStop} (he : e ∈ sorted) (hexit : e.index = 0) :
    exitStop sorted length ∈ sorted ∧ (exitStop sorted length).span.start ≤ e.span.start := by
  cases hfind : sorted.find? (·.index == 0) with
  | none => exact absurd hexit (by simpa using List.find?_eq_none.mp hfind e he)
  | some first =>
    have hfirst : exitStop sorted length = first := by rw [exitStop, hfind, Option.getD_some]
    obtain ⟨hindex, front, behind, rfl, hfront⟩ := List.find?_eq_some_iff_append.mp hfind
    rw [hfirst]
    refine ⟨List.mem_append_right _ List.mem_cons_self, ?_⟩
    rcases List.mem_append.mp he with he | he
    · exact absurd hexit (by simpa using hfront e he)
    · rcases List.mem_cons.mp he with rfl | he
      · exact Nat.le_refl _
      · have hle := (List.pairwise_cons.mp (List.pairwise_append.mp order).2.1).1 e he
        rw [TabStop.le_iff] at hle
        omega

end

namespace Template

structure WellFormed (t : Template) : Prop where
  exits : t.stops.countP (·.index == 0) = 1
  sorted : t.stops.Pairwise fun a b =>
    a.index < b.index ∨ (a.index = b.index ∧ a.span.start ≤ b.span.start)
  stops : ∀ s ∈ t.stops, s.span.start ≤ s.span.finish ∧ s.span.finish ≤ t.text.length
  vars : ∀ v ∈ t.vars, v.span.start ≤ v.span.finish ∧ v.span.finish ≤ t.text.length
  references : ∀ s ∈ t.stops, s.group.isSome ↔ 1 < t.stops.countP (·.index == s.index)
  groups : ∀ a ∈ t.stops, ∀ b ∈ t.stops, a.group.isSome → b.group.isSome →
    (a.group = b.group ↔ a.index = b.index)

variable {r : Rendering}

def kept (r : Rendering) : List TabStop :=
  let sorted := sortStable TabStop.le r.stops
  exitStop sorted r.text.length :: sorted.filter (·.index != 0)

theorem stops_ofRendering (r : Rendering) : (ofRendering r).stops =
    (kept r).map fun s => { s with group := (repeatedIndices (kept r)).idxOf? s.index } := rfl

theorem countP_ofRendering (k : Nat) :
    (ofRendering r).stops.countP (·.index == k) = ((kept r).map (·.index)).count k := by
  rw [stops_ofRendering, List.countP_map, List.count, List.countP_map]
  rfl

theorem kept_pairwise : (kept r).Pairwise fun a b =>
    a.index < b.index ∨ (a.index = b.index ∧ a.span.start ≤ b.span.start) := by
  have hsorted := sortStable_pairwise TabStop.le_total TabStop.le_trans r.stops
  refine List.pairwise_cons.mpr ⟨fun s hs => Or.inl ?_, ?_⟩
  · have hindex : s.index ≠ 0 := by simpa using (List.mem_filter.mp hs).2
    rw [exitStop_index]
    omega
  · exact (hsorted.filter _).imp TabStop.le_iff.mp

/-- A group is the place of its index among the indices that are repeated. -/
theorem group_eq_some {i g : Nat} (h : (repeatedIndices (kept r)).idxOf? i = some g) :
    (repeatedIndices (kept r))[g]? = some i := by
  obtain ⟨hlt, hget, _⟩ := List.idxOf?_eq_some_iff.mp h
  rw [List.getElem?_eq_getElem hlt, hget]

theorem ofRendering_references (r : Rendering) : ∀ s ∈ (ofRendering r).stops,
    s.group.isSome ↔ 1 < (ofRendering r).stops.countP (·.index == s.index) := by
  intro s hs
  rw [countP_ofRendering, ← mem_repeatedIndices]
  rw [stops_ofRendering] at hs
  obtain ⟨s, _, rfl⟩ := List.mem_map.mp hs
  dsimp only
  rw [Option.isSome_iff_ne_none, ne_eq, List.idxOf?_eq_none_iff, not_not]

theorem ofRendering_groups (r : Rendering) : ∀ a ∈ (ofRendering r).stops,
    ∀ b ∈ (ofRendering r).stops, a.group.isSome → b.group.isSome →
      (a.group = b.group ↔ a.index = b.index) := by
  intro a ha b hb haSome hbSome
  rw [stops_ofRendering] at ha hb
  obtain ⟨a, _, rfl⟩ := List.mem_map.mp ha
  obtain ⟨b, _, rfl⟩ := List.mem_map.mp hb
  obtain ⟨g, hg⟩ := Option.isSome_iff_exists.mp haSome
  dsimp only at hg ⊢
  constructor
  · intro hsame
    have hget := group_eq_some hg
    rw [group_eq_some (hsame ▸ hg)] at hget
    exact (Option.some.inj hget).symm
  · intro hsame
    rw [hsame]

/-- The exit stands in front of the other stops and belongs to no group. -/
theorem ofRendering_exit (r : Rendering) : (ofRendering r).exit? =
    some { exitStop (sortStable TabStop.le r.stops) r.text.length with group := none } := by
  have hsingle : (repeatedIndices (kept r)).idxOf? 0 = none := by
    have hcount := ofRendering_exits r
    rw [countP_ofRendering] at hcount
    rw [List.idxOf?_eq_none_iff, mem_repeatedIndices, hcount]
    exact Nat.lt_irrefl 1
  have hindex := exitStop_index (sortStable TabStop.le r.stops) r.text.length
  rw [exit?, stops_ofRendering]
  generalize repeatedIndices (kept r) = repeated at hsingle ⊢
  rw [kept, List.map_cons, List.find?_cons_of_pos (by simp [hindex])]
  simp only [hindex, hsingle]

/-- The exit is the first one that the body has where its variables leave one, and else an empty one
at the end of the text. -/
theorem instantiate_wellFormed (body : Text) (resolve : Resolver) (indent : Text) :
    (instantiate body resolve indent).WellFormed ∧
      ((∀ s ∈ ((Body.read body).render resolve indent 0).stops, s.index ≠ 0) →
        (instantiate body resolve indent).exit? = some
          { index := 0
            span := ⟨(instantiate body resolve indent).text.length,
              (instantiate body resolve indent).text.length⟩ }) ∧
      ∀ e ∈ ((Body.read body).render resolve indent 0).stops, e.index = 0 →
        ∃ first ∈ ((Body.read body).render resolve indent 0).stops, first.index = 0 ∧
          first.span.start ≤ e.span.start ∧
          (instantiate body resolve indent).exit? = some { first with group := none } := by
  have hvars := Body.render_coversVars resolve indent (Body.read body) 0
  have hbounds := instantiate_bounds body resolve indent
  unfold instantiate at hbounds ⊢
  generalize (Body.read body).render resolve indent 0 = r at hvars hbounds ⊢
  refine ⟨⟨ofRendering_exits r, ?_, hbounds, fun v hv => ?_, ofRendering_references r,
    ofRendering_groups r⟩, fun hnone => ?_, fun e he hexit => ?_⟩
  · rw [stops_ofRendering, List.pairwise_map]
    exact kept_pairwise
  · have := hvars v hv
    simp only [ofRendering]
    omega
  · rw [ofRendering_exit, exitStop_of_none fun s hs => hnone s (mem_sortStable.mp hs)]
    rfl
  · have hsorted := sortStable_pairwise TabStop.le_total TabStop.le_trans r.stops
    obtain ⟨hmem, hle⟩ := exitStop_first r.text.length hsorted (mem_sortStable.mpr he) hexit
    exact ⟨_, mem_sortStable.mp hmem, exitStop_index _ _, hle, ofRendering_exit r⟩

end Template

end Snippets
