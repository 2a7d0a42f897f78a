import Snippets.Proofs.SyncedGroup
import Snippets.Proofs.Typing

/-!
# Placed sessions

Every session of a scene is normal and lies inside the document. This file has one statement for
each thing that moves stops: a new template, a change that is carried over the stack, a sync and a
choice.
-/

namespace Snippets

namespace Rendering

/-- Every stop lies where the rendering does when it begins at an offset. -/
def Covers (r : Rendering) (start : Nat) : Prop :=
  ∀ s ∈ r.stops, start ≤ s.span.start ∧ s.span.start ≤ s.span.finish ∧
    s.span.finish ≤ start + r.text.length

variable {a b : Rendering} {start : Nat}

theorem covers_of_stops_nil (h : a.stops = []) : a.Covers start := by
  intro s hs
  rw [h] at hs
  cases hs

theorem Covers.append (ha : a.Covers start) (hb : b.Covers (a.spanFrom start).finish) :
    (a.append b).Covers start := by
  intro s hs
  simp only [Rendering.append, List.length_append]
  rcases List.mem_append.mp hs with hs | hs
  · have := ha s hs
    omega
  · have := hb s hs
    simp only [spanFrom] at this
    omega

theorem Covers.withStop (h : a.Covers start) (index : Nat) (choices : Option (List Text)) :
    (a.withStop index start choices).Covers start := by
  intro s hs
  rcases List.mem_append.mp hs with hs | hs
  · exact h s hs
  · rw [List.mem_singleton] at hs
    subst hs
    simp only [Rendering.withStop, spanFrom]
    omega

end Rendering

theorem Body.render_covers (resolve : Resolver) (indent : Text) (b : Body) (start : Nat) :
    (b.render resolve indent start).Covers start := by
  induction b generalizing start with
  | done => exact Rendering.covers_of_stops_nil rfl
  | char c rest ih => exact (Rendering.covers_of_stops_nil rfl).append (ih _)
  | stop index rest ih =>
    exact ((Rendering.covers_of_stops_nil (a := .empty) rfl).withStop index none).append (ih _)
  | stopOver index fallback rest ihf ih => exact ((ihf start).withStop index none).append (ih _)
  | choice index first others rest ih =>
    have hshown : (Rendering.mk (indentLines indent first) [] []).Covers start :=
      Rendering.covers_of_stops_nil rfl
    exact (hshown.withStop index _).append (ih _)
  | «variable» name rest ih => exact (Rendering.covers_of_stops_nil rfl).append (ih _)
  | variableOver name fallback rest ihf ih =>
    rw [Body.render]
    cases hvalue : resolve name with
    | none =>
      have hstanding : ((fallback.render resolve indent start).withVariable name start
          (some (fallback.render resolve indent start).text)).Covers start := ihf start
      exact hstanding.append (ih _)
    | some value => exact (Rendering.covers_of_stops_nil rfl).append (ih _)

theorem Template.instantiate_bounds (body : Text) (resolve : Resolver) (indent : Text) :
    ∀ s ∈ (instantiate body resolve indent).stops, s.span.start ≤ s.span.finish ∧
      s.span.finish ≤ (instantiate body resolve indent).text.length := by
  have hcovers := Body.render_covers resolve indent (Body.read body) 0
  simp only [instantiate]
  generalize (Body.read body).render resolve indent 0 = r at hcovers
  have hin : ∀ s ∈ sortStable TabStop.le r.stops, s.span.start ≤ s.span.finish ∧
      s.span.finish ≤ r.text.length := by
    intro s hs
    have := hcovers s (mem_sortStable.mp hs)
    omega
  intro s hs
  simp only [ofRendering] at hs ⊢
  obtain ⟨t, ht, rfl⟩ := List.mem_map.mp hs
  rcases List.mem_cons.mp ht with rfl | ht
  · rw [exitStop]
    cases hfind : (sortStable TabStop.le r.stops).find? (·.index == 0) with
    | none => simp
    | some exit => exact hin exit (List.mem_of_find?_eq_some hfind)
  · exact hin t (List.mem_filter.mp ht).1

theorem Definition.instantiate_bounds (d : Definition) (resolve : Resolver) (indent : Text) :
    ∀ s ∈ (d.instantiate resolve indent).stops, s.span.start ≤ s.span.finish ∧
      s.span.finish ≤ (d.instantiate resolve indent).text.length := by
  rcases d.instantiate_cases resolve indent with h | h
  · rw [h]
    exact Template.instantiate_bounds _ _ _
  · rw [h]
    exact Template.instantiate_bounds _ _ _

namespace Session

theorem placed_of_bounds {length : Nat} {stops : List LiveStop}
    (h : ∀ s ∈ stops, s.span.start ≤ length ∧ s.span.finish ≤ length) (id current : Nat) :
    Placed length ⟨id, current, LiveStop.normalize stops⟩ :=
  ⟨LiveStop.normalize_normal stops, LiveStop.normalize_inside h⟩

end Session

namespace Stack

def Placed (length : Nat) (s : Stack) : Prop := ∀ x ∈ s.sessions, x.Placed length

variable {length length' : Nat} {s : Stack}

theorem Placed.pop (h : s.Placed length) : (s.apply .pop).Placed length :=
  fun x hx => h x (List.mem_of_mem_tail hx)

theorem Placed.clear (length : Nat) (s : Stack) : (s.apply .clear).Placed length := by
  intro x hx
  cases hx

theorem Placed.updateIndex (h : s.Placed length) (index : Nat) :
    (s.apply (.updateIndex index)).Placed length := by
  intro x hx
  rw [Stack.apply] at hx
  split at hx
  · exact h x hx
  · rename_i top outer hs
    rw [Placed, hs] at h
    rcases List.mem_cons.mp hx with rfl | hx
    · have := h top List.mem_cons_self
      exact ⟨this.normal, this.inside⟩
    · exact h x (List.mem_cons_of_mem top hx)

theorem Placed.push (h : s.Placed length) {stops : List LiveStop}
    (bounds : ∀ t ∈ stops, t.span.start ≤ length ∧ t.span.finish ≤ length) (current : Nat) :
    (s.apply (.push current stops)).Placed length := by
  intro x hx
  rcases List.mem_cons.mp hx with rfl | hx
  · exact Session.placed_of_bounds bounds _ _
  · exact h x hx

theorem mem_replaceAt {depth : Nat} {stops : List LiveStop} {sessions : List Session} {x : Session}
    (h : x ∈ replaceAt depth stops sessions) : x ∈ sessions ∨ x.stops = stops := by
  induction sessions with
  | nil => cases h
  | cons s outer ih =>
    rw [replaceAt] at h
    split at h
    · rcases List.mem_cons.mp h with rfl | h
      · exact Or.inr rfl
      · exact Or.inl (List.mem_cons_of_mem s h)
    · rcases List.mem_cons.mp h with rfl | h
      · exact Or.inl List.mem_cons_self
      · exact (ih h).imp_left (List.mem_cons_of_mem s)

theorem Placed.replace (h : s.Placed length) {stops : List LiveStop}
    (bounds : ∀ t ∈ stops, t.span.start ≤ length ∧ t.span.finish ≤ length) (depth : Nat) :
    (s.apply (.replace depth stops)).Placed length := by
  intro x hx
  rcases mem_replaceAt hx with hx | hx
  · exact h x hx
  · exact ⟨hx ▸ LiveStop.normalize_normal stops, hx ▸ LiveStop.normalize_inside bounds⟩

/-- A change that has edits places all sessions anew; without edits the document is the same. -/
theorem Placed.remap (h : s.Placed length) (c : Change) (same : c.edits = [] → length' = length) :
    (s.remap c length').Placed length' := by
  by_cases hc : c.edits = []
  · rw [remap_of_edits_nil hc, same hc]
    exact h
  · intro x hx
    rw [remap_eq_carry (fun x hx => (h x hx).normal) hc] at hx
    obtain ⟨y, _, rfl⟩ := List.mem_map.mp hx
    exact y.carry_placed c length'

end Stack

namespace Sync.Site

variable {site : Site} {d : Document}

theorem Sound.stops_bounds (h : site.Sound d) {origin : Origin}
    (hf : Batch.fault? ⟨(site.plan d).edits, origin⟩ d.text.length = none) (fits : d.Fits)
    (fits' : (d.text.replaceFrom 0 ((site.edits d).map (·.2))).length < 9223372036854775808) :
    ∀ s ∈ site.stops d, s.span.start ≤ (d.text.replaceFrom 0 ((site.edits d).map (·.2))).length ∧
      s.span.finish ≤ (d.text.replaceFrom 0 ((site.edits d).map (·.2))).length := by
  have hlisted := h.listed hf
  have hshift {offset : Nat} (position : Nat) (hoffset : offset ≤ d.text.length) :
      shifted (site.edits d) offset position ≤
        (d.text.replaceFrom 0 ((site.edits d).map (·.2))).length := by
    have hbounds := Text.gains_bounds (hlisted.counted_ordered offset position) hoffset
      fun e he => by
        obtain ⟨a, ha, rfl⟩ := List.mem_map.mp he
        exact uncounted_start ha
    rw [← List.map_append, hlisted.counted_append] at hbounds
    rw [hlisted.shifted_eq fits fits' hoffset]
    omega
  intro s hs
  obtain ⟨i, hi⟩ := List.mem_iff_getElem?.mp hs
  rw [getElem?_stops] at hi
  obtain ⟨m, hm, rfl⟩ := Option.map_eq_some_iff.mp hi
  have hmem := List.mem_of_getElem? hm
  have hup := h.normal.upright m hmem
  have hin := h.inside m hmem
  have hstart := hshift i (Nat.le_trans hup hin)
  have hfinish := hshift i hin
  have hread (hlong : (site.edits d).any (·.1 == i) = true ∨ i = site.current) :
      (d.text.replaceFrom 0 ((site.edits d).map (·.2))).slice
        (shiftedSpan (site.edits d) site.current (site.source d).length m.span i) =
      site.text d := by
    rcases hlong with hany | rfl
    · obtain ⟨a, ha, hai⟩ := List.any_eq_true.mp hany
      obtain ⟨n, hn, _⟩ := mem_edits.mp (show (a.1, a.2) ∈ site.edits d from ha)
      obtain rfl : a.1 = i := by simpa using hai
      obtain rfl : n = m := Option.some.inj (hn.stop.symm.trans hm)
      exact h.slice_replaced hf fits fits' hn
    · obtain rfl : site.stop = m := Option.some.inj (h.stop.symm.trans hm)
      exact h.slice_current hf fits fits'
  dsimp only
  unfold shiftedSpan at hread ⊢
  split
  · rename_i hlong
    rw [if_pos hlong] at hread
    have hlen := congrArg List.length (hread hlong.symm)
    rw [Text.length_slice, h.length_text] at hlen
    dsimp only at hlen ⊢
    omega
  · dsimp only
    omega

end Sync.Site

end Snippets
