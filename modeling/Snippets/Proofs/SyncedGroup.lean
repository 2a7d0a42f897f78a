import Snippets.Proofs.AppliedSync

/-!
# The text of a group after a sync

Main statement: an applied sync replaces the ranges of the members that did not hold the source
text, all at once and nothing else, and afterwards the current stop and these members read that
text.
-/

namespace Snippets

open Sync (Site)

namespace Text

def fill (t : Text) (ranges : List Span) (new : Text) : Text :=
  t.replaceFrom 0 (ranges.map fun r => ⟨r, new⟩)

end Text

namespace Session

def spansAt (s : Session) (positions : List Nat) : List Span :=
  positions.filterMap fun i => s.stops[i]?.map (·.span)

end Session

namespace Sync

/-- Members of the group of the current stop took the source text, and nothing else happened to the
document. `after` are the stops of the session then, in their new order. -/
structure Copied (top : Session) (plan : Plan) (current : Nat) (stop : LiveStop)
    (members : List Nat) (old new : Text) (after : List LiveStop) : Prop where
  linked : ∀ i ∈ members, i ∈ stop.linked
  ascending : members.Pairwise (· < ·)
  differs : ∀ i ∈ members, ∃ m, top.stops[i]? = some m ∧ old.slice m.span ≠ old.slice plan.source
  passed : ∀ i ∈ stop.linked, i ∉ members → ∃ m, top.stops[i]? = some m ∧
    (m.span.Overlaps plan.source ∨ old.slice m.span = old.slice plan.source)
  inside : ∀ r ∈ top.spansAt members, r.start ≤ r.finish ∧ r.finish ≤ old.length
  apart : (top.spansAt members).Pairwise Span.Precedes
  text : new = old.fill (top.spansAt members) (old.slice plan.source)
  reads : ∀ i ∈ current :: members, ∃ m now, top.stops[i]? = some m ∧ now ∈ after ∧
    plan.stops[i]? = some { m with span := now.span } ∧
    now.toTabStop = { m.toTabStop with span := now.span } ∧
    new.slice now.span = old.slice plan.source

namespace Site

variable {site : Site} {d : Document}

def members (site : Site) (d : Document) : List Nat := (site.edits d).map (·.1)

theorem mem_members {i : Nat} : i ∈ site.members d ↔ ∃ m, site.Replaces d i m := by
  simp only [members, List.mem_map, Prod.exists, exists_and_right, exists_eq_right, mem_edits]
  exact ⟨fun ⟨_, m, hm, _⟩ => ⟨m, hm⟩, fun ⟨m, hm⟩ => ⟨_, m, hm, rfl⟩⟩

theorem spansAt_members (site : Site) (d : Document) :
    site.top.spansAt (site.members d) = (site.edits d).map (·.2.span) := by
  rw [Session.spansAt, members, List.filterMap_map, ← List.filterMap_eq_map]
  refine List.filterMap_congr fun a ha => ?_
  obtain ⟨m, hm, he⟩ := mem_edits.mp (show (a.1, a.2) ∈ site.edits d from ha)
  simp [hm.stop, he]

theorem fill_members (site : Site) (d : Document) :
    d.text.fill (site.top.spansAt (site.members d)) (site.text d) =
      d.text.replaceFrom 0 ((site.edits d).map (·.2)) := by
  rw [Text.fill, spansAt_members, List.map_map]
  congr 1
  refine List.map_congr_left fun a ha => ?_
  obtain ⟨m, _, he⟩ := mem_edits.mp (show (a.1, a.2) ∈ site.edits d from ha)
  simp [he]

theorem exists_normalized {i : Nat} {m : LiveStop} (hm : site.top.stops[i]? = some m) :
    ∃ now ∈ LiveStop.normalize (site.stops d),
      now.span = shiftedSpan (site.edits d) site.current (site.source d).length m.span i ∧
      now.toTabStop = { m.toTabStop with span := now.span } := by
  have hnew := getElem?_stops site d i
  rw [hm, Option.map_some] at hnew
  have hup := LiveStop.upright_eq_self (s := { m with
    span := shiftedSpan (site.edits d) site.current (site.source d).length m.span i })
    (shiftedSpan_upright _ _ _ _ _)
  have hmem := List.mem_map_of_mem (f := fun s => s.upright.toTabStop) (List.mem_of_getElem? hnew)
  rw [hup, ← (LiveStop.normalize_perm _).mem_iff] at hmem
  obtain ⟨now, hnow, heq⟩ := List.mem_map.mp hmem
  have hspan := congrArg TabStop.span heq
  refine ⟨now, hnow, hspan, ?_⟩
  rw [heq]

theorem Sound.copied (h : site.Sound d) {origin : Origin}
    (hf : Batch.fault? ⟨(site.plan d).edits, origin⟩ d.text.length = none) (fits : d.Fits)
    (fits' : (d.text.replaceFrom 0 ((site.edits d).map (·.2))).length < 9223372036854775808) :
    Copied site.top (site.plan d) site.current site.stop (site.members d) d.text
      (d.text.replaceFrom 0 ((site.edits d).map (·.2))) (LiveStop.normalize (site.stops d)) where
  linked i hi := by
    obtain ⟨m, hm⟩ := mem_members.mp hi
    exact hm.linked
  ascending := by
    rw [members, List.pairwise_map]
    exact h.edits_positions
  differs i hi := by
    obtain ⟨m, hm⟩ := mem_members.mp hi
    exact ⟨m, hm.stop, hm.differs⟩
  passed i hi hno := by
    obtain ⟨m, hm⟩ := h.exists_of_mem_linked hi
    refine ⟨m, hm, ?_⟩
    by_cases hover : m.span.Overlaps (site.source d)
    · exact Or.inl hover
    · refine Or.inr (Classical.byContradiction fun hdiffers => hno ?_)
      exact mem_members.mpr ⟨m, hi, hm, hover, hdiffers⟩
  inside r hr := by
    rw [spansAt_members] at hr
    obtain ⟨a, ha, rfl⟩ := List.mem_map.mp hr
    exact h.edits_upright ha
  apart := by
    have hapart := (h.listed hf).ordered.apart
    rw [List.pairwise_map] at hapart
    rw [spansAt_members, List.pairwise_map]
    exact hapart
  text := (fill_members site d).symm
  reads i hi := by
    have hspan : ∃ m, site.top.stops[i]? = some m ∧
        (d.text.replaceFrom 0 ((site.edits d).map (·.2))).slice
          (shiftedSpan (site.edits d) site.current (site.source d).length m.span i) =
            site.text d := by
      rcases List.mem_cons.mp hi with rfl | hi
      · exact ⟨site.stop, h.stop, h.slice_current hf fits fits'⟩
      · obtain ⟨m, hm⟩ := mem_members.mp hi
        exact ⟨m, hm.stop, h.slice_replaced hf fits fits' hm⟩
    obtain ⟨m, hm, hslice⟩ := hspan
    obtain ⟨now, hnow, hplace, hsame⟩ := exists_normalized (d := d) hm
    have hnew := getElem?_stops site d i
    rw [hm, Option.map_some] at hnew
    refine ⟨m, now, hm, hnow, ?_, hsame, ?_⟩
    · rw [hplace]
      exact hnew
    · rw [hplace]
      exact hslice

end Site

end Sync

namespace Scene

variable {σ : Type} [Editor σ]

def TopPlaced (s : Scene σ) : Prop :=
  ∀ top, s.stack.top? = some top → top.Placed (Editor.document s.surface).text.length

theorem TopPlaced.sound {s : Scene σ} (h : s.TopPlaced) {site : Site}
    (hsite : site.At s.stack (Editor.document s.surface).selection) :
    site.Sound (Editor.document s.surface) := by
  have htop : s.stack.top? = some site.top := by rw [Stack.top?, hsite.sessions]; rfl
  exact ⟨hsite.stop, (h _ htop).normal, (h _ htop).inside⟩

def CopiedTo (s : Scene σ) (count : Nat) (s' : Scene σ) : Prop :=
  ∃ plan top top' current stop members,
    Sync.plan s.stack s.surface = .ok plan ∧ s.stack.top? = some top ∧ s'.stack.top? = some top' ∧
    top.currentPosition? (Surface.selection s.surface) = some current ∧
    top.stops[current]? = some stop ∧ members.length = count ∧
    top'.stops = LiveStop.normalize plan.stops ∧
    Sync.Copied top plan current stop members (Editor.document s.surface).text
      (Editor.document s'.surface).text top'.stops

theorem applied_sync_copies {s s' : Scene σ} {op count : Nat}
    (sync : s.SyncsTo (.applied op count) s') (placed : s.TopPlaced)
    (fits : (Editor.document s.surface).Fits)
    (fits' : (Editor.document s'.surface).Fits) : s.CopiedTo count s' := by
  obtain ⟨site, change, hsite, hcount, happly, hstack⟩ := sync.site
  obtain ⟨hfault, hchange, htext⟩ := Document.apply_eq_ok happly
  have hsound := placed.sound hsite
  rw [hchange, (hsound.accepted hfault).1] at htext
  refine ⟨site.plan (Editor.document s.surface), site.top,
    { site.top with stops := LiveStop.normalize (site.stops (Editor.document s.surface)) },
    site.current, site.stop, site.members (Editor.document s.surface), hsite.plan_eq, ?_, ?_, ?_,
    hsite.stop, ?_, ?_, ?_⟩
  · rw [Stack.top?, hsite.sessions, List.head?_cons]
  · rw [hstack, Stack.top?, restacked, List.head?_cons]
  · rw [Editor.selection_eq, hsite.current]
  · rw [hcount, Sync.Site.members, List.length_map]
  · rfl
  · have hcopied := hsound.copied hfault fits (htext ▸ fits')
    rw [htext]
    exact hcopied

def typedTwin : Scene Document where
  stack := ⟨[⟨0, 1, LiveStop.normalize [{ index := 1, span := ⟨0, 1⟩, group := some 0 },
    { index := 1, span := ⟨2, 2⟩, group := some 0 }]⟩], 1⟩
  guard := {}
  surface := ⟨['x', ' '], .cursor 1, 1⟩

theorem typedTwin_copied : typedTwin.CopiedTo 1 typedTwin.syncNow.2 := by
  have placed : typedTwin.TopPlaced := by
    intro top htop
    cases htop
    exact ⟨by decide, by decide⟩
  have sync : typedTwin.SyncsTo (.applied 1 1) typedTwin.syncNow.2 := Or.inl (by decide)
  exact applied_sync_copies sync placed (by decide) (by decide)

end Scene

end Snippets
