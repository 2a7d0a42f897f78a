import Snippets.Proofs.Crossing
import Snippets.Proofs.SyncedGroup
import Snippets.Proofs.Typing

/-!
# Stops that a sync passes over

Main statement: a stop that a sync neither copies from nor replaces holds the same kept characters
as before, except where one of its ends lies inside a replaced range whose new text is so short that
the end falls back over the character.
-/

namespace Snippets

namespace Sync

/-- A kept character gets to the other side of an end of a stop: the end of the range is carried
over a character of the stop, or only the start of the range over one in front of it. -/
def Drifts (edits : List (Nat × Edit)) (span : Span) (position c : Nat) : Prop :=
  (span.start ≤ c ∧ CarriedOver edits span.finish position c) ∨
    (CarriedOver edits span.start position c ∧ ¬ CarriedOver edits span.finish position c)

instance (edits : List (Nat × Edit)) (span : Span) (position c : Nat) :
    Decidable (Drifts edits span position c) := inferInstanceAs (Decidable (_ ∨ _))

theorem CarriedOver.lt {edits : List (Nat × Edit)} {offset position c : Nat}
    (h : CarriedOver edits offset position c) : c < offset := by
  obtain ⟨a, _, hcounted, _, hc, _⟩ := h
  omega

section

variable {t : Text} {edits : List (Nat × Edit)} (h : Listed t.length edits)
  (fits : t.length < 9223372036854775808)
  (fits' : (t.replaceFrom 0 (edits.map (·.2))).length < 9223372036854775808)

include h fits fits'

/-- On which side of a moved offset a kept character is found. -/
theorem Listed.shifted_le_iff {change : Change} (hchange : change.edits = edits.map (·.2))
    {offset c : Nat} (hoffset : offset ≤ t.length) (hc : c < t.length)
    (kept : Edit.Keeps change.edits c) (position : Nat) :
    shifted edits offset position ≤ change.mapOffset c .after ↔
      offset ≤ c ∨ CarriedOver edits offset position c := by
  have hplace := (Change.mapOffset_after_kept (hchange ▸ h.ordered) (hchange ▸ fits') hc kept).1
  rw [hchange] at kept hplace
  rw [h.shifted_eq fits fits' hoffset, ← h.shift_le_iff kept, ← hplace]
  omega

theorem Listed.holds_iff {change : Change} (hchange : change.edits = edits.map (·.2))
    {current length position c : Nat} {span : Span} (hup : span.start ≤ span.finish)
    (hin : span.finish ≤ t.length) (hother : position ≠ current)
    (hkept : ∀ a ∈ edits, a.1 ≠ position) (hc : c < t.length)
    (kept : Edit.Keeps change.edits c) :
    ((shiftedSpan edits current length span position).Holds (change.mapOffset c .after) ↔
      span.Holds c) ↔ ¬ Drifts edits span position c := by
  have hstart := h.shifted_le_iff fits fits' hchange (Nat.le_trans hup hin) hc kept position
  have hfinish := h.shifted_le_iff fits fits' hchange hin hc kept position
  have hmoved : shiftedSpan edits current length span position =
      ⟨shifted edits span.start position,
        max (shifted edits span.start position) (shifted edits span.finish position)⟩ := by
    have hnone : ¬ (position = current ∨ edits.any (·.1 == position) = true) := by
      rintro (heq | hany)
      · exact hother heq
      · obtain ⟨a, ha, heq⟩ := List.any_eq_true.mp hany
        exact hkept a ha (by simpa using heq)
    unfold shiftedSpan
    rw [if_neg hnone]
  have hholds : (shiftedSpan edits current length span position).Holds (change.mapOffset c .after) ↔
      (span.start ≤ c ∨ CarriedOver edits span.start position c) ∧
        ¬ (span.finish ≤ c ∨ CarriedOver edits span.finish position c) := by
    rw [hmoved, ← hstart, ← hfinish]
    unfold Span.Holds
    dsimp only
    omega
  rw [hholds]
  unfold Span.Holds Drifts
  by_cases hbefore : span.start ≤ c
  · -- The start of the range stays in front, so only its end can drift.
    have hnot : ¬ CarriedOver edits span.start position c := fun k => by
      have := k.lt
      omega
    rcases Nat.lt_or_ge c span.finish with hinside | hbehind
    · simp [hbefore, hnot, hinside, Nat.not_le.mpr hinside]
    · have hnever : ¬ CarriedOver edits span.finish position c := fun k => by
        have := k.lt
        omega
      simp [hnot, hnever, hbehind, Nat.not_lt.mpr hbehind]
  · have hpast : ¬ span.finish ≤ c := by omega
    simp only [hbefore, hpast, false_and, false_or, iff_false, not_and_or]

end

structure Site.Bystander (site : Site) (d : Document) (i : Nat) (m : LiveStop) : Prop where
  stop : site.top.stops[i]? = some m
  other : i ≠ site.current
  kept : i ∉ site.members d

end Sync

namespace Scene

variable {σ : Type} [Editor σ]

/-- What a sync does to the bystanders of its session: a kept character is found where the change
puts it, and it gets into a bystander or out of it exactly when it drifts. -/
def MovesBystanders (s : Scene σ) (op : Nat) (s' : Scene σ) : Prop :=
  ∃ (site : Sync.Site) (change : Change) (top' : Session),
    site.At s.stack (Editor.document s.surface).selection ∧
    (Editor.document s.surface).apply ⟨(site.plan (Editor.document s.surface)).edits, .sync op⟩ =
      .ok (change, Editor.document s'.surface) ∧
    s'.stack.top? = some top' ∧
    ∀ i m, site.Bystander (Editor.document s.surface) i m → ∃ now ∈ top'.stops,
      (site.plan (Editor.document s.surface)).stops[i]? = some { m with span := now.span } ∧
      now.toTabStop = { m.toTabStop with span := now.span } ∧
      ∀ c < (Editor.document s.surface).text.length, Edit.Keeps change.edits c →
        (Editor.document s'.surface).text[change.mapOffset c .after]? =
          (Editor.document s.surface).text[c]? ∧
        ((now.span.Holds (change.mapOffset c .after) ↔ m.span.Holds c) ↔
          ¬ Sync.Drifts (site.edits (Editor.document s.surface)) m.span i c)

theorem applied_sync_moves_bystanders {s s' : Scene σ} {op count : Nat}
    (sync : s.SyncsTo (.applied op count) s') (placed : s.TopPlaced)
    (fits : (Editor.document s.surface).Fits) (fits' : (Editor.document s'.surface).Fits) :
    s.MovesBystanders op s' := by
  obtain ⟨site, change, hsite, _, happly, hstack⟩ := sync.site
  obtain ⟨hfault, hchange, htext⟩ := Document.apply_eq_ok happly
  have hsound := placed.sound hsite
  have hlisted := hsound.listed hfault
  have hedits : change.edits = (site.edits (Editor.document s.surface)).map (·.2) := by
    rw [hchange, (hsound.accepted hfault).1]
  have hshort : ((Editor.document s.surface).text.replaceFrom 0 change.edits).length <
      9223372036854775808 := htext ▸ fits'
  refine ⟨site, change,
    { site.top with stops := LiveStop.normalize (site.stops (Editor.document s.surface)) },
    hsite, happly, ?_, ?_⟩
  · rw [hstack, Stack.top?, restacked, List.head?_cons]
  · intro i m hi
    obtain ⟨now, hnow, hspan, hsame⟩ :=
      Sync.Site.exists_normalized (d := Editor.document s.surface) hi.stop
    have hnew := Sync.Site.getElem?_stops site (Editor.document s.surface) i
    rw [hi.stop, Option.map_some] at hnew
    have hmem := List.mem_of_getElem? hi.stop
    have hnone : ∀ a ∈ site.edits (Editor.document s.surface), a.1 ≠ i := by
      rintro a ha rfl
      exact hi.kept (List.mem_map_of_mem ha)
    refine ⟨now, hnow, ?_, hsame, fun c hc hkept => ⟨?_, ?_⟩⟩
    · rw [hspan]
      exact hnew
    · rw [htext]
      exact (Change.mapOffset_after_kept (hedits ▸ hlisted.ordered) hshort hc hkept).2
    · rw [hspan]
      exact hlisted.holds_iff fits (hedits ▸ hshort) hedits (hsound.normal.upright _ hmem)
        (hsound.inside _ hmem) hi.other hnone hc hkept

def nestedTwin : Scene Document where
  stack := ⟨[⟨0, 1, [⟨{ index := 1, span := ⟨0, 1⟩, group := some 0 }, [1]⟩,
    ⟨{ index := 1, span := ⟨2, 5⟩, group := some 0 }, [0]⟩, ⟨{ index := 2, span := ⟨2, 9⟩ }, []⟩,
    ⟨{ index := 0, span := ⟨9, 9⟩ }, []⟩]⟩], 1⟩
  guard := {}
  surface := ⟨"x foo bar".toList, .cursor 1, 2⟩

theorem nestedTwin_moves_bystanders : nestedTwin.MovesBystanders 1 nestedTwin.syncNow.2 := by
  have placed : nestedTwin.TopPlaced := by
    intro top htop
    cases htop
    exact ⟨by decide, by decide⟩
  have sync : nestedTwin.SyncsTo (.applied 1 1) nestedTwin.syncNow.2 := Or.inl (by decide)
  exact applied_sync_moves_bystanders sync placed (by decide) (by decide)

/-- The stop around the copy gets hold of the text that was typed in front of it. -/
theorem nestedTwin_drifts :
    (opened (.parse "${1:abc} ${2:${1:foo} bar}".toList)).typed {} ['x'] = .ok nestedTwin ∧
    nestedTwin.syncNow.1 = .applied 1 1 ∧
    ∃ (site : Sync.Site) (change : Change) (top' : Session) (stop now : LiveStop),
      site.At nestedTwin.stack nestedTwin.surface.selection ∧
      nestedTwin.surface.apply ⟨(site.plan nestedTwin.surface).edits, .sync 1⟩ =
        .ok (change, nestedTwin.syncNow.2.surface) ∧
      nestedTwin.syncNow.2.stack.top? = some top' ∧
      site.Bystander nestedTwin.surface 2 stop ∧ now ∈ top'.stops ∧ now.index = stop.index ∧
      Edit.Keeps change.edits 0 ∧ ¬ stop.span.Holds 0 ∧
        now.span.Holds (change.mapOffset 0 .after) := by
  let first : LiveStop := ⟨{ index := 1, span := ⟨0, 1⟩, group := some 0 }, [1]⟩
  let copy : LiveStop := ⟨{ index := 1, span := ⟨2, 5⟩, group := some 0 }, [0]⟩
  let around : LiveStop := ⟨{ index := 2, span := ⟨2, 9⟩ }, []⟩
  let exit : LiveStop := ⟨{ index := 0, span := ⟨9, 9⟩ }, []⟩
  refine ⟨by decide +kernel, by decide, ⟨⟨0, 1, [first, copy, around, exit]⟩, [], 0, first⟩,
    ⟨[⟨⟨2, 5⟩, ['x']⟩], .sync 1⟩, ⟨0, 1, [⟨first.toTabStop, [2]⟩,
      ⟨{ index := 2, span := ⟨0, 7⟩ }, []⟩, ⟨{ index := 1, span := ⟨2, 3⟩, group := some 0 }, [0]⟩,
      ⟨{ index := 0, span := ⟨7, 7⟩ }, []⟩]⟩, around, ⟨{ index := 2, span := ⟨0, 7⟩ }, []⟩,
    ⟨rfl, by decide, rfl, rfl, by decide⟩, by decide, by decide, ⟨rfl, by decide, by decide⟩,
    by decide, rfl, by decide, by decide, by decide⟩

end Scene

end Snippets
