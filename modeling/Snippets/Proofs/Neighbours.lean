import Snippets.Proofs.FollowingText
import Snippets.Proofs.Reach

/-!
# Stops that come one after the other

Main statement: a stop that ends in front of another one still does so after an accepted batch,
unless one edit writes text where the other one begins and the first one is caught by it. Then the
other stop, which is of the current index, begins in front of the text, and the first one ends
behind it.
-/

namespace Snippets

namespace Change

variable {c : Change} {t : Text} {x y : Nat}
  (h : Edit.Ordered t.length c.edits)
  (fits : (t.replaceFrom 0 c.edits).length < 9223372036854775808)

include h fits

/-- Offsets that one range catches land on opposite ends of its text. -/
theorem mapOffset_after_le_before_iff (hxy : x ≤ y) (hy : y ≤ t.length) :
    c.mapOffset x .after ≤ c.mapOffset y .before ↔
      ¬ ∃ e ∈ c.edits, e.text ≠ [] ∧ e.Catches x ∧ e.Catches y := by
  have hends {e : Edit} (he : e ∈ c.edits) (hcx : e.Catches x) (hcy : e.Catches y) :
      c.mapOffset x .after = c.mapOffset y .before + e.text.length := by
    obtain ⟨front, behind, hc⟩ := List.append_of_mem he
    have hafter := mapOffset_caught h fits hc (Nat.le_trans hxy hy) hcx .after
    have hbefore := mapOffset_caught h fits hc hy hcy .before
    simp only [Side.depth] at hafter hbefore
    omega
  constructor
  · rintro hle ⟨e, he, hwritten, hcx, hcy⟩
    have := hends he hcx hcy
    have := List.length_pos_iff.mpr hwritten
    omega
  · intro hfree
    rcases mapOffset_apart h fits hxy hy with hle | ⟨e, he, hcx, hcy⟩
    · exact hle
    · have hlen := hends he hcx hcy
      by_cases hwritten : e.text = []
      · rw [hwritten, List.length_nil] at hlen
        omega
      · exact absurd ⟨e, he, hwritten, hcx, hcy⟩ hfree

/-- A range that does not grow ends behind the text that catches its start. -/
theorem mapSpan_apart_iff {r s : Span} (upright : r.start ≤ r.finish) (apart : r.finish ≤ s.start)
    (upright' : s.start ≤ s.finish) (inside : s.finish ≤ t.length) (grows grows' : Bool) :
    (c.mapSpan r grows (t.replaceFrom 0 c.edits).length).finish ≤
        (c.mapSpan s grows' (t.replaceFrom 0 c.edits).length).start ↔
      ¬ (grows' ∧ ∃ e ∈ c.edits, e.text ≠ [] ∧
        e.Catches (if grows then r.finish else r.start) ∧ e.Catches s.start) := by
  have hs := Nat.le_trans upright' inside
  have hr := Nat.le_trans apart hs
  have hstart := Nat.le_trans upright apart
  have hboth (side : Side) : c.mapOffset r.finish side ≤ c.mapOffset s.start side :=
    mapOffset_mono h fits apart hs side
  have hbounds := mapOffset_before_le_after h fits hs
  rw [mapSpan_eq h fits upright hr, mapSpan_eq h fits upright' inside]
  cases grows' with
  | false =>
    have := mapOffset_mono h fits hstart hs .after
    have := hboth .after
    have := hboth .before
    cases grows with
    | false =>
      simp only [Bool.false_eq_true, if_false, false_and, not_false_eq_true, iff_true]
      omega
    | true =>
      simp only [Bool.false_eq_true, if_false, if_true, false_and, not_false_eq_true, iff_true]
      omega
  | true =>
    cases grows with
    | false =>
      have := hboth .before
      simp only [Bool.false_eq_true, if_false, if_true, true_and]
      rw [← mapOffset_after_le_before_iff h fits hstart hs]
      omega
    | true =>
      simp only [if_true, true_and]
      rw [← mapOffset_after_le_before_iff h fits apart hs]

end Change

/-- An edit writes text in front of which the later stop begins and behind which the earlier one
ends: it catches the start of the later stop, which is of the current index, and of the earlier one
the end if that is of the current index too, else the start. -/
def LiveStop.Overruns (edits : List Edit) (current : Nat) (earlier later : LiveStop) : Prop :=
  later.index = current ∧ ∃ e ∈ edits, e.text ≠ [] ∧
    e.Catches (if earlier.index = current then earlier.span.finish else earlier.span.start) ∧
    e.Catches later.span.start

instance (edits : List Edit) (current : Nat) (earlier later : LiveStop) :
    Decidable (earlier.Overruns edits current later) :=
  inferInstanceAs (Decidable (_ ∧ _))

theorem remapStops_apart_iff {t : Text} {b : Batch} (accepted : b.fault? t.length = none)
    (fits : ((Change.ofBatch b).applyTo t).length < 9223372036854775808) {stops : List LiveStop}
    (upright : ∀ s ∈ stops, s.span.start ≤ s.span.finish) (inside : LiveStop.Inside t.length stops)
    (current : Nat) {i j : Nat} {earlier later : LiveStop} (hi : stops[i]? = some earlier)
    (hj : stops[j]? = some later) (apart : earlier.span.finish ≤ later.span.start) :
    ∃ earlier' later',
      (remapStops stops current (.ofBatch b) ((Change.ofBatch b).applyTo t).length)[i]? =
        some earlier' ∧
      (remapStops stops current (.ofBatch b) ((Change.ofBatch b).applyTo t).length)[j]? =
        some later' ∧
      (earlier'.span.finish ≤ later'.span.start ↔ ¬ earlier.Overruns b.edits current later) := by
  have h : Edit.Ordered t.length (Change.ofBatch b).edits := Batch.fault?_eq_none_iff.mp accepted
  rw [Text.applyTo_eq h] at fits ⊢
  have hearlier := List.mem_of_getElem? hi
  have hlater := List.mem_of_getElem? hj
  have hiff := Change.mapSpan_apart_iff h fits (upright _ hearlier) apart (upright _ hlater)
    (inside _ hlater) (earlier.index == current) (later.index == current)
  simp only [remapStops, List.getElem?_map, hi, hj, Option.map_some]
  refine ⟨_, _, rfl, rfl, ?_⟩
  rw [hiff, LiveStop.Overruns]
  simp only [beq_iff_eq, Change.ofBatch, mem_sortStable]

namespace Scene

variable {σ : Type} [Editor σ] {s : Scene σ}

theorem Reach.apart_iff (h : Reach s) {x : Session} (hx : x ∈ s.stack.sessions) {b : Batch}
    (accepted : b.fault? (Editor.document s.surface).text.length = none)
    (fits : ((Change.ofBatch b).applyTo (Editor.document s.surface).text).length <
      9223372036854775808) (current : Nat) {i j : Nat} {earlier later : LiveStop}
    (hi : x.stops[i]? = some earlier) (hj : x.stops[j]? = some later)
    (apart : earlier.span.finish ≤ later.span.start) :
    ∃ earlier' later',
      (remapStops x.stops current (.ofBatch b)
        ((Change.ofBatch b).applyTo (Editor.document s.surface).text).length)[i]? = some earlier' ∧
      (remapStops x.stops current (.ofBatch b)
        ((Change.ofBatch b).applyTo (Editor.document s.surface).text).length)[j]? = some later' ∧
      (earlier'.span.finish ≤ later'.span.start ↔ ¬ earlier.Overruns b.edits current later) := by
  have hplaced := h.placed x hx
  exact remapStops_apart_iff accepted fits hplaced.normal.upright hplaced.inside current hi hj apart

def facingPair : Scene Document where
  stack := ⟨[⟨0, 2, [⟨{ index := 1, span := ⟨0, 0⟩ }, []⟩, ⟨{ index := 2, span := ⟨0, 0⟩ }, []⟩,
    ⟨{ index := 0, span := ⟨0, 0⟩ }, []⟩]⟩], 1⟩
  guard := {}
  surface := ⟨[], .cursor 0, 1⟩

theorem facingPair_reach : Reach facingPair := by
  have hround : Step (opened (.parse "$1$2".toList)) facingPair := by
    have hjump : ((opened (.parse "$1$2".toList)).jumpFrom
        ⟨0, 1, facingPair.stack.sessions.flatMap (·.stops)⟩).2 = facingPair := by decide +kernel
    rw [← hjump]
    exact .round _ _ (by decide +kernel)
  exact .step (.opened (by decide +kernel)) hround (by decide)

theorem facingPair_apart_iff : ∃ earlier' later',
    (remapStops (facingPair.stack.sessions.flatMap (·.stops)) 1
      (.ofBatch ⟨[⟨⟨0, 0⟩, ['x']⟩], .user⟩) 1)[0]? = some earlier' ∧
    (remapStops (facingPair.stack.sessions.flatMap (·.stops)) 1
      (.ofBatch ⟨[⟨⟨0, 0⟩, ['x']⟩], .user⟩) 1)[1]? = some later' ∧
    (earlier'.span.finish ≤ later'.span.start ↔
      ¬ LiveStop.Overruns [⟨⟨0, 0⟩, ['x']⟩] 1 ⟨{ index := 1, span := ⟨0, 0⟩ }, []⟩
        ⟨{ index := 2, span := ⟨0, 0⟩ }, []⟩) :=
  facingPair_reach.apart_iff (b := ⟨[⟨⟨0, 0⟩, ['x']⟩], .user⟩) List.mem_cons_self (by decide)
    (by decide) 1 rfl rfl (by decide)

/-- What the user types is put in front of the first stop, which now comes after the second. -/
theorem facingPair_overrun : Reach facingPair ∧ ∃ (x : Session) (b : Batch)
    (earlier later earlier' later' : LiveStop),
      facingPair.stack.sessions = [x] ∧ b.origin = .user ∧
      b.fault? facingPair.surface.text.length = none ∧
      x.stops[0]? = some earlier ∧ x.stops[1]? = some later ∧
      earlier.span.finish ≤ later.span.start ∧
      (remapStops x.stops x.current (.ofBatch b)
        ((Change.ofBatch b).applyTo facingPair.surface.text).length)[0]? = some earlier' ∧
      (remapStops x.stops x.current (.ofBatch b)
        ((Change.ofBatch b).applyTo facingPair.surface.text).length)[1]? = some later' ∧
      ¬ earlier'.span.finish ≤ later'.span.start :=
  ⟨facingPair_reach, _, ⟨[⟨⟨0, 0⟩, ['x']⟩], .user⟩, _, _,
    ⟨{ index := 1, span := ⟨1, 1⟩ }, []⟩, ⟨{ index := 2, span := ⟨0, 1⟩ }, []⟩, rfl, rfl, by decide,
    rfl, rfl, by decide, by decide, by decide, by decide⟩

end Scene

end Snippets
