import Mathlib.Data.List.Forall2
import Snippets.Proofs.Crossing
import Snippets.Session.Remap

/-!
# Stops follow their text

Main statement: carried across an accepted batch, a stop holds the same kept characters as before.
Of what the batch inserts it takes the text inserted strictly inside, and a stop of the current
index also the text inserted at its ends.
-/

namespace Snippets

def Span.Includes (outer inner : Span) : Prop :=
  outer.start ≤ inner.start ∧ inner.finish ≤ outer.finish

instance (outer inner : Span) : Decidable (outer.Includes inner) :=
  inferInstanceAs (Decidable (_ ∧ _))

namespace Change

/-- Where a kept character is after the change: its offset, moved by the growth in front of it. -/
def charPlace (c : Change) (offset : Nat) : Nat :=
  (offset + Edit.gains (grownBefore c.edits offset)).toNat

def textPlace (c : Change) (e : Edit) : Span :=
  let start := (e.span.start +
    Edit.gains (c.edits.filter fun a => a.span.start < e.span.start)).toNat
  ⟨start, start + e.text.length⟩

variable {c : Change} {t : Text} {e : Edit} {x y : Nat}
  (h : Edit.Ordered t.length c.edits)
  (fits : (t.replaceFrom 0 c.edits).length < 9223372036854775808)

include h fits

theorem charPlace_eq (hx : x < t.length) (kept : Edit.Keeps c.edits x) :
    c.charPlace x = c.mapOffset x .after ∧ (t.replaceFrom 0 c.edits)[c.charPlace x]? = t[x]? := by
  obtain ⟨hplace, hchar⟩ := mapOffset_after_kept h fits hx kept
  have heq : c.charPlace x = c.mapOffset x .after := by
    rw [charPlace, ← hplace, Int.toNat_natCast]
  exact ⟨heq, heq ▸ hchar⟩

theorem textPlace_eq (he : e ∈ c.edits) :
    c.textPlace e = ⟨c.mapOffset e.span.start .before, c.mapOffset e.span.start .after⟩ ∧
      (t.replaceFrom 0 c.edits).slice (c.textPlace e) = e.text := by
  obtain ⟨front, behind, hc⟩ := List.append_of_mem he
  have hup := h.upright e he
  have hin := h.inside e he
  have hcaught : e.Catches e.span.start := ⟨Nat.le_refl _, Or.inr rfl⟩
  have hbefore := mapOffset_caught h fits hc (Nat.le_trans hup hin) hcaught .before
  have hafter := mapOffset_caught h fits hc (Nat.le_trans hup hin) hcaught .after
  rw [hc] at h
  obtain ⟨_, htail, hcross⟩ := List.pairwise_append.mp h.apart
  have hfront : c.edits.filter (fun a => decide (a.span.start < e.span.start)) = front := by
    have hall : front.filter (fun a => decide (a.span.start < e.span.start)) = front := by
      rw [List.filter_eq_self]
      intro a ha
      simpa using (hcross a ha e List.mem_cons_self).1
    have hnone : (e :: behind).filter (fun a => decide (a.span.start < e.span.start)) = [] := by
      rw [List.filter_eq_nil_iff]
      intro a ha
      rcases List.mem_cons.mp ha with rfl | ha
      · simp
      · have := ((List.pairwise_cons.mp htail).1 a ha).1
        simp only [decide_eq_true_eq]
        omega
    rw [hc, List.filter_append, hall, hnone, List.append_nil]
  have hstart : (c.textPlace e).start = c.mapOffset e.span.start .before := by
    simp only [textPlace, hfront, Side.depth] at hbefore ⊢
    omega
  have hplace : c.textPlace e =
      ⟨c.mapOffset e.span.start .before, c.mapOffset e.span.start .before + e.text.length⟩ := by
    rw [← hstart]
    rfl
  constructor
  · rw [hplace]
    simp only [Side.depth] at hbefore hafter
    congr 1
    omega
  · rw [hplace, hc]
    refine Text.slice_replaceFrom_edit h ?_
    simp only [Side.depth] at hbefore
    omega

/-! ## Which side of them an offset lands on -/

theorem mapOffset_le_charPlace_iff (hx : x < t.length) (kept : Edit.Keeps c.edits x)
    (hy : y ≤ t.length) (side : Side) : c.mapOffset y side ≤ c.charPlace x ↔ y ≤ x := by
  have hbounds := mapOffset_before_le_after h fits hy
  rw [(charPlace_eq h fits hx kept).1]
  constructor
  · intro hle
    by_contra hlt
    have hsucc := mapOffset_succ h fits hx kept
    have hmono := mapOffset_mono h fits (show x + 1 ≤ y by omega) hy .before
    cases side with
    | before => omega
    | after => omega
  · intro hyx
    have hmono := mapOffset_mono h fits hyx (Nat.le_of_lt hx) .after
    cases side with
    | before => omega
    | after => exact hmono

section

variable (he : e ∈ c.edits) (insertion : e.span.IsEmpty)

include he insertion

/-- Only its own offset is caught by an insertion. -/
theorem mapOffset_apart_insertion (hxy : x < y) (hy : y ≤ t.length)
    (here : x = e.span.start ∨ y = e.span.start) :
    c.mapOffset x .after ≤ c.mapOffset y .before := by
  rcases mapOffset_apart h fits (Nat.le_of_lt hxy) hy with hle | ⟨a, ha, hcx, hcy⟩
  · exact hle
  · exfalso
    have hcaught : e.Catches e.span.start := ⟨Nat.le_refl _, Or.inr rfl⟩
    have hae : a = e := by
      rcases here with rfl | rfl
      · exact h.eq_of_catches ha he hcx hcaught
      · exact h.eq_of_catches ha he hcy hcaught
    subst hae
    unfold Span.IsEmpty at insertion
    unfold Edit.Catches at hcx hcy
    omega

theorem textPlace_sides (written : e.text ≠ []) (hx : x ≤ t.length) :
    (c.mapOffset x .before ≤ (c.textPlace e).start ↔ x ≤ e.span.start) ∧
      (c.mapOffset x .after ≤ (c.textPlace e).start ↔ x < e.span.start) ∧
      ((c.textPlace e).finish ≤ c.mapOffset x .before ↔ e.span.start < x) ∧
      ((c.textPlace e).finish ≤ c.mapOffset x .after ↔ e.span.start ≤ x) := by
  have hin := Nat.le_trans (h.upright e he) (h.inside e he)
  have hplace := (textPlace_eq h fits he).1
  have hstart : (c.textPlace e).start = c.mapOffset e.span.start .before :=
    congrArg Span.start hplace
  have hfinish : (c.textPlace e).finish = c.mapOffset e.span.start .after :=
    congrArg Span.finish hplace
  have hlong : (c.textPlace e).start < (c.textPlace e).finish :=
    Nat.lt_add_of_pos_right (List.length_pos_iff.mpr written)
  have hbounds := mapOffset_before_le_after h fits hx
  rcases Nat.lt_trichotomy x e.span.start with hlt | rfl | hgt
  · have := mapOffset_apart_insertion h fits he insertion hlt hin (Or.inr rfl)
    omega
  · omega
  · have := mapOffset_apart_insertion h fits he insertion hgt hx (Or.inl rfl)
    omega

end

/-- The cut at the end of the document never takes effect. -/
theorem mapSpan_eq {s : Span} (upright : s.start ≤ s.finish) (inside : s.finish ≤ t.length)
    (grows : Bool) :
    c.mapSpan s grows (t.replaceFrom 0 c.edits).length =
      if grows then ⟨c.mapOffset s.start .before, c.mapOffset s.finish .after⟩
      else ⟨c.mapOffset s.start .after,
        max (c.mapOffset s.start .after) (c.mapOffset s.finish .before)⟩ := by
  have hstart (side : Side) := mapOffset_le_length h fits (Nat.le_trans upright inside) side
  have hfinish (side : Side) := mapOffset_le_length h fits inside side
  cases grows with
  | true =>
    have hbounds := mapOffset_before_le_after h fits (Nat.le_trans upright inside)
    have hmono := mapOffset_mono h fits upright inside .after
    simp only [mapSpan, if_true, Nat.min_eq_left (hstart _), Nat.min_eq_left (hfinish _),
      Nat.max_eq_right (Nat.le_trans hbounds hmono)]
  | false =>
    simp only [mapSpan, Bool.false_eq_true, if_false, Nat.min_eq_left (hstart _),
      Nat.min_eq_left (hfinish _)]

variable {s : Span} (upright : s.start ≤ s.finish) (inside : s.finish ≤ t.length) (grows : Bool)

include upright inside

theorem mapSpan_holds_iff (hx : x < t.length) (kept : Edit.Keeps c.edits x) :
    (c.mapSpan s grows (t.replaceFrom 0 c.edits).length).Holds (c.charPlace x) ↔ s.Holds x := by
  have hstart (side : Side) :=
    mapOffset_le_charPlace_iff h fits hx kept (Nat.le_trans upright inside) side
  have hfinish (side : Side) := mapOffset_le_charPlace_iff h fits hx kept inside side
  rw [mapSpan_eq h fits upright inside]
  unfold Span.Holds
  cases grows with
  | true =>
    have := hstart .before
    have := hfinish .after
    simp only [if_true]
    omega
  | false =>
    have := hstart .after
    have := hfinish .before
    simp only [Bool.false_eq_true, if_false]
    omega

theorem mapSpan_includes_iff (he : e ∈ c.edits) (insertion : e.span.IsEmpty)
    (written : e.text ≠ []) :
    (c.mapSpan s grows (t.replaceFrom 0 c.edits).length).Includes (c.textPlace e) ↔
      if grows then s.Touches e.span.start
      else s.start < e.span.start ∧ e.span.start < s.finish := by
  have hlong : (c.textPlace e).start < (c.textPlace e).finish :=
    Nat.lt_add_of_pos_right (List.length_pos_iff.mpr written)
  have hstart := textPlace_sides h fits he insertion written (Nat.le_trans upright inside)
  have hfinish := textPlace_sides h fits he insertion written inside
  rw [mapSpan_eq h fits upright inside]
  unfold Span.Includes Span.Touches
  cases grows with
  | true =>
    simp only [if_true]
    rw [hstart.1, hfinish.2.2.2]
  | false =>
    -- Text in front of which the range begins cannot end where the range begins.
    simp only [Bool.false_eq_true, if_false]
    rw [← hstart.2.1, ← hfinish.2.2.1]
    omega

end Change

structure FollowsText (t : Text) (c : Change) (current : Nat) (old now : LiveStop) : Prop where
  same : now = { old with span := now.span }
  kept : ∀ x < t.length, Edit.Keeps c.edits x →
    (c.applyTo t)[c.charPlace x]? = t[x]? ∧
      (now.span.Holds (c.charPlace x) ↔ old.span.Holds x)
  inserted : ∀ e ∈ c.edits, e.span.IsEmpty → e.text ≠ [] →
    (c.applyTo t).slice (c.textPlace e) = e.text ∧
      (now.span.Includes (c.textPlace e) ↔
        if old.index = current then old.span.Touches e.span.start
        else old.span.start < e.span.start ∧ e.span.start < old.span.finish)

theorem remapStops_follow_text {t : Text} {b : Batch} (accepted : b.fault? t.length = none)
    (fits : ((Change.ofBatch b).applyTo t).length < 9223372036854775808) {stops : List LiveStop}
    (bounds : ∀ s ∈ stops, s.span.start ≤ s.span.finish ∧ s.span.finish ≤ t.length)
    (current : Nat) :
    List.Forall₂ (FollowsText t (.ofBatch b) current) stops
      (remapStops stops current (.ofBatch b) ((Change.ofBatch b).applyTo t).length) := by
  have h : Edit.Ordered t.length (Change.ofBatch b).edits := Batch.fault?_eq_none_iff.mp accepted
  have happlied := Text.applyTo_eq h
  rw [happlied] at fits ⊢
  rw [remapStops, List.forall₂_map_right_iff, List.forall₂_same]
  intro s hs
  obtain ⟨hup, hin⟩ := bounds s hs
  constructor
  · rfl
  · intro x hx hkept
    rw [happlied]
    exact ⟨(Change.charPlace_eq h fits hx hkept).2,
      Change.mapSpan_holds_iff h fits hup hin _ hx hkept⟩
  · intro e he hempty hwritten
    have hiff := Change.mapSpan_includes_iff h fits hup hin (s.index == current) he hempty hwritten
    rw [happlied]
    refine ⟨(Change.textPlace_eq h fits he).2, ?_⟩
    simpa only [beq_iff_eq] using hiff

def meetingStops : List LiveStop :=
  [⟨{ index := 1, span := ⟨0, 3⟩ }, []⟩, ⟨{ index := 0, span := ⟨3, 3⟩ }, []⟩,
    ⟨{ index := 2, span := ⟨3, 5⟩ }, []⟩]

def meetingEdits : Batch := ⟨[⟨⟨3, 3⟩, "xyz".toList⟩, ⟨⟨0, 1⟩, []⟩], .user⟩

theorem meetingStops_follow_text :
    List.Forall₂ (FollowsText "abcdef".toList (.ofBatch meetingEdits) 1) meetingStops
      (remapStops meetingStops 1 (.ofBatch meetingEdits)
        ((Change.ofBatch meetingEdits).applyTo "abcdef".toList).length) :=
  remapStops_follow_text (by decide) (by decide) (by decide) 1

example : (remapStops meetingStops 1 (.ofBatch meetingEdits) 8).map (·.span) =
    [⟨0, 5⟩, ⟨5, 5⟩, ⟨5, 7⟩] := by decide +kernel

end Snippets
