import Snippets.Proofs.Effects
import Snippets.Proofs.SyncedGroup

/-!
# A group in line

When the members of a group lie one behind the other, a sync moves each of them by the growth of the
members that are listed before it, and all of them read the source text afterwards. They stay in
line.
-/

namespace Snippets

namespace Sync

/-! ## Growth of some of the edits -/

def gainsOf (edits : List (Nat × Edit)) (p : Nat × Edit → Bool) : Int :=
  Edit.gains ((edits.filter p).map (·.2))

variable {edits : List (Nat × Edit)} {p q : Nat × Edit → Bool} {length x y : Nat}

theorem gainsOf_congr (h : ∀ a ∈ edits, p a = q a) : gainsOf edits p = gainsOf edits q := by
  rw [gainsOf, List.filter_congr h, gainsOf]

theorem gainsOf_split (edits : List (Nat × Edit)) (sub : ∀ a ∈ edits, p a → q a) :
    gainsOf edits q = gainsOf edits p + gainsOf edits fun a => q a && !p a := by
  unfold gainsOf
  induction edits with
  | nil => rfl
  | cons a rest ih =>
    have hrest := ih fun b hb => sub b (List.mem_cons_of_mem a hb)
    have ha := sub a List.mem_cons_self
    cases hp : p a with
    | true =>
      have hq := ha hp
      simp only [List.filter_cons, hp, hq, Bool.not_true, Bool.and_false, if_true, List.map_cons,
        Edit.gains_cons, hrest]
      simp
      omega
    | false =>
      cases hq : q a with
      | true =>
        simp [hp, hq, hrest]
        omega
      | false => simp [hp, hq, hrest]

/-- Between two offsets some edits more can only shrink the text by as much as the offsets are
apart. -/
theorem Listed.gainsOf_le (h : Listed length edits) (sub : ∀ a ∈ edits, p a → q a) (hxy : x ≤ y)
    (between : ∀ a ∈ edits, q a → p a = false → x ≤ a.2.span.start ∧ a.2.span.finish ≤ y) :
    gainsOf edits p + x ≤ gainsOf edits q + y := by
  have hshrink := Edit.gains_between (h.ordered.sublist ((List.filter_sublist
    (p := fun a => q a && !p a)).map (·.2))) hxy fun e he => by
      obtain ⟨a, ha, rfl⟩ := List.mem_map.mp he
      obtain ⟨hmem, hpick⟩ := List.mem_filter.mp ha
      rw [Bool.and_eq_true, Bool.not_eq_true'] at hpick
      exact between a hmem hpick.1 hpick.2
  rw [gainsOf_split edits sub]
  unfold gainsOf at hshrink ⊢
  omega

theorem filter_position {edits : List (Nat × Edit)}
    (positions : edits.Pairwise fun a b => a.1 < b.1) {a : Nat × Edit} (ha : a ∈ edits) :
    edits.filter (fun b => b.1 == a.1) = [a] := by
  obtain ⟨front, behind, rfl⟩ := List.append_of_mem ha
  obtain ⟨_, htail, hcross⟩ := List.pairwise_append.mp positions
  have hfront : front.filter (fun b => b.1 == a.1) = [] := by
    rw [List.filter_eq_nil_iff]
    intro b hb
    have := hcross b hb a List.mem_cons_self
    simp only [beq_iff_eq]
    omega
  have hbehind : behind.filter (fun b => b.1 == a.1) = [] := by
    rw [List.filter_eq_nil_iff]
    intro b hb
    have := (List.pairwise_cons.mp htail).1 b hb
    simp only [beq_iff_eq]
    omega
  rw [List.filter_append, hfront, List.filter_cons_of_pos (by simp), hbehind, List.nil_append]

theorem shiftedSpan_start (edits : List (Nat × Edit)) (current length : Nat) (s : Span)
    (position : Nat) :
    (shiftedSpan edits current length s position).start = shifted edits s.start position := by
  unfold shiftedSpan
  dsimp only
  split
  · rfl
  · rfl

namespace Site

variable {site : Site} {d : Document}

structure Member (site : Site) (i : Nat) (m : LiveStop) : Prop where
  stop : site.top.stops[i]? = some m
  index : m.index = site.top.current

/-- The stops with the current index are the group of the current stop, one behind the other. -/
structure InLine (site : Site) (d : Document) : Prop where
  sound : site.Sound d
  current : site.stop.index = site.top.current
  group : ∀ m ∈ site.top.stops, site.stop.SameGroup m ↔ m.index = site.top.current
  apart : ∀ {i j : Nat} {a b : LiveStop}, site.Member i a → site.Member j b → i < j →
    a.span.finish ≤ b.span.start

/-- Where the text of a member ends before the sync; that of the current stop ends with the
source. -/
def reach (site : Site) (d : Document) (i : Nat) (m : LiveStop) : Nat :=
  if i = site.current then (site.source d).finish else m.span.finish

def lead (site : Site) (d : Document) (i : Nat) : Int :=
  gainsOf (site.edits d) fun a => a.1 < i

def moved (site : Site) (d : Document) (i : Nat) (m : LiveStop) : Span :=
  shiftedSpan (site.edits d) site.current (site.source d).length m.span i

theorem reach_of_ne {i : Nat} (h : i ≠ site.current) (m : LiveStop) :
    site.reach d i m = m.span.finish := if_neg h

theorem reach_current (m : LiveStop) : site.reach d site.current m = (site.source d).finish :=
  if_pos rfl

namespace InLine

section

variable (h : site.InLine d)

include h

theorem member_current : site.Member site.current site.stop := ⟨h.sound.stop, h.current⟩

theorem linked_iff {i : Nat} {m : LiveStop} (hm : site.top.stops[i]? = some m) :
    i ∈ site.stop.linked ↔ i ≠ site.current ∧ site.Member i m := by
  rw [h.sound.linked_eq, LiveStop.mem_linksAt]
  refine and_congr_right fun _ => ⟨?_, fun hmember => ⟨m, hm, ?_⟩⟩
  · rintro ⟨t, ht, hgroup⟩
    rw [hm, Option.some_inj] at ht
    rw [← ht] at hgroup
    exact ⟨hm, (h.group m (List.mem_of_getElem? hm)).mp hgroup⟩
  · exact (h.group m (List.mem_of_getElem? hm)).mpr hmember.index

/-- What is replaced are members other than the current stop. -/
theorem member_of_edit {c : Nat × Edit} (hc : c ∈ site.edits d) :
    ∃ m, site.Member c.1 m ∧ c.1 ≠ site.current ∧ c.2.span = m.span ∧ c.2.text = site.text d := by
  obtain ⟨m, hm, he⟩ := mem_edits.mp (show (c.1, c.2) ∈ site.edits d from hc)
  obtain ⟨hne, hmember⟩ := (h.linked_iff hm.stop).mp hm.linked
  exact ⟨m, hmember, hne, congrArg Edit.span he, congrArg Edit.text he⟩

variable {i j : Nat} {a b : LiveStop} (ha : site.Member i a) (hb : site.Member j b)

include ha

theorem member_upright : a.span.start ≤ a.span.finish ∧ a.span.finish ≤ d.text.length := by
  have hmem := List.mem_of_getElem? ha.stop
  exact ⟨h.sound.normal.upright a hmem, h.sound.inside a hmem⟩

theorem eq_current (hi : i = site.current) : a = site.stop := by
  have hstop := ha.stop
  rw [hi, h.sound.stop, Option.some_inj] at hstop
  exact hstop.symm

theorem start_le_reach : a.span.start ≤ site.reach d i a := by
  by_cases hi : i = site.current
  · have hbounds := h.sound.source_bounds
    have hstart := h.sound.source_start
    rw [h.eq_current ha hi, hi, reach_current]
    omega
  · rw [reach_of_ne hi]
    exact (h.member_upright ha).1

include hb

theorem start_le (hij : i ≤ j) : a.span.start ≤ b.span.start := by
  have hle := LiveStop.le_iff.mp (h.sound.normal.le_of_le ha.stop hb.stop hij)
  omega

theorem reach_le (hij : i < j) : site.reach d i a ≤ b.span.start := by
  have hapart := h.apart ha hb hij
  by_cases hi : i = site.current
  · have hne : j ≠ site.current := by omega
    rw [h.eq_current ha hi] at hapart
    rw [hi, reach_current]
    exact h.sound.source_finish_le ((h.linked_iff hb.stop).mpr ⟨hne, hb⟩) hb.stop hapart
  · rw [reach_of_ne hi]
    exact hapart

theorem lt_of_start_lt (hlt : a.span.start < b.span.start) : i < j := by
  by_contra hle
  have := h.start_le hb ha (Nat.le_of_not_lt hle)
  omega

omit ha hb

/-- What is replaced behind the current stop begins behind the source. -/
theorem source_le_edit {c : Nat × Edit} (hc : c ∈ site.edits d) (behind : ¬ c.1 < site.current) :
    (site.source d).finish ≤ c.2.span.start := by
  obtain ⟨m, hm, hne, hspan, _⟩ := h.member_of_edit hc
  have hle := h.reach_le h.member_current hm (show site.current < c.1 by omega)
  rw [reach_current] at hle
  rw [hspan]
  exact hle

end

end InLine

/-! ## Where they are moved -/

theorem lead_succ_of_not_mem {i : Nat} (hnone : ∀ e, (i, e) ∉ site.edits d) :
    site.lead d (i + 1) = site.lead d i := by
  refine gainsOf_congr fun a ha => ?_
  have hne : a.1 ≠ i := fun hi => hnone a.2 (hi ▸ ha)
  rw [decide_eq_decide]
  omega

theorem lead_succ_of_mem {i : Nat} {e : Edit}
    (positions : (site.edits d).Pairwise fun a b => a.1 < b.1) (he : (i, e) ∈ site.edits d) :
    site.lead d (i + 1) = site.lead d i + e.gain := by
  have hsplit := gainsOf_split (p := fun a => decide (a.1 < i)) (q := fun a => decide (a.1 < i + 1))
    (site.edits d) fun a _ ha => by
      simp only [decide_eq_true_eq] at ha ⊢
      omega
  have hone : (site.edits d).filter (fun a => decide (a.1 < i + 1) && !decide (a.1 < i)) =
      [(i, e)] := by
    rw [← filter_position positions he]
    refine List.filter_congr fun a _ => ?_
    rw [Bool.eq_iff_iff]
    simp only [Bool.and_eq_true, Bool.not_eq_true', decide_eq_true_eq, decide_eq_false_iff_not,
      beq_iff_eq]
    omega
  rw [lead, hsplit, lead]
  congr 1
  rw [gainsOf, hone]
  simp

namespace InLine

variable (h : site.InLine d)

include h

theorem lead_current : site.lead d (site.current + 1) = site.lead d site.current := by
  refine lead_succ_of_not_mem fun e he => ?_
  obtain ⟨_, _, hne, _⟩ := h.member_of_edit he
  exact hne rfl

variable {i j : Nat} {a b : LiveStop} (ha : site.Member i a) (hb : site.Member j b)

include ha

/-- The edits that count for the start of a member are those of the members before it. -/
theorem counted_start : counted (site.edits d) a.span.start i =
    (site.edits d).filter fun c => c.1 < i := by
  refine List.filter_congr fun c hc => ?_
  obtain ⟨m, hm, _, hspan, _⟩ := h.member_of_edit hc
  rw [Bool.eq_iff_iff]
  simp only [Bool.or_eq_true, Bool.and_eq_true, decide_eq_true_eq, beq_iff_eq, hspan]
  constructor
  · rintro (hlt | ⟨_, hlt⟩)
    · exact h.lt_of_start_lt hm ha hlt
    · exact hlt
  · intro hlt
    have := h.start_le hm ha (Nat.le_of_lt hlt)
    omega

/-- For the end of a member that stays as it is no others count. -/
theorem counted_finish (hnone : ∀ e, (i, e) ∉ site.edits d) :
    counted (site.edits d) a.span.finish i = (site.edits d).filter fun c => c.1 < i := by
  refine List.filter_congr fun c hc => ?_
  obtain ⟨m, hm, _, hspan, _⟩ := h.member_of_edit hc
  have hup := h.member_upright ha
  have hne : c.1 ≠ i := fun heq => hnone c.2 (heq ▸ hc)
  rw [Bool.eq_iff_iff]
  simp only [Bool.or_eq_true, Bool.and_eq_true, decide_eq_true_eq, beq_iff_eq, hspan]
  constructor
  · rintro (hlt | ⟨_, hlt⟩)
    · by_contra hle
      have := h.apart ha hm (show i < c.1 by omega)
      omega
    · exact hlt
  · intro hlt
    have := h.start_le hm ha (Nat.le_of_lt hlt)
    omega

variable {origin : Origin}
  (hf : Batch.fault? ⟨(site.plan d).edits, origin⟩ d.text.length = none)

include hf

theorem lead_room : 0 ≤ (a.span.start : Int) + site.lead d i := by
  have listed := h.sound.listed hf
  have hnone : gainsOf (site.edits d) (fun _ => false) = 0 := by
    rw [gainsOf, List.filter_false]
    rfl
  have hroom := listed.gainsOf_le (p := fun _ => false) (q := fun c => decide (c.1 < i))
    (fun _ _ hfalse => by cases hfalse) (Nat.zero_le a.span.start) fun c hc hlt _ => by
      obtain ⟨m, hm, _, hspan, _⟩ := h.member_of_edit hc
      rw [hspan]
      exact ⟨Nat.zero_le _, h.apart hm ha (of_decide_eq_true hlt)⟩
  rw [hnone] at hroom
  unfold lead
  omega

variable (fits : d.text.length < 9223372036854775808)
  (fits' : (d.text.replaceFrom 0 ((site.edits d).map (·.2))).length < 9223372036854775808)

include fits fits'

theorem moved_start : ((site.moved d i a).start : Int) = a.span.start + site.lead d i := by
  have hbounds := h.member_upright ha
  have listed := h.sound.listed hf
  have hroom := h.lead_room ha hf
  have hshift := listed.shifted_eq fits fits' (Nat.le_trans hbounds.1 hbounds.2) i
  rw [h.counted_start ha] at hshift
  have hstart : (site.moved d i a).start = shifted (site.edits d) a.span.start i := by
    unfold moved
    exact shiftedSpan_start _ _ _ _ _
  rw [hstart, hshift]
  unfold lead gainsOf at hroom ⊢
  omega

/-- After the sync a member ends where the growth up to it and its own takes the end of its text. -/
theorem moved_finish :
    ((site.moved d i a).finish : Int) = site.reach d i a + site.lead d (i + 1) := by
  have listed := h.sound.listed hf
  have hstart := h.moved_start ha hf fits fits'
  have hbounds := h.member_upright ha
  have hsource := h.sound.source_bounds
  by_cases hlong : i = site.current ∨ (site.edits d).any (·.1 == i) = true
  · have hlen : (site.moved d i a).finish =
        (site.moved d i a).start + (site.source d).length := by
      unfold moved shiftedSpan
      rw [if_pos hlong]
    rw [hlen, Int.natCast_add, hstart, Span.length]
    rcases hlong with hi | hany
    · have hfirst := h.sound.source_start
      rw [h.eq_current ha hi, hi, reach_current, h.lead_current]
      omega
    · obtain ⟨c, hc, hci⟩ := List.any_eq_true.mp hany
      obtain ⟨m, hm, hne, hspan, htext⟩ := h.member_of_edit hc
      obtain rfl : c.1 = i := by simpa using hci
      obtain rfl : m = a := Option.some.inj (hm.stop.symm.trans ha.stop)
      have hlentext := h.sound.length_text
      rw [reach_of_ne hne, lead_succ_of_mem listed.positions hc, Edit.gain, hspan, htext,
        hlentext, Span.length]
      omega
  · have hi : i ≠ site.current := fun hi => hlong (Or.inl hi)
    have hnone : ∀ e, (i, e) ∉ site.edits d := fun e he =>
      hlong (Or.inr (List.any_eq_true.mpr ⟨_, he, by simp⟩))
    have hshift := listed.shifted_eq fits fits' hbounds.2 i
    rw [h.counted_finish ha hnone] at hshift
    have hfinish : (site.moved d i a).finish =
        max (site.moved d i a).start (shifted (site.edits d) a.span.finish i) := by
      unfold moved shiftedSpan
      rw [if_neg hlong]
    rw [reach_of_ne hi, lead_succ_of_not_mem hnone, hfinish, hshift]
    unfold lead gainsOf at hstart ⊢
    omega

omit fits fits' hf in
theorem clear (hi : i ≠ site.current) : ¬ a.span.Overlaps (site.source d) := by
  have hstart := h.sound.source_start
  have hup := h.member_upright ha
  unfold Span.Overlaps
  rcases Nat.lt_or_gt_of_ne hi with hlt | hlt
  · have hapart := h.apart ha h.member_current hlt
    split
    · omega
    · omega
  · have hbehind := h.reach_le h.member_current ha hlt
    rw [reach_current] at hbehind
    split
    · omega
    · omega

/-- A member that is not replaced is moved, and reads what it read before. -/
theorem slice_unreplaced (hi : i ≠ site.current) (hnone : ∀ e, (i, e) ∉ site.edits d) :
    (d.text.replaceFrom 0 ((site.edits d).map (·.2))).slice (site.moved d i a) =
      d.text.slice a.span := by
  have listed := h.sound.listed hf
  have hup := h.member_upright ha
  have hstart := h.moved_start ha hf fits fits'
  have hfinish := h.moved_finish ha hf fits fits'
  rw [reach_of_ne hi, lead_succ_of_not_mem hnone] at hfinish
  have hspan : site.moved d i a = ⟨shifted (site.edits d) a.span.start i,
      shifted (site.edits d) a.span.start i + (a.span.finish - a.span.start)⟩ := by
    have hfirst : (site.moved d i a).start = shifted (site.edits d) a.span.start i :=
      shiftedSpan_start _ _ _ _ _
    rw [← hfirst]
    cases hmoved : site.moved d i a with
    | mk start finish =>
      rw [hmoved] at hstart hfinish
      dsimp only at hstart hfinish ⊢
      congr 1
      omega
  rw [hspan]
  refine listed.slice_between fits fits' hup.1 hup.2 ?_ ?_
  · intro c hc
    rw [h.counted_start ha] at hc
    obtain ⟨hmem, hlt⟩ := List.mem_filter.mp hc
    obtain ⟨m, hm, _, hspan, _⟩ := h.member_of_edit hmem
    rw [hspan]
    exact h.apart hm ha (of_decide_eq_true hlt)
  · intro c hc
    obtain ⟨hmem, hnot⟩ := mem_uncounted.mp hc
    obtain ⟨m, hm, _, hspan, _⟩ := h.member_of_edit hmem
    rw [hspan] at hnot ⊢
    have hne : c.1 ≠ i := fun heq => hnone c.2 (heq ▸ hmem)
    have hlt : i < c.1 := by
      by_contra hle
      have := h.start_le hm ha (show c.1 ≤ i by omega)
      omega
    exact h.apart ha hm hlt

/-- Afterwards every member reads the source text. -/
theorem slice_moved :
    (d.text.replaceFrom 0 ((site.edits d).map (·.2))).slice (site.moved d i a) = site.text d := by
  by_cases hi : i = site.current
  · rw [hi, h.eq_current ha hi]
    exact h.sound.slice_current hf fits fits'
  by_cases hsame : d.text.slice a.span = site.text d
  · have hnone : ∀ e, (i, e) ∉ site.edits d := by
      intro e he
      obtain ⟨m, hm, _⟩ := mem_edits.mp he
      have hdiffers := hm.differs
      rw [Option.some.inj (hm.stop.symm.trans ha.stop)] at hdiffers
      exact hdiffers hsame
    rw [h.slice_unreplaced ha hf fits fits' hi hnone, hsame]
  · have hlinked : i ∈ site.stop.linked := (h.linked_iff ha.stop).mpr ⟨hi, ha⟩
    exact h.sound.slice_replaced hf fits fits' ⟨hlinked, ha.stop, h.clear ha hi, hsame⟩

include hb

theorem moved_apart (hij : i < j) : (site.moved d i a).finish ≤ (site.moved d j b).start := by
  have listed := h.sound.listed hf
  have hfinish := h.moved_finish ha hf fits fits'
  have hstart := h.moved_start hb hf fits fits'
  have hroom := listed.gainsOf_le (p := fun c => decide (c.1 < i + 1))
    (q := fun c => decide (c.1 < j))
    (fun c _ hlt => by simp only [decide_eq_true_eq] at hlt ⊢; omega) (h.reach_le ha hb hij)
    fun c hc hlt hnot => by
      obtain ⟨m, hm, _, hspan, _⟩ := h.member_of_edit hc
      simp only [decide_eq_true_eq, decide_eq_false_iff_not] at hlt hnot
      rw [hspan]
      exact ⟨h.reach_le ha hm (by omega), h.apart hm hb hlt⟩
  unfold lead at hfinish hstart
  omega

end InLine

end Site

end Sync

end Snippets
