import Snippets.Proofs.SyncPlan

/-!
# Shifting by whole edits

A sync moves the ends of a stop by the whole growth of the edits in front of them, also of an edit
whose range reaches past the end. When the text is shorter than what lies behind such an end in the
range, the end lands in front of the text and may be carried over characters that the sync keeps.
-/

namespace Snippets.Sync

structure Listed (length : Nat) (edits : List (Nat × Edit)) : Prop where
  ordered : Edit.Ordered length (edits.map (·.2))
  positions : edits.Pairwise fun a b => a.1 < b.1

def counted (edits : List (Nat × Edit)) (offset position : Nat) : List (Nat × Edit) :=
  edits.filter fun (i, e) => e.span.start < offset || (e.span.start == offset && i < position)

def uncounted (edits : List (Nat × Edit)) (offset position : Nat) : List (Nat × Edit) :=
  edits.filter fun (i, e) => !(e.span.start < offset || (e.span.start == offset && i < position))

variable {edits : List (Nat × Edit)} {offset position : Nat}

theorem mem_counted {a : Nat × Edit} : a ∈ counted edits offset position ↔
    a ∈ edits ∧ (a.2.span.start < offset ∨ (a.2.span.start = offset ∧ a.1 < position)) := by
  simp [counted]

theorem mem_uncounted {a : Nat × Edit} : a ∈ uncounted edits offset position ↔
    a ∈ edits ∧ ¬ (a.2.span.start < offset ∨ (a.2.span.start = offset ∧ a.1 < position)) := by
  simp only [uncounted, List.mem_filter, Bool.not_eq_true', Bool.or_eq_false_iff,
    Bool.and_eq_false_iff, decide_eq_false_iff_not, beq_eq_false_iff_ne]
  refine and_congr_right fun _ => ?_
  omega

theorem uncounted_start {a : Nat × Edit} (h : a ∈ uncounted edits offset position) :
    offset ≤ a.2.span.start := by
  have := (mem_uncounted.mp h).2
  omega

theorem Listed.pairwise {length : Nat} (h : Listed length edits) :
    edits.Pairwise fun a b => a.1 < b.1 ∧ a.2.span.Precedes b.2.span := by
  have hapart := h.ordered.apart
  rw [List.pairwise_map] at hapart
  exact h.positions.and hapart

theorem Listed.counted_append {length : Nat} (h : Listed length edits) (offset position : Nat) :
    counted edits offset position ++ uncounted edits offset position = edits := by
  refine filter_append_filter_not h.pairwise fun a b hab hb => ?_
  have := hab.2.1
  simp only [Bool.or_eq_true, Bool.and_eq_true, decide_eq_true_eq, beq_iff_eq] at hb ⊢
  omega

theorem Listed.counted_ordered {length : Nat} (h : Listed length edits) (offset position : Nat) :
    Edit.Ordered length ((counted edits offset position).map (·.2) ++
      (uncounted edits offset position).map (·.2)) := by
  rw [← List.map_append, h.counted_append]
  exact h.ordered

/-- In documents whose offsets are words the shift is the plain sum, cut at the beginning. -/
theorem Listed.shifted_eq {t : Text} (h : Listed t.length edits)
    (fits : t.length < 9223372036854775808)
    (fits' : (t.replaceFrom 0 (edits.map (·.2))).length < 9223372036854775808)
    (hx : offset ≤ t.length) (position : Nat) :
    shifted edits offset position =
      ((offset : Int) + Edit.gains ((counted edits offset position).map (·.2))).toNat := by
  have hbounds := Text.gains_bounds (h.counted_ordered offset position) hx
    fun e he => by
      obtain ⟨a, ha, rfl⟩ := List.mem_map.mp he
      exact uncounted_start ha
  rw [← List.map_append, h.counted_append] at hbounds
  have hshift : shifted edits offset position =
      Word.offset (offset + Edit.growth ((counted edits offset position).map (·.2))) := rfl
  rw [hshift, Edit.offset_add_growth]
  unfold Word.Fits
  omega

theorem shiftedSpan_upright (edits : List (Nat × Edit)) (current length : Nat) (s : Span)
    (position : Nat) : (shiftedSpan edits current length s position).start ≤
      (shiftedSpan edits current length s position).finish := by
  unfold shiftedSpan
  dsimp only
  split
  · exact Nat.le_add_right _ _
  · exact Nat.le_max_left _ _

/-- Only the edits listed before an edit count for its own start. -/
theorem Listed.counted_self {length : Nat} {front behind : List (Nat × Edit)} {a : Nat × Edit}
    (h : Listed length (front ++ a :: behind)) :
    counted (front ++ a :: behind) a.2.span.start a.1 = front := by
  obtain ⟨_, htail, hcross⟩ := List.pairwise_append.mp h.pairwise
  have hfront : counted front a.2.span.start a.1 = front := by
    rw [counted, List.filter_eq_self]
    intro b hb
    simp [(hcross b hb a List.mem_cons_self).2.1]
  have hbehind : counted (a :: behind) a.2.span.start a.1 = [] := by
    rw [counted, List.filter_eq_nil_iff]
    intro b hb
    rcases List.mem_cons.mp hb with rfl | hb
    · simp
    · have := ((List.pairwise_cons.mp htail).1 b hb).2.1
      simp only [Bool.or_eq_true, Bool.and_eq_true, decide_eq_true_eq, beq_iff_eq]
      omega
  unfold counted at hfront hbehind ⊢
  rw [List.filter_append, hfront, hbehind, List.append_nil]

section

variable {t : Text}

/-- The shifted range of a stop that was replaced reads the new text. -/
theorem Listed.slice_edit (h : Listed t.length edits) (fits : t.length < 9223372036854775808)
    (fits' : (t.replaceFrom 0 (edits.map (·.2))).length < 9223372036854775808) {a : Nat × Edit}
    (ha : a ∈ edits) :
    (t.replaceFrom 0 (edits.map (·.2))).slice
      ⟨shifted edits a.2.span.start a.1, shifted edits a.2.span.start a.1 + a.2.text.length⟩ =
        a.2.text := by
  have hmem : a.2 ∈ edits.map (·.2) := List.mem_map_of_mem ha
  have hup := h.ordered.upright a.2 hmem
  have hin := h.ordered.inside a.2 hmem
  have hplace := h.shifted_eq fits fits' (Nat.le_trans hup hin) a.1
  obtain ⟨front, behind, rfl⟩ := List.append_of_mem ha
  have hord := h.ordered
  rw [List.map_append, List.map_cons] at hord
  rw [h.counted_self] at hplace
  have hnonneg : 0 ≤ (a.2.span.start : Int) + Edit.gains (front.map (·.2)) := by
    have hlen := Text.length_replaceFrom_take hord (Nat.le_trans hup hin) fun e he =>
      ((List.pairwise_append.mp hord.apart).2.2 e he a.2 List.mem_cons_self).2
    omega
  rw [List.map_append, List.map_cons]
  exact Text.slice_replaceFrom_edit hord (by omega)

/-- The shifted place of text between the ranges reads that text. -/
theorem Listed.slice_between (h : Listed t.length edits) (fits : t.length < 9223372036854775808)
    (fits' : (t.replaceFrom 0 (edits.map (·.2))).length < 9223372036854775808) {y : Nat}
    (hxy : offset ≤ y) (hy : y ≤ t.length)
    (hcounted : ∀ a ∈ counted edits offset position, a.2.span.finish ≤ offset)
    (huncounted : ∀ a ∈ uncounted edits offset position, y ≤ a.2.span.start) :
    (t.replaceFrom 0 (edits.map (·.2))).slice
      ⟨shifted edits offset position, shifted edits offset position + (y - offset)⟩ =
        t.slice ⟨offset, y⟩ := by
  have hplace := h.shifted_eq fits fits' (Nat.le_trans hxy hy) position
  have hord := h.counted_ordered offset position
  have hfront : ∀ e ∈ (counted edits offset position).map (·.2), e.span.finish ≤ offset := by
    simpa using fun e i he => hcounted (i, e) he
  have hbehind : ∀ e ∈ (uncounted edits offset position).map (·.2), y ≤ e.span.start := by
    simpa using fun e i he => huncounted (i, e) he
  have hlen := Text.length_replaceFrom_take hord (Nat.le_trans hxy hy) hfront
  have hslice := Text.slice_replaceFrom_kept hord hxy hy hfront hbehind
    (shifted edits offset position) (by omega)
  rw [← List.map_append, h.counted_append] at hslice
  exact hslice

end

/-! ## Ends that are carried over kept text -/

def between (edits : List (Nat × Edit)) (c start : Nat) : List (Nat × Edit) :=
  edits.filter fun (_, e) => decide (c < e.span.start) && decide (e.span.start < start)

/-- A range counts for an offset that it reaches past, and its text is so much shorter than the part
of the range behind the offset that the offset falls back over the character at `c`. -/
def CarriedOver (edits : List (Nat × Edit)) (offset position c : Nat) : Prop :=
  ∃ a ∈ edits, (a.2.span.start < offset ∨ (a.2.span.start = offset ∧ a.1 < position)) ∧
    offset < a.2.span.finish ∧ c < a.2.span.start ∧
    (a.2.span.start : Int) - c + Edit.gains ((between edits c a.2.span.start).map (·.2)) ≤
      (a.2.span.finish : Int) - offset - a.2.text.length

instance (edits : List (Nat × Edit)) (offset position c : Nat) :
    Decidable (CarriedOver edits offset position c) :=
  inferInstanceAs (Decidable (∃ _ ∈ _, _))

def countedBehind (edits : List (Nat × Edit)) (offset position c : Nat) : List (Nat × Edit) :=
  (counted edits offset position).filter fun a => c < a.2.span.start

theorem mem_countedBehind {c : Nat} {a : Nat × Edit} : a ∈ countedBehind edits offset position c ↔
    a ∈ edits ∧ (a.2.span.start < offset ∨ (a.2.span.start = offset ∧ a.1 < position)) ∧
      c < a.2.span.start := by
  rw [countedBehind, List.mem_filter, mem_counted, decide_eq_true_eq, and_assoc]

/-- An edit that reaches past the offset is the last one that counts. -/
theorem Listed.countedBehind_eq {length c : Nat} (h : Listed length edits) {a : Nat × Edit}
    (ha : a ∈ countedBehind edits offset position c) (hpast : offset < a.2.span.finish) :
    countedBehind edits offset position c = between edits c a.2.span.start ++ [a] := by
  have hsub : (countedBehind edits offset position c).Sublist edits :=
    List.filter_sublist.trans List.filter_sublist
  obtain ⟨front, behind, hsplit⟩ := List.append_of_mem ha
  have hpair := h.pairwise.sublist hsub
  rw [hsplit] at hpair
  obtain ⟨_, htail, hcross⟩ := List.pairwise_append.mp hpair
  have hcounted := (mem_countedBehind.mp ha).2.1
  have hbehind : behind = [] := by
    refine List.eq_nil_iff_forall_not_mem.mpr fun b hb => ?_
    have hprec := ((List.pairwise_cons.mp htail).1 b hb).2.2
    have hmem : b ∈ countedBehind edits offset position c := by
      rw [hsplit]
      exact List.mem_append_right _ (List.mem_cons_of_mem _ hb)
    have := (mem_countedBehind.mp hmem).2.1
    omega
  have hbetween : between edits c a.2.span.start =
      (countedBehind edits offset position c).filter fun b => b.2.span.start < a.2.span.start := by
    rw [between, countedBehind, counted, List.filter_filter, List.filter_filter]
    refine List.filter_congr fun b _ => ?_
    rw [Bool.eq_iff_iff]
    simp only [Bool.and_eq_true, Bool.or_eq_true, decide_eq_true_eq, beq_iff_eq]
    omega
  have hfront : front.filter (fun b => decide (b.2.span.start < a.2.span.start)) = front := by
    rw [List.filter_eq_self]
    intro b hb
    simpa using (hcross b hb a List.mem_cons_self).2.1
  rw [hbetween, hsplit, hbehind, List.filter_append, hfront]
  simp

section

variable {length c : Nat}

theorem Listed.shift_le_of_le (h : Listed length edits)
    (kept : Edit.Keeps (edits.map (·.2)) c) (hc : offset ≤ c) :
    (offset : Int) + Edit.gains ((counted edits offset position).map (·.2)) ≤
      c + Edit.gains (Change.grownBefore (edits.map (·.2)) c) := by
  have hall : (counted edits offset position).filter (fun a => decide (a.2.span.start ≤ c)) =
      counted edits offset position := by
    rw [List.filter_eq_self]
    intro a ha
    have := (mem_counted.mp ha).2
    simp only [decide_eq_true_eq]
    omega
  have hgrown : Change.grownBefore (edits.map (·.2)) c =
      (counted edits offset position).map (·.2) ++
        ((uncounted edits offset position).filter fun a => a.2.span.start ≤ c).map (·.2) := by
    conv_lhs => rw [← h.counted_append offset position]
    rw [Change.grownBefore, List.filter_map, List.filter_append, List.map_append, ← hall]
    simp only [Function.comp_def, hall]
  have hsub : (((uncounted edits offset position).filter fun a => a.2.span.start ≤ c).map
      (·.2)).Sublist (edits.map (·.2)) :=
    (List.filter_sublist.trans List.filter_sublist).map _
  have hshrink := Edit.gains_between (h.ordered.sublist hsub) hc fun e he => by
    obtain ⟨a, ha, rfl⟩ := List.mem_map.mp he
    obtain ⟨ha, hle⟩ := List.mem_filter.mp ha
    have hkept := kept a.2 (List.mem_map_of_mem (mem_uncounted.mp ha).1)
    have := uncounted_start ha
    simp only [decide_eq_true_eq] at hle
    omega
  rw [hgrown, Edit.gains_append]
  omega

/-- Where the counted edits reach past a character in front of the offset. -/
theorem Listed.gains_counted (h : Listed length edits) (hc : c < offset) :
    Edit.gains ((counted edits offset position).map (·.2)) =
      Edit.gains (Change.grownBefore (edits.map (·.2)) c) +
        Edit.gains ((countedBehind edits offset position c).map (·.2)) := by
  have hfront : (counted edits offset position).filter (fun a => a.2.span.start ≤ c) =
      edits.filter fun a => a.2.span.start ≤ c := by
    rw [counted, List.filter_filter]
    refine List.filter_congr fun a _ => ?_
    rw [Bool.eq_iff_iff]
    simp only [Bool.and_eq_true, Bool.or_eq_true, decide_eq_true_eq, beq_iff_eq]
    omega
  have hcut : (counted edits offset position).filter (fun a => a.2.span.start ≤ c) ++
      countedBehind edits offset position c = counted edits offset position := by
    have hpair : (counted edits offset position).Pairwise _ :=
      h.pairwise.sublist List.filter_sublist
    have hbehind : countedBehind edits offset position c =
        (counted edits offset position).filter fun a => !decide (a.2.span.start ≤ c) := by
      rw [countedBehind]
      refine List.filter_congr fun a _ => ?_
      rw [Bool.eq_iff_iff]
      simp only [decide_eq_true_eq, Bool.not_eq_true', decide_eq_false_iff_not, Nat.not_le]
    rw [hbehind]
    refine filter_append_filter_not hpair fun a b hab hb => ?_
    have := hab.2.1
    simp only [decide_eq_true_eq] at hb ⊢
    omega
  rw [← Edit.gains_append, Change.grownBefore, List.filter_map, ← List.map_append]
  conv_lhs => rw [← hcut, hfront]
  rfl

/-- A shifted offset comes to stand at or in front of a kept character exactly when it stood there
before or is carried over it. -/
theorem Listed.shift_le_iff (h : Listed length edits) (kept : Edit.Keeps (edits.map (·.2)) c) :
    (offset : Int) + Edit.gains ((counted edits offset position).map (·.2)) ≤
        c + Edit.gains (Change.grownBefore (edits.map (·.2)) c) ↔
      offset ≤ c ∨ CarriedOver edits offset position c := by
  by_cases hle : offset ≤ c
  · exact ⟨fun _ => Or.inl hle, fun _ => h.shift_le_of_le kept hle⟩
  have hc : c < offset := Nat.lt_of_not_le hle
  rw [h.gains_counted hc]
  -- Only an edit that reaches past the offset can take away more than lies between the two.
  by_cases hpast : ∃ a ∈ countedBehind edits offset position c, offset < a.2.span.finish
  · obtain ⟨a, ha, hpast⟩ := hpast
    obtain ⟨hmem, hcounted, hca⟩ := mem_countedBehind.mp ha
    have hsplit := h.countedBehind_eq ha hpast
    have hgains : Edit.gains ((countedBehind edits offset position c).map (·.2)) =
        Edit.gains ((between edits c a.2.span.start).map (·.2)) + a.2.gain := by
      rw [hsplit, List.map_append, Edit.gains_append]
      simp
    rw [hgains]
    unfold Edit.gain
    constructor
    · intro hle
      exact Or.inr ⟨a, hmem, hcounted, hpast, hca, by omega⟩
    · rintro (hle | ⟨b, hb, hbcounted, hbpast, hcb, hroom⟩)
      · omega
      · have hb' := h.countedBehind_eq (mem_countedBehind.mpr ⟨hb, hbcounted, hcb⟩) hbpast
        obtain rfl : a = b := by
          rw [hsplit] at hb'
          simpa using List.append_inj_right' hb' rfl
        omega
  · have hsub : ((countedBehind edits offset position c).map (·.2)).Sublist (edits.map (·.2)) :=
      (List.filter_sublist.trans List.filter_sublist).map _
    have hshrink := Edit.gains_between (x := c + 1) (y := offset) (h.ordered.sublist hsub) hc
      fun e he => by
        obtain ⟨a, ha, rfl⟩ := List.mem_map.mp he
        exact ⟨(mem_countedBehind.mp ha).2.2, Nat.le_of_not_lt fun hlt => hpast ⟨a, ha, hlt⟩⟩
    refine ⟨fun hle => by omega, ?_⟩
    rintro (hle | ⟨a, ha, hcounted, hover, hca, _⟩)
    · omega
    · exact absurd ⟨a, mem_countedBehind.mpr ⟨ha, hcounted, hca⟩, hover⟩ hpast

end

end Snippets.Sync
