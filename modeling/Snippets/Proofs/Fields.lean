import Snippets.Proofs.NormalStops
import Snippets.Proofs.Shifting

/-!
# Fields

A flat template in a document: fields one behind the other, each with the literal text that follows
it. The text and the stops of such a row are given by recursion on the fields. Giving some fields
new contents at once is a simultaneous replacement of their ranges, and it shifts each stop of the
row to where the stop of the new row is.
-/

namespace Snippets

/-- The content of a stop and the literal text behind it. -/
structure Field where
  index : Nat
  content : Text
  gap : Text
  deriving DecidableEq, Repr

abbrev Grouping := Nat → Option Nat

namespace Field

def width (f : Field) : Nat := f.content.length + f.gap.length

def text (f : Field) : Text := f.content ++ f.gap

def span (offset : Nat) (f : Field) : Span := ⟨offset, offset + f.content.length⟩

def stop (g : Grouping) (offset : Nat) (f : Field) : LiveStop :=
  { index := f.index, span := f.span offset, group := g f.index }

def exit (offset : Nat) : LiveStop := { index := 0, span := ⟨offset, offset⟩ }

end Field

abbrev Row := List Field

namespace Row

def text (r : Row) : Text := r.flatMap Field.text

def width : Row → Nat
  | [] => 0
  | f :: rest => f.width + width rest

def stops (g : Grouping) : Nat → Row → List LiveStop
  | offset, [] => [Field.exit offset]
  | offset, f :: rest => f.stop g offset :: stops g (offset + f.width) rest

/-- There is text between any two fields, and no field is an exit. -/
def Spaced : Row → Prop
  | [] => True
  | f :: rest => f.index ≠ 0 ∧ (rest ≠ [] → f.gap ≠ []) ∧ Spaced rest

theorem Spaced.gap_ne_nil {front behind : Row} {f : Field} (h : Spaced (front ++ f :: behind))
    (hne : behind ≠ []) : f.gap ≠ [] := by
  induction front with
  | nil => exact h.2.1 hne
  | cons e rest ih => exact ih h.2.2

@[simp] theorem text_nil : text [] = [] := rfl

@[simp] theorem text_cons (f : Field) (r : Row) :
    text (f :: r) = f.content ++ (f.gap ++ text r) := by
  simp [text, Field.text]

theorem text_append (front behind : Row) : text (front ++ behind) = text front ++ text behind := by
  simp [text]

@[simp] theorem length_text (r : Row) : (text r).length = width r := by
  induction r with
  | nil => rfl
  | cons f rest ih =>
    simp only [text_cons, List.length_append, ih, width, Field.width]
    omega

theorem width_append (front behind : Row) :
    width (front ++ behind) = width front + width behind := by
  rw [← length_text, text_append, List.length_append, length_text, length_text]

@[simp] theorem length_stops (g : Grouping) (offset : Nat) (r : Row) :
    (stops g offset r).length = r.length + 1 := by
  induction r generalizing offset with
  | nil => rfl
  | cons f rest ih => simp [stops, ih]

theorem getElem?_stops (g : Grouping) (offset : Nat) (front : Row) (f : Field) (behind : Row) :
    (stops g offset (front ++ f :: behind))[front.length]? =
      some (f.stop g (offset + width front)) := by
  induction front generalizing offset with
  | nil => rfl
  | cons e rest ih =>
    rw [List.cons_append, stops, List.length_cons, List.getElem?_cons_succ, ih, width,
      Nat.add_assoc]

theorem getElem?_stops_exit (g : Grouping) (offset : Nat) (r : Row) :
    (stops g offset r)[r.length]? = some (Field.exit (offset + width r)) := by
  induction r generalizing offset with
  | nil => rfl
  | cons e rest ih =>
    rw [stops, List.length_cons, List.getElem?_cons_succ, ih, width, Nat.add_assoc]

theorem position_cases (r : Row) (i : Nat) :
    (∃ front f behind, r = front ++ f :: behind ∧ i = front.length) ∨ i = r.length ∨
      r.length < i := by
  rcases Nat.lt_trichotomy i r.length with h | h | h
  · refine Or.inl ⟨r.take i, r[i], r.drop (i + 1), ?_, by simp [Nat.le_of_lt h]⟩
    rw [List.getElem_cons_drop, List.take_append_drop]
  · exact Or.inr (Or.inl h)
  · exact Or.inr (Or.inr h)

theorem le_of_mem_stops {g : Grouping} {offset : Nat} {r : Row} {s : LiveStop}
    (h : s ∈ stops g offset r) : offset ≤ s.span.start := by
  induction r generalizing offset with
  | nil =>
    rw [stops, List.mem_singleton] at h
    subst h
    exact Nat.le_refl _
  | cons f rest ih =>
    rcases List.mem_cons.mp h with rfl | h
    · exact Nat.le_refl _
    · exact Nat.le_trans (Nat.le_add_right _ _) (ih h)

theorem stops_bounds {g : Grouping} {offset : Nat} {r : Row} {s : LiveStop}
    (h : s ∈ stops g offset r) :
    s.span.start ≤ s.span.finish ∧ s.span.finish ≤ offset + width r := by
  induction r generalizing offset with
  | nil =>
    rw [stops, List.mem_singleton] at h
    subst h
    exact ⟨Nat.le_refl _, Nat.le_refl _⟩
  | cons f rest ih =>
    rcases List.mem_cons.mp h with rfl | h
    · simp only [Field.stop, Field.span, width, Field.width]
      omega
    · have := ih h
      rw [width]
      omega

theorem stops_strict {g : Grouping} {r : Row} (spaced : Spaced r) (offset : Nat) :
    (stops g offset r).Pairwise fun a b => LiveStop.le a b ∧ ¬ LiveStop.le b a := by
  induction r generalizing offset with
  | nil => exact List.pairwise_singleton _ _
  | cons f rest ih =>
    obtain ⟨hindex, hgap, hrest⟩ := spaced
    refine List.pairwise_cons.mpr ⟨fun s hs => ?_, ih hrest _⟩
    have hfar := le_of_mem_stops hs
    rw [LiveStop.le_iff, LiveStop.le_iff]
    cases rest with
    | nil =>
      -- Only the exit is behind the last field, and it comes last also where both are empty.
      rw [stops, List.mem_singleton] at hs
      subst hs
      have hfront : LiveStop.rankLe (f.stop g offset) (Field.exit (offset + f.width)) :=
        LiveStop.rankLe_iff.mpr (Or.inr ⟨hindex, Or.inl rfl⟩)
      have hlast : LiveStop.rankLe (Field.exit (offset + f.width)) (f.stop g offset) = false := by
        rw [← Bool.not_eq_true]
        exact fun h => (LiveStop.rankLe_iff.mp h).elim (fun h => hindex h.2) (fun h => h.1 rfl)
      simp only [hfront, hlast, Bool.false_eq_true, and_true, and_false, or_false]
      simp only [Field.stop, Field.span, Field.exit, Field.width]
      omega
    | cons e rest =>
      have : f.gap.length ≠ 0 := fun h =>
        hgap (List.cons_ne_nil e rest) (List.eq_nil_of_length_eq_zero h)
      simp only [Field.stop, Field.span, Field.width] at hfar ⊢
      omega

end Row

abbrev Revision := Field → Option Text

def Field.revise (new : Revision) (f : Field) : Field :=
  match new f with
  | none => f
  | some t => { f with content := t }

theorem Field.revise_index (f : Field) (new : Revision) : (f.revise new).index = f.index := by
  unfold Field.revise
  split
  · rfl
  · rfl

theorem Field.revise_gap (f : Field) (new : Revision) : (f.revise new).gap = f.gap := by
  unfold Field.revise
  split
  · rfl
  · rfl

namespace Row

open Sync

def revise (new : Revision) (r : Row) : Row := r.map (Field.revise new)

theorem Spaced.revise {r : Row} (h : r.Spaced) (new : Revision) : (r.revise new).Spaced := by
  induction r with
  | nil => trivial
  | cons f rest ih =>
    obtain ⟨hindex, hgap, hrest⟩ := h
    refine ⟨(f.revise_index new).symm ▸ hindex, fun hne => ?_, ih hrest⟩
    rw [f.revise_gap]
    refine hgap fun hnil => hne ?_
    rw [hnil]
    rfl

def edits (new : Revision) : Nat → Nat → Row → List (Nat × Edit)
  | _, _, [] => []
  | i, offset, f :: rest =>
    ((new f).toList.map fun t => (i, ⟨f.span offset, t⟩)) ++
      edits new (i + 1) (offset + f.width) rest

variable {new : Revision}

theorem edits_append (i offset : Nat) (front behind : Row) :
    edits new i offset (front ++ behind) =
      edits new i offset front ++ edits new (i + front.length) (offset + width front) behind := by
  induction front generalizing i offset with
  | nil => rfl
  | cons f rest ih =>
    have hi : i + 1 + rest.length = i + (rest.length + 1) := by omega
    simp only [List.cons_append, edits, ih, List.append_assoc, List.length_cons, width, hi,
      Nat.add_assoc]

theorem mem_edits {i offset : Nat} {r : Row} {a : Nat × Edit} : a ∈ edits new i offset r ↔
    ∃ front f behind t, r = front ++ f :: behind ∧ new f = some t ∧
      a = (i + front.length, ⟨f.span (offset + width front), t⟩) := by
  constructor
  · intro h
    induction r generalizing i offset with
    | nil => cases h
    | cons f rest ih =>
      rcases List.mem_append.mp h with h | h
      · obtain ⟨t, ht, rfl⟩ := List.mem_map.mp h
        exact ⟨[], f, rest, t, rfl, Option.mem_toList.mp ht, rfl⟩
      · obtain ⟨front, e, behind, t, rfl, ht, rfl⟩ := ih h
        have hi : i + 1 + front.length = i + (front.length + 1) := by omega
        refine ⟨f :: front, e, behind, t, rfl, ht, ?_⟩
        rw [List.length_cons, width, hi, Nat.add_assoc]
  · rintro ⟨front, f, behind, t, rfl, ht, rfl⟩
    rw [edits_append, edits]
    simp [ht]

theorem revise_eq_self {i offset : Nat} {r : Row} (h : edits new i offset r = []) :
    revise new r = r := by
  induction r generalizing i offset with
  | nil => rfl
  | cons f rest ih =>
    obtain ⟨hf, hrest⟩ := List.append_eq_nil_iff.mp h
    have hnone : new f = none := by simpa using hf
    rw [revise, List.map_cons, Field.revise, hnone]
    exact congrArg (f :: ·) (ih hrest)

theorem edits_bounds {i offset : Nat} {r : Row} {a : Nat × Edit} (h : a ∈ edits new i offset r) :
    i ≤ a.1 ∧ a.1 < i + r.length ∧ offset ≤ a.2.span.start ∧ a.2.span.start ≤ a.2.span.finish ∧
      a.2.span.finish ≤ offset + width r := by
  obtain ⟨front, f, behind, t, rfl, _, rfl⟩ := mem_edits.mp h
  rw [width_append, width]
  simp only [Field.span, Field.width, List.length_append, List.length_cons]
  omega

theorem gains_edits (i offset : Nat) (r : Row) :
    Edit.gains ((edits new i offset r).map (·.2)) = (width (revise new r) : Int) - width r := by
  induction r generalizing i offset with
  | nil => simp [edits, revise, width]
  | cons f rest ih =>
    have ih := ih (i + 1) (offset + f.width)
    simp only [revise] at ih
    rw [edits, List.map_append, Edit.gains_append, ih, revise, List.map_cons, width, width]
    cases hf : new f with
    | none =>
      simp only [Field.revise, hf, Option.toList_none, List.map_nil, Edit.gains_nil]
      omega
    | some t =>
      simp only [Field.revise, hf, Option.toList_some, List.map_cons, List.map_nil, Edit.gains_cons,
        Edit.gains_nil, Edit.gain, Field.span, Field.width]
      omega

theorem replaceFrom_edits {t tail : Text} {r : Row} {i offset x : Nat} (hx : x ≤ offset)
    (h : t.drop offset = text r ++ tail) :
    t.replaceFrom x ((edits new i offset r).map (·.2)) =
      t.slice ⟨x, offset⟩ ++ (text (revise new r) ++ tail) := by
  induction r generalizing i offset x with
  | nil =>
    rw [text_nil, List.nil_append] at h
    rw [edits, List.map_nil, Text.replaceFrom, revise, List.map_nil, text_nil, List.nil_append, ← h,
      Text.slice_append_drop t hx]
  | cons f rest ih =>
    rw [text_cons, List.append_assoc, List.append_assoc] at h
    have hrest : t.drop (offset + f.width) = text rest ++ tail := by
      rw [Field.width, ← List.drop_drop, h, ← List.append_assoc]
      exact List.drop_left' (List.length_append ..)
    have hgap : t.slice ⟨offset + f.content.length, offset + f.width⟩ = f.gap := by
      rw [Field.width, ← Nat.add_assoc, Text.slice_add, ← List.drop_drop, h, List.drop_left' rfl,
        List.take_left' rfl]
    have hfront : offset + f.content.length ≤ offset + f.width :=
      Nat.add_le_add_left (Nat.le_add_right _ _) offset
    rw [revise, List.map_cons, text_cons]
    cases hf : new f with
    | none =>
      have hcontent : t.slice ⟨offset, offset + f.content.length⟩ = f.content := by
        rw [Text.slice_add, h, List.take_left' rfl]
      have hcut : t.slice ⟨x, offset + f.width⟩ = t.slice ⟨x, offset⟩ ++ (f.content ++ f.gap) := by
        rw [← t.slice_append_slice hx (Nat.le_add_right offset f.width),
          ← t.slice_append_slice (Nat.le_add_right offset f.content.length) hfront, hcontent, hgap]
      have hnone : edits new i offset (f :: rest) = edits new (i + 1) (offset + f.width) rest := by
        simp [edits, hf]
      rw [hnone, ih (Nat.le_trans hx (Nat.le_add_right _ _)) hrest, hcut]
      simp [Field.revise, hf, revise]
    | some u =>
      have hsome : edits new i offset (f :: rest) =
          (i, ⟨f.span offset, u⟩) :: edits new (i + 1) (offset + f.width) rest := by
        simp [edits, hf]
      rw [hsome, List.map_cons, Text.replaceFrom]
      dsimp only [Field.span]
      rw [ih hfront hrest, hgap]
      simp [Field.revise, hf, revise]

theorem edits_precede {r : Row} (spaced : Spaced r) (i offset : Nat) :
    (edits new i offset r).Pairwise fun a b => a.1 < b.1 ∧ a.2.span.Precedes b.2.span := by
  induction r generalizing i offset with
  | nil => exact .nil
  | cons f rest ih =>
    obtain ⟨_, hgap, hrest⟩ := spaced
    have htail := ih hrest (i + 1) (offset + f.width)
    cases hf : new f with
    | none => simpa [edits, hf] using htail
    | some t =>
      simp only [edits, hf, Option.toList_some, List.map_cons, List.map_nil, List.singleton_append]
      refine List.pairwise_cons.mpr ⟨fun b hb => ?_, htail⟩
      have hbounds := edits_bounds hb
      have hne : rest ≠ [] := by
        rintro rfl
        cases hb
      have hlong : f.gap.length ≠ 0 := fun h => hgap hne (List.eq_nil_of_length_eq_zero h)
      unfold Span.Precedes
      simp only [Field.span, Field.width] at hbounds ⊢
      omega

theorem listed_edits {r : Row} (spaced : Spaced r) {base length : Nat}
    (inside : base + width r ≤ length) : Listed length (edits new 0 base r) := by
  have hpair : (edits new 0 base r).Pairwise _ := edits_precede spaced 0 base
  refine ⟨⟨fun e he => ?_, fun e he => ?_, ?_⟩, hpair.imp And.left⟩
  · obtain ⟨a, ha, rfl⟩ := List.mem_map.mp he
    have := edits_bounds ha
    omega
  · obtain ⟨a, ha, rfl⟩ := List.mem_map.mp he
    have := edits_bounds ha
    omega
  · rw [List.pairwise_map]
    exact hpair.imp And.right

/-- The replacements that count for an offset of a field or behind it are those of the fields
before. -/
theorem counted_edits {base offset : Nat} {front behind : Row} (low : base + width front ≤ offset)
    (high : ∀ a ∈ edits new front.length (base + width front) behind, offset ≤ a.2.span.start) :
    counted (edits new 0 base (front ++ behind)) offset front.length = edits new 0 base front := by
  have hfront : counted (edits new 0 base front) offset front.length = edits new 0 base front := by
    rw [counted, List.filter_eq_self]
    intro a ha
    have := edits_bounds ha
    simp only [Bool.or_eq_true, Bool.and_eq_true, decide_eq_true_eq, beq_iff_eq]
    omega
  have hbehind : counted (edits new front.length (base + width front) behind) offset front.length =
      [] := by
    rw [counted, List.filter_eq_nil_iff]
    intro a ha
    have := edits_bounds ha
    have := high a ha
    simp only [Bool.or_eq_true, Bool.and_eq_true, decide_eq_true_eq, beq_iff_eq]
    omega
  rw [edits_append, Nat.zero_add]
  unfold counted at hfront hbehind ⊢
  rw [List.filter_append, hfront, hbehind, List.append_nil]

theorem any_edits {base j : Nat} {r : Row} : (edits new 0 base r).any (·.1 == j) = true ↔
    ∃ before e after t, r = before ++ e :: after ∧ new e = some t ∧ j = before.length := by
  simp only [List.any_eq_true, mem_edits, beq_iff_eq, Nat.zero_add]
  constructor
  · rintro ⟨a, ⟨before, e, after, t, hr, ht, rfl⟩, rfl⟩
    exact ⟨before, e, after, t, hr, ht, rfl⟩
  · rintro ⟨before, e, after, t, hr, ht, rfl⟩
    exact ⟨_, ⟨before, e, after, t, hr, ht, rfl⟩, rfl⟩

section

variable {t tail : Text} {base : Nat} {r : Row} (spaced : Spaced r)
  (text_eq : t.drop base = text r ++ tail) (base_le : base ≤ t.length)
  (fits : t.length < 9223372036854775808)
  (fits' : base + width (revise new r) + tail.length < 9223372036854775808)

include spaced text_eq base_le fits fits'

theorem shifted_edits {front behind : Row} (split : r = front ++ behind) {offset : Nat}
    (low : base + width front ≤ offset)
    (high : ∀ a ∈ edits new front.length (base + width front) behind, offset ≤ a.2.span.start)
    (inside : offset ≤ t.length) :
    shifted (edits new 0 base r) offset front.length =
      offset - width front + width (revise new front) := by
  have hlen := congrArg List.length text_eq
  rw [List.length_drop, List.length_append, length_text] at hlen
  have hnew : (t.replaceFrom 0 ((edits new 0 base r).map (·.2))).length =
      base + width (revise new r) + tail.length := by
    rw [replaceFrom_edits (Nat.zero_le base) text_eq]
    simp only [List.length_append, Text.length_slice, length_text]
    omega
  have hlisted : Listed t.length (edits new 0 base r) := listed_edits spaced (by omega)
  have hcounted := counted_edits low high
  rw [hlisted.shifted_eq fits (hnew ▸ fits') inside, split, hcounted, gains_edits]
  omega

theorem shifted_start {front behind : Row} (split : r = front ++ behind) :
    shifted (edits new 0 base r) (base + width front) front.length =
      base + width (revise new front) := by
  have hlen := congrArg List.length text_eq
  have hwidth := congrArg width split
  rw [width_append] at hwidth
  simp only [List.length_drop, List.length_append, length_text] at hlen
  rw [shifted_edits spaced text_eq base_le fits fits' split (Nat.le_refl _)
    (fun a ha => (edits_bounds ha).2.2.1) (by omega)]
  omega

/-- The end of a field that keeps its content moves with its start. -/
theorem shifted_finish {f : Field} {front behind : Row} (split : r = front ++ f :: behind)
    (kept : new f = none) :
    shifted (edits new 0 base r) (base + width front + f.content.length) front.length =
      base + width (revise new front) + f.content.length := by
  have hlen := congrArg List.length text_eq
  have hwidth := congrArg width split
  rw [width_append, width, Field.width] at hwidth
  simp only [List.length_drop, List.length_append, length_text] at hlen
  have hhigh : ∀ a ∈ edits new front.length (base + width front) (f :: behind),
      base + width front + f.content.length ≤ a.2.span.start := by
    intro a ha
    simp only [edits, kept, Option.toList_none, List.map_nil, List.nil_append] at ha
    have := (edits_bounds ha).2.2.1
    rw [Field.width] at this
    omega
  rw [shifted_edits spaced text_eq base_le fits fits' split (Nat.le_add_right _ _) hhigh (by omega)]
  omega

/-- A field that takes a text, the current field too, is as long as the text that is copied; any
other field keeps its length. -/
theorem span_revise {length current : Nat} {f e : Field} {front behind before after : Row}
    (split : r = front ++ f :: behind) (at_current : current = front.length) (kept : new f = none)
    (content : f.content.length = length) (same : ∀ e t, new e = some t → t.length = length)
    (hr : r = before ++ e :: after) :
    (e.revise new).span (base + width (revise new before)) =
      shiftedSpan (edits new 0 base r) current length (e.span (base + width before))
        before.length := by
  have hsame {b e' a} (hr' : r = b ++ e' :: a) (hb : before.length = b.length) : e = e' :=
    (List.cons.inj (List.append_inj (hr.symm.trans hr') hb).2).1
  dsimp only [Field.span]
  unfold shiftedSpan
  rw [shifted_start spaced text_eq base_le fits fits' hr]
  cases he : new e with
  | some t =>
    rw [if_pos (Or.inr (any_edits.mpr ⟨before, e, after, t, hr, he, rfl⟩))]
    simp [Field.revise, he, same e t he]
  | none =>
    by_cases hat : before.length = current
    · obtain rfl := hsame split (hat.trans at_current)
      rw [if_pos (Or.inl hat)]
      simp [Field.revise, he, content]
    · have hnone : ¬ (before.length = current ∨
          (edits new 0 base r).any (·.1 == before.length) = true) := by
        rintro (h | h)
        · exact hat h
        · obtain ⟨b, e', a, t, hr', ht, hb⟩ := any_edits.mp h
          rw [← hsame hr' hb, he] at ht
          cases ht
      rw [if_neg hnone, shifted_finish spaced text_eq base_le fits fits' hr he]
      simp [Field.revise, he]

theorem getElem?_stops_revise (g : Grouping) {length current : Nat} {f : Field} {front behind : Row}
    (split : r = front ++ f :: behind) (at_current : current = front.length) (kept : new f = none)
    (content : f.content.length = length) (same : ∀ e t, new e = some t → t.length = length)
    (i : Nat) :
    (stops g base (revise new r))[i]? = (stops g base r)[i]?.map fun m => { m with
      span := shiftedSpan (edits new 0 base r) current length m.span i } := by
  rcases position_cases r i with ⟨before, e, after, hr, rfl⟩ | rfl | hlong
  · have hnew : (stops g base (revise new r))[before.length]? =
        some ((e.revise new).stop g (base + width (revise new before))) := by
      have hat := getElem?_stops g base (revise new before) (e.revise new) (revise new after)
      rw [hr, revise, List.map_append, List.map_cons]
      rw [revise, revise, List.length_map] at hat
      exact hat
    have hold : (stops g base r)[before.length]? = some (e.stop g (base + width before)) := by
      rw [hr, getElem?_stops]
    rw [hnew, hold, Option.map_some, Option.some.injEq]
    have hspan :=
      span_revise spaced text_eq base_le fits fits' split at_current kept content same hr
    simp only [Field.stop, e.revise_index, hspan]
  · have hnew := getElem?_stops_exit g base (revise new r)
    rw [show (revise new r).length = r.length from List.length_map _] at hnew
    have hnone : ¬ (r.length = current ∨ (edits new 0 base r).any (·.1 == r.length) = true) := by
      rintro (h | h)
      · rw [at_current, split, List.length_append, List.length_cons] at h
        omega
      · obtain ⟨b, e', a, t, hr', _, hb⟩ := any_edits.mp h
        rw [hr', List.length_append, List.length_cons] at hb
        omega
    have hend := shifted_start spaced text_eq base_le fits fits' (List.append_nil r).symm
    rw [hnew, getElem?_stops_exit, Option.map_some]
    unfold shiftedSpan
    dsimp only [Field.exit]
    rw [if_neg hnone, hend, Nat.max_self]
  · rw [List.getElem?_eq_none (by rw [length_stops, revise, List.length_map]; omega),
      List.getElem?_eq_none (by rw [length_stops]; omega)]
    rfl

end

end Row

end Snippets
