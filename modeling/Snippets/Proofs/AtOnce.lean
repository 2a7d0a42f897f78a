import Mathlib.Data.List.Perm.Basic
import Snippets.Proofs.Crossing
import Snippets.Proofs.Moves

/-!
# Replacing at once

Main statement: a document takes a batch exactly when its ranges are in the document and any two of
them are disjoint, and then all ranges are replaced at once, in the coordinates of the old text,
whatever order the edits are listed in. Otherwise nothing changes.
-/

namespace Snippets

namespace Text

/-! ## The new text, offset by offset -/

/-- What stands in the new text for an old offset: the texts for the ranges that begin there, and
the character if no range holds it. -/
def stand (t : Text) (edits : List Edit) (x : Nat) : Text :=
  (edits.filter (·.span.start == x)).flatMap (·.text) ++
    if Edit.Keeps edits x then t[x]?.toList else []

/-- The text with all ranges replaced, read off from the old offsets one by one. -/
def replaceAll (t : Text) (edits : List Edit) : Text :=
  (List.range (t.length + 1)).flatMap (t.stand edits)

variable {t : Text} {e : Edit} {edits rest : List Edit} {x : Nat}

theorem stand_in_front (h : ∀ e ∈ edits, x < e.span.start) : t.stand edits x = t[x]?.toList := by
  have hnone : edits.filter (·.span.start == x) = [] :=
    List.filter_eq_nil_iff.mpr fun e he => by simpa using Nat.ne_of_gt (h e he)
  have hkept : Edit.Keeps edits x := fun e he => Or.inr (h e he)
  rw [stand, hnone, if_pos hkept]
  rfl

/-- From the start of the first range on, its text stands at its start and its characters are gone;
what is behind it stands as if the first edit were not there. -/
theorem stand_cons (h : Edit.Ordered t.length (e :: rest)) (hx : e.span.start ≤ x) :
    t.stand (e :: rest) x = (if e.span.start = x then e.text else []) ++
      if e.span.finish ≤ x then t.stand rest x else [] := by
  have hbegins : (List.filter (·.span.start == x) (e :: rest)).flatMap (·.text) =
      (if e.span.start = x then e.text else []) ++
        (rest.filter (·.span.start == x)).flatMap (·.text) := by
    by_cases hat : e.span.start = x
    · simp [hat]
    · simp [hat]
  rw [stand, hbegins, List.append_assoc]
  congr 1
  by_cases hpassed : e.span.finish ≤ x
  · have hkept : Edit.Keeps (e :: rest) x ↔ Edit.Keeps rest x := by
      simp [Edit.Keeps, hpassed]
    rw [if_pos hpassed, stand]
    simp only [hkept]
  · have hnone : rest.filter (·.span.start == x) = [] := by
      refine List.filter_eq_nil_iff.mpr fun b hb => ?_
      have := (h.head_precedes b hb).2
      simp only [beq_iff_eq]
      omega
    have hheld : ¬ Edit.Keeps (e :: rest) x := by
      intro hkept
      have := hkept e List.mem_cons_self
      omega
    rw [if_neg hpassed, hnone, if_neg hheld]
    rfl

theorem flatMap_kept (t : Text) (a n : Nat) :
    (List.range' a n).flatMap (fun x => t[x]?.toList) = t.slice ⟨a, a + n⟩ := by
  induction n generalizing a with
  | zero => simp [slice]
  | succ n ih =>
    have hcut := t.slice_append_slice (Nat.le_add_right a 1) (show a + 1 ≤ a + (n + 1) by omega)
    have hone : t.slice ⟨a, a + 1⟩ = t[a]?.toList := by
      rw [slice_add, List.take_one, List.head?_drop]
    rw [List.range'_succ, List.flatMap_cons, ih, ← hcut, hone]
    congr 3
    omega

theorem range'_cut {a b n : Nat} (hab : a ≤ b) (hbn : b ≤ n) :
    List.range' a (n - a) = List.range' a (b - a) ++ List.range' b (n - b) := by
  have hjoin := @List.range'_append_1 a (b - a) (n - b)
  rw [Nat.add_sub_cancel' hab] at hjoin
  rw [hjoin]
  congr 1
  omega

theorem flatMap_stand_cons (h : Edit.Ordered t.length (e :: rest)) :
    (List.range' e.span.start (t.length + 1 - e.span.start)).flatMap (t.stand (e :: rest)) =
      e.text ++
        (List.range' e.span.finish (t.length + 1 - e.span.finish)).flatMap (t.stand rest) := by
  have hup := h.upright e List.mem_cons_self
  have hin := h.inside e List.mem_cons_self
  let behind (x : Nat) : Text := if e.span.finish ≤ x then t.stand rest x else []
  have hinside : (List.range' e.span.start (e.span.finish - e.span.start)).flatMap behind = [] := by
    refine List.flatMap_eq_nil_iff.mpr fun x hx => if_neg ?_
    have := List.mem_range'_1.mp hx
    omega
  have hbehind : (List.range' e.span.finish (t.length + 1 - e.span.finish)).flatMap behind =
      (List.range' e.span.finish (t.length + 1 - e.span.finish)).flatMap (t.stand rest) :=
    List.flatMap_congr fun x hx => if_pos (List.mem_range'_1.mp hx).1
  have hfirst (n : Nat) : (List.range' e.span.start (n + 1)).flatMap (t.stand (e :: rest)) =
      e.text ++ (List.range' e.span.start (n + 1)).flatMap behind := by
    have hlater : (List.range' (e.span.start + 1) n).flatMap (t.stand (e :: rest)) =
        (List.range' (e.span.start + 1) n).flatMap behind := by
      refine List.flatMap_congr fun x hx => ?_
      have := (List.mem_range'_1.mp hx).1
      rw [stand_cons h (by omega), if_neg (by omega)]
      rfl
    rw [List.range'_succ, List.flatMap_cons, List.flatMap_cons, hlater,
      stand_cons h (Nat.le_refl _), if_pos rfl, List.append_assoc]
  have hlength : t.length + 1 - e.span.start = t.length - e.span.start + 1 := by omega
  rw [hlength, hfirst, ← hlength, range'_cut hup (Nat.le_succ_of_le hin), List.flatMap_append,
    hinside, hbehind]
  rfl

/-- Replacing range after range comes to the same as looking at every old offset. -/
theorem replaceFrom_eq_flatMap (h : Edit.Ordered t.length edits) {offset : Nat}
    (before : ∀ e ∈ edits, offset ≤ e.span.start) (inside : offset ≤ t.length) :
    t.replaceFrom offset edits =
      (List.range' offset (t.length + 1 - offset)).flatMap (t.stand edits) := by
  induction edits generalizing offset with
  | nil =>
    have hplain : t.stand [] = fun x => t[x]?.toList := funext fun x => stand_in_front (by simp)
    rw [replaceFrom, hplain, flatMap_kept, slice, List.take_of_length_le (by dsimp only; omega)]
  | cons e rest ih =>
    have hup := h.upright e List.mem_cons_self
    have hin := h.inside e List.mem_cons_self
    have hbefore := before e List.mem_cons_self
    have hstart : e.span.start ≤ t.length + 1 := by omega
    have hfront : (List.range' offset (e.span.start - offset)).flatMap (t.stand (e :: rest)) =
        t.slice ⟨offset, e.span.start⟩ := by
      have hplain : (List.range' offset (e.span.start - offset)).flatMap (t.stand (e :: rest)) =
          (List.range' offset (e.span.start - offset)).flatMap (fun x => t[x]?.toList) := by
        refine List.flatMap_congr fun x hx => stand_in_front fun b hb => ?_
        have := List.mem_range'_1.mp hx
        rcases List.mem_cons.mp hb with rfl | hb
        · omega
        · have := (h.head_precedes b hb).1
          omega
      rw [hplain, flatMap_kept]
      congr 2
      omega
    rw [range'_cut hbefore hstart, List.flatMap_append, hfront, flatMap_stand_cons h, replaceFrom,
      ih h.tail (fun b hb => (h.head_precedes b hb).2) hin, List.append_assoc]

theorem replaceFrom_eq_replaceAll (h : Edit.Ordered t.length edits) :
    t.replaceFrom 0 edits = t.replaceAll edits := by
  rw [replaceFrom_eq_flatMap h (fun e _ => Nat.zero_le e.span.start) (Nat.zero_le _), replaceAll,
    List.range_eq_range']
  rfl

/-! ## The order in which edits are listed -/

/-- No two of the ranges begin at one offset, so at most one text stands there. -/
theorem stand_perm {edits' : List Edit} (perm : edits'.Perm edits)
    (apart : edits.Pairwise fun a b => a.span.Apart b.span) (x : Nat) :
    t.stand edits' x = t.stand edits x := by
  have hfilter : edits'.filter (·.span.start == x) = edits.filter (·.span.start == x) := by
    have apart' := (perm.pairwise_iff fun h => Span.Apart.symm h).mpr apart
    refine (perm.filter _).eq_of_pairwise (fun a b ha hb hab _ => ?_) (apart'.filter _)
      (apart.filter _)
    have hax := (List.mem_filter.mp ha).2
    have hbx := (List.mem_filter.mp hb).2
    simp only [beq_iff_eq] at hax hbx
    unfold Span.Apart Span.Precedes at hab
    omega
  have hkeeps : Edit.Keeps edits' x ↔ Edit.Keeps edits x :=
    forall_congr' fun e => imp_congr perm.mem_iff Iff.rfl
  rw [stand, stand, hfilter]
  simp only [hkeeps]

theorem replaceAll_perm {edits' : List Edit} (perm : edits'.Perm edits)
    (apart : edits.Pairwise fun a b => a.span.Apart b.span) :
    t.replaceAll edits' = t.replaceAll edits :=
  List.flatMap_congr fun x _ => stand_perm perm apart x

end Text

namespace Edit

/-- An accepted batch has one sorted form. -/
theorem Ordered.eq_of_perm {length : Nat} {l m : List Edit} (hl : Ordered length l)
    (hm : Ordered length m) (perm : l.Perm m) : l = m := by
  refine perm.eq_of_pairwise (fun a b _ _ hab hba => ?_) hl.apart hm.apart
  unfold Span.Precedes at hab hba
  omega

end Edit

namespace Span

/-- One range ends where the other begins or before. An empty range strictly inside another one is
not disjoint from it. -/
def Disjoint (a b : Span) : Prop := a.finish ≤ b.start ∨ b.finish ≤ a.start

instance (a b : Span) : Decidable (a.Disjoint b) := inferInstanceAs (Decidable (_ ∨ _))

def Compatible (a b : Span) : Prop :=
  a.Disjoint b ∧ ¬ (a.start = b.start ∧ (a.IsEmpty ∨ b.IsEmpty))

instance (a b : Span) : Decidable (a.Compatible b) := inferInstanceAs (Decidable (_ ∧ _))

theorem compatible_iff_apart {a b : Span} (ha : a.start ≤ a.finish) (hb : b.start ≤ b.finish) :
    a.Compatible b ↔ a.Apart b := by
  unfold Compatible Disjoint IsEmpty Apart Precedes
  omega

end Span

/-- A batch is accepted when its ranges are in the document and any two of them are compatible. -/
theorem Batch.fault?_eq_none_iff_compatible {b : Batch} {length : Nat} :
    b.fault? length = none ↔
      (∀ e ∈ b.edits, e.span.start ≤ e.span.finish ∧ e.span.finish ≤ length) ∧
        b.edits.Pairwise fun e f => e.span.Compatible f.span := by
  rw [fault?_eq_none_iff_apart]
  refine and_congr_right fun hrange => List.Pairwise.iff_of_mem fun he hf => ?_
  exact (Span.compatible_iff_apart (hrange _ he).1 (hrange _ hf).1).symm

namespace Document

/-! ## Documents that can be met -/

variable {d d' : Document} {b : Batch} {c : Change}

/-- Documents as the operations on them leave them, with offsets that are words. -/
inductive Made : Document → Prop where
  | ofText (t : Text) : (ofText t).Fits → Made (ofText t)
  | select {d : Document} (s : Selection) : Made d → Made (d.select s)
  | apply {d d' : Document} {b : Batch} {c : Change} :
      Made d → d.apply b = .ok (c, d') → d'.Fits → Made d'
  | type {d d' : Document} {t : Text} {c : Change} :
      Made d → d.type t = .ok (c, d') → d'.Fits → Made d'
  | backspace {d d' : Document} {c : Option Change} :
      Made d → d.backspace = .ok (c, d') → d'.Fits → Made d'

theorem Made.fits (h : d.Made) : d.Fits := by
  induction h with
  | ofText _ fits => exact fits
  | select _ _ ih => exact ih
  | apply _ _ fits => exact fits
  | type _ _ fits => exact fits
  | backspace _ _ fits => exact fits

theorem cursor_inside {e : Edit} {origin : Origin} (h : d.apply ⟨[e], origin⟩ = .ok (c, d'))
    {cursor : Nat} (near : cursor ≤ e.span.start + e.text.length) :
    { d' with selection := .cursor cursor }.SelectionInside := by
  have hend := Scene.written_le h
  have hcursor : cursor ≤ d'.text.length := Nat.le_trans near hend
  exact ⟨hcursor, hcursor⟩

theorem Made.inside (h : d.Made) : d.SelectionInside := by
  induction h with
  | ofText t _ => exact ⟨Nat.le_refl _, Nat.le_refl _⟩
  | select s _ _ => exact select_inside _ s
  | apply _ happly _ _ => exact apply_inside happly
  | type _ htype _ _ =>
    obtain ⟨_, happly, rfl⟩ := type_eq_ok htype
    exact cursor_inside happly (Nat.le_refl _)
  | backspace _ hback _ ih =>
    rcases backspace_eq_ok hback with ⟨_, rfl⟩ | ⟨_, _, _, _, happly, rfl⟩
    · exact ih
    · exact cursor_inside happly (Nat.le_refl _)

/-- What a document is after it took a batch: all ranges are replaced at once, and the selection is
where the change carries it. Offsets are read in documents whose offsets are words. -/
structure ReplacedAtOnce (d : Document) (b : Batch) (c : Change) (d' : Document) : Prop where
  text : d'.text = d.text.replaceAll b.edits
  length : d'.Fits → (d'.text.length : Int) = d.text.length + c.delta
  anchor : d'.Fits → d'.selection.anchor = c.mapOffset d.selection.anchor .before
  head : d'.Fits → d'.selection.head = c.mapOffset d.selection.head .before
  inside : d'.SelectionInside
  revision : d'.revision = d.revision + 1

theorem length_apply (h : d.apply b = .ok (c, d')) (fits : d.Fits) (fits' : d'.Fits) :
    (d'.text.length : Int) = d.text.length + c.delta := by
  obtain ⟨hfault, rfl, htext⟩ := apply_eq_ok h
  have hlen : (d'.text.length : Int) = d.text.length + Edit.gains (sortStable Edit.le b.edits) := by
    have := Text.length_replaceFrom (Batch.fault?_eq_none_iff.mp hfault)
      (fun e _ => Nat.zero_le e.span.start) (Nat.zero_le _)
    rw [htext, Change.ofBatch, this]
    omega
  have hwrap := Edit.signed_add_growth 0 (sortStable Edit.le b.edits)
  rw [Int.zero_add, Int.zero_add] at hwrap
  unfold Fits at fits fits'
  rw [hlen, Change.delta, Change.ofBatch, hwrap, Word.signed_eq]
  unfold Word.Fits
  omega

theorem revision_apply (h : d.apply b = .ok (c, d')) : d'.revision = d.revision + 1 := by
  unfold apply at h
  split at h
  · cases h
  · cases h
    rfl

theorem text_apply (h : d.apply b = .ok (c, d')) : d'.text = d.text.replaceAll b.edits := by
  obtain ⟨hfault, rfl, htext⟩ := apply_eq_ok h
  have hordered := Batch.fault?_eq_none_iff.mp hfault
  calc d'.text = d.text.replaceFrom 0 (sortStable Edit.le b.edits) := htext
    _ = d.text.replaceAll (sortStable Edit.le b.edits) := Text.replaceFrom_eq_replaceAll hordered
    _ = d.text.replaceAll b.edits :=
      Text.replaceAll_perm (sortStable_perm Edit.le b.edits)
        (Batch.fault?_eq_none_iff_apart.mp hfault).2

theorem apply_perm {edits : List Edit} (perm : edits.Perm b.edits)
    (h : d.apply b = .ok (c, d')) : d.apply ⟨edits, b.origin⟩ = .ok (c, d') := by
  obtain ⟨hfault, -, -⟩ := apply_eq_ok h
  have hordered := Batch.fault?_eq_none_iff.mp hfault
  have hfault' : Batch.fault? ⟨edits, b.origin⟩ d.text.length = none := by
    obtain ⟨hrange, hapart⟩ := Batch.fault?_eq_none_iff_apart.mp hfault
    exact Batch.fault?_eq_none_iff_apart.mpr ⟨fun e he => hrange e (perm.mem_iff.mp he),
      (perm.pairwise_iff fun h => Span.Apart.symm h).mpr hapart⟩
  have hsorted : sortStable Edit.le edits = sortStable Edit.le b.edits :=
    (Batch.fault?_eq_none_iff.mp hfault').eq_of_perm hordered
      (((sortStable_perm Edit.le edits).trans perm).trans (sortStable_perm Edit.le b.edits).symm)
  have hchange : Change.ofBatch ⟨edits, b.origin⟩ = Change.ofBatch b := by
    rw [Change.ofBatch, hsorted]
    rfl
  rw [← h, apply, apply, hfault, hfault']
  dsimp only
  rw [hchange]

theorem Made.replacedAtOnce (made : d.Made) (h : d.apply b = .ok (c, d')) :
    d.ReplacedAtOnce b c d' := by
  have hcarried (fits : d'.Fits) {x : Nat} (hx : x ≤ d.text.length) :
      min (c.mapOffset x .before) d'.text.length = c.mapOffset x .before := by
    obtain ⟨hfault, rfl, htext⟩ := apply_eq_ok h
    unfold Fits at fits
    rw [htext] at fits ⊢
    exact Nat.min_eq_left
      (Change.mapOffset_le_length (Batch.fault?_eq_none_iff.mp hfault) fits hx .before)
  have hselection := apply_selection h
  exact {
    text := text_apply h
    length := length_apply h made.fits
    anchor := fun fits => by rw [hselection]; exact hcarried fits made.inside.1
    head := fun fits => by rw [hselection]; exact hcarried fits made.inside.2
    inside := apply_inside h
    revision := revision_apply h }

theorem surface_apply_eq_ok : Surface.apply d b = (.ok c, d') ↔ d.apply b = .ok (c, d') := by
  cases h : d.apply b with
  | error fault => simp [Surface.apply, h]
  | ok result => simp [Surface.apply, h, Prod.ext_iff]

/-- A document takes a batch exactly when its ranges are in the document and compatible with each
other. It then replaces all of them at once, in whatever order they are listed, and otherwise stays
as it was. -/
theorem Made.apply_at_once (made : d.Made) (b : Batch) :
    ((∃ c d', Surface.apply d b = (.ok c, d')) ↔
        (∀ e ∈ b.edits, e.span.start ≤ e.span.finish ∧ e.span.finish ≤ d.text.length) ∧
          b.edits.Pairwise fun e f => e.span.Compatible f.span) ∧
      (∀ c d', Surface.apply d b = (.ok c, d') → d.ReplacedAtOnce b c d' ∧
        ∀ edits : List Edit, edits.Perm b.edits →
          Surface.apply d ⟨edits, b.origin⟩ = (.ok c, d')) ∧
      ∀ refusal d', Surface.apply d b = (.error refusal, d') → d' = d := by
  refine ⟨?_, fun c d' h => ?_, fun refusal d' h => Editor.document_of_error h⟩
  · rw [← Batch.fault?_eq_none_iff_compatible]
    constructor
    · rintro ⟨c, d', h⟩
      exact (apply_eq_ok (surface_apply_eq_ok.mp h)).1
    · intro hfault
      obtain ⟨d', h⟩ := apply_ok_of_fault?_none hfault
      exact ⟨.ofBatch b, d', surface_apply_eq_ok.mpr h⟩
  · have happly := surface_apply_eq_ok.mp h
    exact ⟨made.replacedAtOnce happly, fun edits perm =>
      surface_apply_eq_ok.mpr (apply_perm perm happly)⟩

def shuffled : Batch where
  edits := [⟨⟨4, 5⟩, ['z']⟩, ⟨⟨0, 1⟩, []⟩, ⟨⟨1, 2⟩, ['x', 'y']⟩]
  origin := .user

theorem shuffled_at_once : ∃ c d', Surface.apply (ofText "a_b_c".toList) shuffled = (.ok c, d') ∧
    d'.text = "xyb_z".toList ∧ d'.Fits ∧
    (ofText "a_b_c".toList).ReplacedAtOnce shuffled c d' ∧
    Surface.apply (ofText "a_b_c".toList) ⟨shuffled.edits.reverse, .user⟩ = (.ok c, d') := by
  have made : (ofText "a_b_c".toList).Made := .ofText _ (by decide)
  obtain ⟨hiff, hdone, -⟩ := made.apply_at_once shuffled
  obtain ⟨c, d', happly⟩ := hiff.mpr (by decide)
  obtain ⟨hreplaced, hperm⟩ := hdone c d' happly
  have htext : d'.text = "xyb_z".toList := hreplaced.text.trans (by decide)
  have hfits : d'.Fits := by
    rw [Fits, htext]
    decide
  exact ⟨c, d', happly, htext, hfits, hreplaced, hperm _ (List.reverse_perm _)⟩

end Document

end Snippets
