import Snippets.Proofs.Replacement

/-!
# Places after a replacement

The text that an accepted batch leaves behind, and where the pieces of the old text and the inserted
texts are found in it.
-/

namespace Snippets

namespace Text

theorem slice_append_slice (t : Text) {a b c : Nat} (hab : a ≤ b) (hbc : b ≤ c) :
    t.slice ⟨a, b⟩ ++ t.slice ⟨b, c⟩ = t.slice ⟨a, c⟩ := by
  have hdrop : t.drop b = (t.drop a).drop (b - a) := by
    rw [List.drop_drop]
    congr 1
    omega
  simp only [slice, List.drop_take, hdrop]
  rw [← List.take_add]
  congr 1
  omega

theorem take_append_slice (t : Text) {a b : Nat} (h : a ≤ b) :
    t.take a ++ t.slice ⟨a, b⟩ = t.take b := by
  simpa [slice] using t.slice_append_slice (Nat.zero_le a) h

theorem slice_append_drop (t : Text) {a b : Nat} (h : a ≤ b) :
    t.slice ⟨a, b⟩ ++ t.drop b = t.drop a := by
  have hcut := t.take_append_slice h
  have : t.take a ++ (t.slice ⟨a, b⟩ ++ t.drop b) = t.take a ++ t.drop a := by
    rw [← List.append_assoc, hcut, List.take_append_drop, List.take_append_drop]
  exact List.append_cancel_left this

theorem slice_add (t : Text) (a n : Nat) : t.slice ⟨a, a + n⟩ = (t.drop a).take n := by
  simp [slice, List.drop_take]

theorem slice_take (t : Text) {a b x : Nat} (h : b ≤ x) :
    Text.slice (t.take x) ⟨a, b⟩ = t.slice ⟨a, b⟩ := by
  simp [slice, List.take_take, Nat.min_eq_left h]

theorem getElem?_eq_of_slice {t u : Text} {a b : Nat}
    (h : t.slice ⟨a, a + 1⟩ = u.slice ⟨b, b + 1⟩) :
    t[a]? = u[b]? := by
  rw [slice_add, slice_add] at h
  simpa [List.head?_take, List.head?_drop] using congrArg List.head? h

/-! ## Replacing all ranges at once -/

/-- The text from an offset on, with the ranges of sorted edits replaced by their texts. -/
def replaceFrom (t : Text) : Nat → List Edit → Text
  | offset, [] => t.drop offset
  | offset, e :: rest =>
    t.slice ⟨offset, e.span.start⟩ ++ e.text ++ t.replaceFrom e.span.finish rest

theorem foldr_splice {t : Text} {edits : List Edit} (h : Edit.Ordered t.length edits) {offset : Nat}
    (before : ∀ e ∈ edits, offset ≤ e.span.start) :
    edits.foldr (fun e t => t.splice e.span e.text) t =
      t.take offset ++ t.replaceFrom offset edits := by
  induction edits generalizing offset with
  | nil => simp [replaceFrom]
  | cons e rest ih =>
    have hup := h.upright e List.mem_cons_self
    have hin := h.inside e List.mem_cons_self
    have hrest := ih h.tail fun b hb => (h.head_precedes b hb).2
    have hcut : (t.take e.span.finish).length = e.span.finish := by simp [hin]
    rw [List.foldr_cons, hrest, splice, List.take_append_of_le_length (by omega), List.take_take,
      Nat.min_eq_left hup, ← take_append_slice t (before e List.mem_cons_self)]
    rw [List.drop_append_of_le_length (by omega), List.drop_eq_nil_of_le (by omega)]
    simp [replaceFrom]

theorem applyTo_eq {c : Change} {t : Text} (h : Edit.Ordered t.length c.edits) :
    c.applyTo t = t.replaceFrom 0 c.edits := by
  simpa [Change.applyTo] using foldr_splice h fun e _ => Nat.zero_le e.span.start

/-- At an offset that lies in no range the text before and the text behind are replaced on their
own. -/
theorem replaceFrom_append (t : Text) {front behind : List Edit} {offset x : Nat} (hx : offset ≤ x)
    (hfront : ∀ e ∈ front, e.span.start ≤ e.span.finish ∧ e.span.finish ≤ x)
    (hbehind : ∀ e ∈ behind, x ≤ e.span.start) :
    t.replaceFrom offset (front ++ behind) =
      replaceFrom (t.take x) offset front ++ t.replaceFrom x behind := by
  induction front generalizing offset with
  | nil =>
    have hdrop : (t.take x).drop offset = t.slice ⟨offset, x⟩ := rfl
    cases behind with
    | nil => simp [replaceFrom, hdrop, slice_append_drop t hx]
    | cons e rest =>
      have hcut := t.slice_append_slice hx (hbehind e List.mem_cons_self)
      simp [replaceFrom, hdrop, ← hcut]
  | cons e rest ih =>
    obtain ⟨hup, hfin⟩ := hfront e List.mem_cons_self
    rw [List.cons_append, replaceFrom, replaceFrom, slice_take t (by omega),
      ih hfin fun a ha => hfront a (List.mem_cons_of_mem e ha)]
    simp

theorem length_replaceFrom {t : Text} {edits : List Edit} (h : Edit.Ordered t.length edits)
    {offset : Nat} (before : ∀ e ∈ edits, offset ≤ e.span.start) (hlen : offset ≤ t.length) :
    ((t.replaceFrom offset edits).length : Int) = t.length - offset + Edit.gains edits := by
  induction edits generalizing offset with
  | nil => simp [replaceFrom]; omega
  | cons e rest ih =>
    have hup := h.upright e List.mem_cons_self
    have hin := h.inside e List.mem_cons_self
    have hbefore := before e List.mem_cons_self
    have hrest := ih h.tail (fun b hb => (h.head_precedes b hb).2) hin
    simp only [replaceFrom, List.length_append, length_slice, Edit.gains_cons, Edit.gain]
    omega

section

variable {t : Text} {front behind : List Edit} {x : Nat}

theorem ordered_take (h : Edit.Ordered t.length (front ++ behind)) (hx : x ≤ t.length)
    (hfront : ∀ e ∈ front, e.span.finish ≤ x) : Edit.Ordered (t.take x).length front :=
  ⟨fun e he => h.upright e (List.mem_append_left _ he),
    fun e he => by simpa [hx] using hfront e he,
    (List.pairwise_append.mp h.apart).1⟩

theorem length_replaceFrom_take (h : Edit.Ordered t.length (front ++ behind)) (hx : x ≤ t.length)
    (hfront : ∀ e ∈ front, e.span.finish ≤ x) :
    ((replaceFrom (t.take x) 0 front).length : Int) = x + Edit.gains front := by
  rw [length_replaceFrom (ordered_take h hx hfront) (fun e _ => Nat.zero_le _) (Nat.zero_le _)]
  simp [hx]

theorem drop_replaceFrom (h : Edit.Ordered t.length (front ++ behind)) (hx : x ≤ t.length)
    (hfront : ∀ e ∈ front, e.span.finish ≤ x) (hbehind : ∀ e ∈ behind, x ≤ e.span.start) :
    (t.replaceFrom 0 (front ++ behind)).drop (x + Edit.gains front).toNat =
      t.replaceFrom x behind := by
  have hlen := length_replaceFrom_take h hx hfront
  rw [t.replaceFrom_append (Nat.zero_le x)
    (fun e he => ⟨h.upright e (List.mem_append_left _ he), hfront e he⟩) hbehind]
  exact List.drop_left' (by omega)

/-- Between edits in front of an offset and edits behind it there is a place in no range. -/
theorem exists_cut (h : Edit.Ordered t.length (front ++ behind)) (hx : x ≤ t.length)
    (hbehind : ∀ e ∈ behind, x ≤ e.span.start) :
    ∃ y, x ≤ y ∧ y ≤ t.length ∧ (∀ e ∈ front, e.span.finish ≤ y) ∧
      ∀ e ∈ behind, y ≤ e.span.start := by
  cases behind with
  | nil => exact ⟨t.length, hx, Nat.le_refl _, fun e he => h.inside e (by simpa using he), by simp⟩
  | cons e rest =>
    have hmem : e ∈ front ++ e :: rest := List.mem_append_right _ List.mem_cons_self
    obtain ⟨_, hrest, hcross⟩ := List.pairwise_append.mp h.apart
    refine ⟨e.span.start, hbehind e List.mem_cons_self,
      Nat.le_trans (h.upright e hmem) (h.inside e hmem),
      fun a ha => (hcross a ha e List.mem_cons_self).2, ?_⟩
    intro b hb
    rcases List.mem_cons.mp hb with rfl | hb
    · exact Nat.le_refl _
    · exact Nat.le_of_lt ((List.pairwise_cons.mp hrest).1 b hb).1

/-- An offset moved by whole growths stays within the lengths of the two documents. -/
theorem gains_bounds (h : Edit.Ordered t.length (front ++ behind)) (hx : x ≤ t.length)
    (hbehind : ∀ e ∈ behind, x ≤ e.span.start) :
    -(t.length : Int) ≤ x + Edit.gains front ∧
      x + Edit.gains front ≤ (t.replaceFrom 0 (front ++ behind)).length := by
  obtain ⟨y, hxy, hy, hfront, hcut⟩ := exists_cut h hx hbehind
  have hpiece := length_replaceFrom_take h hy hfront
  have hwhole := congrArg List.length (t.replaceFrom_append (Nat.zero_le y)
    (fun e he => ⟨h.upright e (List.mem_append_left _ he), hfront e he⟩) hcut)
  rw [List.length_append] at hwhole
  omega

theorem slice_replaceFrom_kept {y : Nat} (h : Edit.Ordered t.length (front ++ behind)) (hxy : x ≤ y)
    (hy : y ≤ t.length) (hfront : ∀ e ∈ front, e.span.finish ≤ x)
    (hbehind : ∀ e ∈ behind, y ≤ e.span.start) (place : Nat)
    (hplace : (place : Int) = x + Edit.gains front) :
    (t.replaceFrom 0 (front ++ behind)).slice ⟨place, place + (y - x)⟩ = t.slice ⟨x, y⟩ := by
  have hdrop := drop_replaceFrom h (Nat.le_trans hxy hy) hfront
    fun e he => Nat.le_trans hxy (hbehind e he)
  have hsplit := @replaceFrom_append t [] behind x y hxy (by simp) hbehind
  have hpiece : (replaceFrom (t.take y) x []).length = y - x := by simp [replaceFrom, hy]
  rw [slice_add, show place = (x + Edit.gains front).toNat by omega, hdrop]
  rw [List.nil_append] at hsplit
  rw [hsplit, List.take_left' hpiece]
  rfl

theorem slice_replaceFrom_edit {e : Edit} (h : Edit.Ordered t.length (front ++ e :: behind))
    {place : Nat} (hplace : (place : Int) = e.span.start + Edit.gains front) :
    (t.replaceFrom 0 (front ++ e :: behind)).slice ⟨place, place + e.text.length⟩ = e.text := by
  have hmem : e ∈ front ++ e :: behind := List.mem_append_right _ List.mem_cons_self
  have hup := h.upright e hmem
  have hin := h.inside e hmem
  have hfront : ∀ a ∈ front, a.span.finish ≤ e.span.start := fun a ha =>
    ((List.pairwise_append.mp h.apart).2.2 a ha e List.mem_cons_self).2
  have hbehind : ∀ a ∈ e :: behind, e.span.start ≤ a.span.start := by
    rintro a (_ | ⟨_, ha⟩)
    · exact Nat.le_refl _
    · have := (List.pairwise_cons.mp (List.pairwise_append.mp h.apart).2.1).1 a ha
      exact Nat.le_of_lt this.1
  have hnil : t.slice ⟨e.span.start, e.span.start⟩ = [] := t.slice_inverted (Nat.le_refl _)
  rw [slice_add, show place = (e.span.start + Edit.gains front).toNat by omega,
    drop_replaceFrom h (Nat.le_trans hup hin) hfront hbehind, replaceFrom, hnil, List.nil_append,
    List.take_left' rfl]

end

end Text

/-! ## Characters that are kept -/

def Span.Holds (r : Span) (offset : Nat) : Prop := r.start ≤ offset ∧ offset < r.finish

instance (r : Span) (offset : Nat) : Decidable (r.Holds offset) :=
  inferInstanceAs (Decidable (_ ∧ _))

def Edit.Keeps (edits : List Edit) (offset : Nat) : Prop :=
  ∀ e ∈ edits, e.span.finish ≤ offset ∨ offset < e.span.start

instance (edits : List Edit) (offset : Nat) : Decidable (Edit.Keeps edits offset) :=
  inferInstanceAs (Decidable (∀ _ ∈ _, _))

namespace Change

def grownBefore (edits : List Edit) (offset : Nat) : List Edit :=
  edits.filter fun e => e.span.start ≤ offset

theorem mapOffset_of_lt {c : Change} {x : Nat} {side : Side}
    (before : ∀ e ∈ c.edits, x < e.span.start)
    (fits : x < 9223372036854775808) : c.mapOffset x side = x := by
  have hword : Word.offset (x + 0) = x := by
    rw [Word.offset_eq]
    · omega
    · unfold Word.Fits
      omega
  unfold mapOffset
  cases hc : c.edits with
  | nil => exact hword
  | cons e rest =>
    unfold mapFrom
    rw [if_pos (before e (by rw [hc]; exact List.mem_cons_self))]
    exact hword

section

variable {e : Edit} {origin : Origin} {x : Nat} {side : Side}

theorem mapOffset_beyond (upright : e.span.start ≤ e.span.finish)
    (beyond : e.span.finish < x ∨ (x = e.span.finish ∧ e.span.start < e.span.finish))
    (fits : x + e.text.length < 9223372036854775808 + e.span.length) :
    mapOffset ⟨[e], origin⟩ x side = x - e.span.length + e.text.length := by
  have hgrown := Edit.offset_add_growth (n := x) (l := [e]) (by
    unfold Word.Fits
    simp only [Edit.gains_cons, Edit.gains_nil, Edit.gain]
    unfold Span.length at fits
    omega)
  simp only [Edit.growth, Edit.gains_cons, Edit.gains_nil, Edit.gain, Int.add_zero] at hgrown
  unfold mapOffset mapFrom
  rw [if_neg (by omega), if_pos beyond, mapFrom, Int.zero_add, hgrown]
  unfold Span.length
  omega

theorem mapOffset_start (upright : e.span.start ≤ e.span.finish)
    (fits : e.span.start < 9223372036854775808) :
    mapOffset ⟨[e], origin⟩ e.span.start .before = e.span.start := by
  unfold mapOffset mapFrom
  rw [if_neg (by omega), if_neg (by omega)]
  dsimp only
  rw [Word.offset_eq]
  · omega
  · unfold Word.Fits
    omega

/-- An offset at an insertion comes to its end when it is to stay behind. -/
theorem mapOffset_insertion (empty : e.span.start = e.span.finish)
    (fits : e.span.start + e.text.length < 9223372036854775808) :
    mapOffset ⟨[e], origin⟩ e.span.start .after = e.span.start + e.text.length := by
  unfold mapOffset mapFrom
  rw [if_neg (by omega), if_neg (by omega)]
  dsimp only
  rw [Word.offset_eq]
  · omega
  · unfold Word.Fits
    omega

end

end Change

end Snippets
