import Mathlib.Data.List.Pairwise
import Snippets.Proofs.Places

/-!
# Offsets across a batch

An offset that no range of a batch catches moves by the growth in front of it. One that is caught,
at the beginning of a range or inside it, lands at an end of the new text. So two offsets stay in
order on whichever sides they land, unless one range catches both and they land on opposite ends of
its text.
-/

namespace Snippets

/-- How far into the new text of an edit the side lies. -/
def Side.depth : Side → Edit → Nat
  | .before, _ => 0
  | .after, e => e.text.length

theorem Side.depth_le (side : Side) (e : Edit) : side.depth e ≤ e.text.length := by
  cases side with
  | before => exact Nat.zero_le _
  | after => exact Nat.le_refl _

namespace Change

/-- The signed word to which an offset is carried, before a negative one is lifted to the beginning
of the document. -/
def signedFrom (offset : Nat) (side : Side) : List Edit → Int → Int
  | [], grown => Word.signed (offset + grown)
  | e :: rest, grown =>
    if offset < e.span.start then Word.signed (offset + grown)
    else if e.span.finish < offset ∨ (offset = e.span.finish ∧ e.span.start < e.span.finish) then
      signedFrom offset side rest (grown + e.delta)
    else match side with
      | .before => Word.signed (e.span.start + grown)
      | .after => Word.signed (e.span.start + grown + e.text.length)

def signedOffset (c : Change) (offset : Nat) (side : Side) : Int := signedFrom offset side c.edits 0

theorem mapFrom_eq_toNat (offset : Nat) (side : Side) (edits : List Edit) (grown : Int) :
    mapFrom offset side edits grown = (signedFrom offset side edits grown).toNat := by
  induction edits generalizing grown with
  | nil => rfl
  | cons e rest ih =>
    unfold mapFrom signedFrom
    split
    · rfl
    · split
      · exact ih _
      · cases side with
        | before => rfl
        | after => rfl

end Change

namespace Edit

def Catches (e : Edit) (offset : Nat) : Prop :=
  e.span.start ≤ offset ∧ (offset < e.span.finish ∨ offset = e.span.start)

instance (e : Edit) (offset : Nat) : Decidable (e.Catches offset) :=
  inferInstanceAs (Decidable (_ ∧ _))

def landing (offset : Nat) (side : Side) : List Edit → Int
  | [] => offset
  | e :: rest =>
    if offset < e.span.start then offset
    else if e.Catches offset then e.span.start + side.depth e
    else e.gain + landing offset side rest

variable {edits : List Edit} {e : Edit} {length offset x y : Nat} {side : Side}

/-- Walking over the edits comes to the word that the landing place wraps to. -/
theorem signedFrom_eq (upright : ∀ e ∈ edits, e.span.start ≤ e.span.finish) (grown : Int) :
    Change.signedFrom offset side edits grown =
      Word.signed (grown + landing offset side edits) := by
  induction edits generalizing grown with
  | nil =>
    rw [landing, Int.add_comm]
    rfl
  | cons e rest ih =>
    have hup := upright e List.mem_cons_self
    have hrest := ih (fun b hb => upright b (List.mem_cons_of_mem e hb)) (grown + e.delta)
    unfold Change.signedFrom
    rw [landing]
    by_cases hfront : offset < e.span.start
    · rw [if_pos hfront, if_pos hfront, Int.add_comm]
    rw [if_neg hfront, if_neg hfront]
    by_cases hcaught : e.Catches offset
    · have hstays : ¬ (e.span.finish < offset ∨
          (offset = e.span.finish ∧ e.span.start < e.span.finish)) := by
        unfold Catches at hcaught
        omega
      rw [if_neg hstays, if_pos hcaught]
      cases side with
      | before => exact congrArg Word.signed (by simp only [Side.depth]; omega)
      | after => exact congrArg Word.signed (by simp only [Side.depth]; omega)
    · have hpassed : e.span.finish < offset ∨
          (offset = e.span.finish ∧ e.span.start < e.span.finish) := by
        unfold Catches at hcaught
        omega
      rw [if_pos hpassed, if_neg hcaught, hrest]
      calc Word.signed (grown + e.delta + landing offset side rest)
          = Word.signed (grown + landing offset side rest + Word.signed e.gain) :=
            congrArg Word.signed (by rw [delta, gain]; omega)
        _ = Word.signed (grown + landing offset side rest + e.gain) :=
            Word.signed_add_signed _ _
        _ = Word.signed (grown + (e.gain + landing offset side rest)) :=
            congrArg Word.signed (by omega)

theorem le_landing (h : Ordered length edits) {low : Nat} (hlow : low ≤ offset)
    (starts : ∀ e ∈ edits, low ≤ e.span.start) : (low : Int) ≤ landing offset side edits := by
  induction edits generalizing low with
  | nil => exact Int.ofNat_le.mpr hlow
  | cons e rest ih =>
    have hup := h.upright e List.mem_cons_self
    have hstart := starts e List.mem_cons_self
    rw [landing]
    by_cases hfront : offset < e.span.start
    · rw [if_pos hfront]
      omega
    rw [if_neg hfront]
    by_cases hcaught : e.Catches offset
    · rw [if_pos hcaught]
      omega
    · have hpassed : e.span.finish ≤ offset := by
        unfold Catches at hcaught
        omega
      have hrest := ih h.tail hpassed fun b hb => (h.head_precedes b hb).2
      rw [if_neg hcaught, gain]
      omega

theorem landing_le (h : Ordered length edits) (hoffset : offset ≤ length) :
    landing offset side edits ≤ length + gains edits := by
  induction edits with
  | nil =>
    rw [landing, gains_nil]
    omega
  | cons e rest ih =>
    rw [landing]
    by_cases hfront : offset < e.span.start
    · have hroom := gains_between h hoffset fun b hb => by
        refine ⟨?_, h.inside b hb⟩
        rcases List.mem_cons.mp hb with rfl | hb
        · exact Nat.le_of_lt hfront
        · have := (h.head_precedes b hb).1
          omega
      rw [if_pos hfront]
      omega
    rw [if_neg hfront]
    by_cases hcaught : e.Catches offset
    · have hroom := gains_between h.tail (h.inside e List.mem_cons_self) fun b hb =>
        ⟨(h.head_precedes b hb).2, h.inside b (List.mem_cons_of_mem e hb)⟩
      have hdepth := side.depth_le e
      rw [if_pos hcaught, gains_cons, gain]
      omega
    · have hrest := ih h.tail
      rw [if_neg hcaught, gains_cons]
      omega

theorem landing_before_le_after (offset : Nat) (edits : List Edit) :
    landing offset .before edits ≤ landing offset .after edits := by
  induction edits with
  | nil => exact Int.le_refl _
  | cons e rest ih =>
    rw [landing, landing]
    by_cases hfront : offset < e.span.start
    · simp only [if_pos hfront, Int.le_refl]
    rw [if_neg hfront, if_neg hfront]
    by_cases hcaught : e.Catches offset
    · rw [if_pos hcaught, if_pos hcaught]
      simp only [Side.depth]
      omega
    · rw [if_neg hcaught, if_neg hcaught]
      omega

theorem landing_apart (h : Ordered length edits) (hxy : x ≤ y) :
    landing x .after edits ≤ landing y .before edits ∨
      ∃ e ∈ edits, e.Catches x ∧ e.Catches y := by
  induction edits with
  | nil => exact Or.inl (Int.ofNat_le.mpr hxy)
  | cons e rest ih =>
    have hup := h.upright e List.mem_cons_self
    have hbehind (hfront : ¬ y < e.span.start) (hfree : ¬ e.Catches y) :
        (e.span.finish : Int) ≤ landing y .before rest := by
      have hpassed : e.span.finish ≤ y := by
        unfold Catches at hfree
        omega
      exact le_landing h.tail hpassed fun b hb => (h.head_precedes b hb).2
    rw [landing, landing]
    by_cases hcx : e.Catches x
    · have hx : ¬ x < e.span.start := Nat.not_lt.mpr hcx.1
      have hy : ¬ y < e.span.start := by omega
      by_cases hcy : e.Catches y
      · exact Or.inr ⟨e, List.mem_cons_self, hcx, hcy⟩
      · have := hbehind hy hcy
        rw [if_neg hx, if_neg hy, if_pos hcx, if_neg hcy, gain, Side.depth]
        left
        omega
    by_cases hx : x < e.span.start
    · rw [if_pos hx]
      left
      by_cases hy : y < e.span.start
      · rw [if_pos hy]
        omega
      rw [if_neg hy]
      by_cases hcy : e.Catches y
      · rw [if_pos hcy]
        omega
      · have := hbehind hy hcy
        rw [if_neg hcy, gain]
        omega
    · have hy : ¬ y < e.span.start := by omega
      have hcy : ¬ e.Catches y := by
        unfold Catches at hcx ⊢
        omega
      rw [if_neg hx, if_neg hy, if_neg hcx, if_neg hcy]
      rcases ih h.tail with hle | ⟨b, hb, hcaught⟩
      · left
        omega
      · exact Or.inr ⟨b, List.mem_cons_of_mem e hb, hcaught⟩

/-- A range that catches an offset takes it to an end of its text. -/
theorem landing_caught {front behind : List Edit} (h : Ordered length (front ++ e :: behind))
    (caught : e.Catches offset) :
    landing offset side (front ++ e :: behind) = e.span.start + gains front + side.depth e := by
  induction front with
  | nil =>
    rw [List.nil_append, landing, if_neg (Nat.not_lt.mpr caught.1), if_pos caught, gains_nil]
    omega
  | cons a front ih =>
    have hup := h.upright a List.mem_cons_self
    have hprec := h.head_precedes e (List.mem_append_right _ List.mem_cons_self)
    have hpassed : a.span.start < offset ∧ a.span.finish ≤ offset :=
      ⟨Nat.lt_of_lt_of_le hprec.1 caught.1, Nat.le_trans hprec.2 caught.1⟩
    have hfree : ¬ a.Catches offset := by
      unfold Catches
      omega
    rw [List.cons_append, landing, if_neg (show ¬ offset < a.span.start by omega), if_neg hfree,
      ih h.tail, gains_cons]
    omega

theorem landing_mono (h : Ordered length edits) (hxy : x ≤ y) :
    landing x side edits ≤ landing y side edits := by
  rcases landing_apart h hxy with hle | ⟨e, he, hcx, hcy⟩
  · have hx := landing_before_le_after x edits
    have hy := landing_before_le_after y edits
    cases side with
    | before => omega
    | after => omega
  · obtain ⟨front, behind, rfl⟩ := List.append_of_mem he
    exact Int.le_of_eq ((landing_caught h hcx).trans (landing_caught h hcy).symm)

theorem landing_of_front (starts : ∀ e ∈ edits, offset ≤ e.span.start) :
    landing offset .before edits = offset := by
  cases edits with
  | nil => rfl
  | cons e rest =>
    have hstart := starts e List.mem_cons_self
    rw [landing]
    by_cases hfront : offset < e.span.start
    · rw [if_pos hfront]
    · have hat : offset = e.span.start := by omega
      rw [if_neg hfront, if_pos ⟨Nat.le_of_eq hat.symm, Or.inr hat⟩, hat]
      rfl

/-- An offset that stands clear of all ranges moves by the growth in front of it. -/
theorem landing_append {front behind : List Edit} (h : Ordered length (front ++ behind))
    (passed : ∀ e ∈ front, e.span.finish < x) (ahead : ∀ e ∈ behind, x ≤ e.span.start) :
    landing x .before (front ++ behind) = x + gains front := by
  induction front with
  | nil =>
    rw [List.nil_append, landing_of_front ahead, gains_nil]
    omega
  | cons e front ih =>
    have hup := h.upright e List.mem_cons_self
    have hpassed := passed e List.mem_cons_self
    have hfree : ¬ e.Catches x := by
      unfold Catches
      omega
    have hrest := ih h.tail fun b hb => passed b (List.mem_cons_of_mem e hb)
    rw [List.cons_append, landing, if_neg (show ¬ x < e.span.start by omega), if_neg hfree, hrest,
      gains_cons]
    omega

/-- Behind a range that ends at the offset it moves no further than that. -/
theorem landing_append_le {front behind : List Edit} (h : Ordered length (front ++ behind))
    (passed : ∀ e ∈ front, e.span.finish ≤ x) (ahead : ∀ e ∈ behind, x ≤ e.span.start) :
    landing x .before (front ++ behind) ≤ x + gains front := by
  induction front with
  | nil =>
    rw [List.nil_append, landing_of_front ahead, gains_nil]
    omega
  | cons e front ih =>
    have hup := h.upright e List.mem_cons_self
    have hpassed := passed e List.mem_cons_self
    have hrest := ih h.tail fun b hb => passed b (List.mem_cons_of_mem e hb)
    rw [List.cons_append, landing, if_neg (show ¬ x < e.span.start by omega), gains_cons]
    by_cases hcaught : e.Catches x
    · -- Only an insertion at the offset catches it, and nothing else ends there.
      have hat : e.span.start = x := by
        unfold Catches at hcaught
        omega
      have hlast : front = [] := by
        refine List.eq_nil_iff_forall_not_mem.mpr fun b hb => ?_
        have hlater := (h.head_precedes b (List.mem_append_left _ hb)).1
        have := h.upright b (List.mem_cons_of_mem e (List.mem_append_left _ hb))
        have := passed b (List.mem_cons_of_mem e hb)
        omega
      rw [if_pos hcaught, hlast, gains_nil, gain, Side.depth]
      omega
    · rw [if_neg hcaught]
      omega

theorem landing_succ (h : Ordered length edits) (kept : Keeps edits x) :
    landing (x + 1) .before edits = landing x .after edits + 1 := by
  induction edits with
  | nil => rfl
  | cons e rest ih =>
    have hup := h.upright e List.mem_cons_self
    have hlater : ∀ b ∈ rest, e.span.start + 1 ≤ b.span.start :=
      fun b hb => (h.head_precedes b hb).1
    by_cases hx : x < e.span.start
    · have hfront : ∀ b ∈ e :: rest, x + 1 ≤ b.span.start := by
        intro b hb
        rcases List.mem_cons.mp hb with rfl | hb
        · exact hx
        · have := hlater b hb
          omega
      rw [landing_of_front hfront, landing, if_pos hx]
      rfl
    have hfinish : e.span.finish ≤ x := by
      rcases kept e List.mem_cons_self with hfinish | hstart
      · exact hfinish
      · exact absurd hstart hx
    have hpassed : ¬ e.Catches (x + 1) := by
      unfold Catches
      omega
    rw [landing, landing, if_neg hx, if_neg (show ¬ x + 1 < e.span.start by omega),
      if_neg hpassed]
    by_cases hcaught : e.Catches x
    · -- Right behind an insertion no other range begins.
      have hat : e.span.start = x ∧ e.span.finish = x := by
        unfold Catches at hcaught
        omega
      have hfront : ∀ b ∈ rest, x + 1 ≤ b.span.start := by
        intro b hb
        have := hlater b hb
        omega
      rw [if_pos hcaught, landing_of_front hfront, gain, Side.depth]
      omega
    · rw [if_neg hcaught, ih h.tail fun b hb => kept b (List.mem_cons_of_mem e hb)]
      omega

theorem landing_kept (h : Ordered length edits) (kept : Keeps edits x) :
    landing x .after edits = x + gains (Change.grownBefore edits x) := by
  induction edits with
  | nil => rfl
  | cons e rest ih =>
    have hup := h.upright e List.mem_cons_self
    have hnone (hx : ∀ b ∈ rest, x < b.span.start) : Change.grownBefore rest x = [] := by
      rw [Change.grownBefore, List.filter_eq_nil_iff]
      intro b hb
      simpa using hx b hb
    rw [landing]
    by_cases hfront : x < e.span.start
    · have hlater : ∀ b ∈ rest, x < b.span.start :=
        fun b hb => Nat.lt_trans hfront (h.head_precedes b hb).1
      have hgrown : Change.grownBefore (e :: rest) x = [] :=
        (List.filter_cons_of_neg (by simpa using hfront)).trans (hnone hlater)
      rw [if_pos hfront, hgrown]
      rfl
    have hgrown : Change.grownBefore (e :: rest) x = e :: Change.grownBefore rest x :=
      List.filter_cons_of_pos (by simpa using hfront)
    rw [if_neg hfront, hgrown, gains_cons]
    by_cases hcaught : e.Catches x
    · -- The character stands right behind an insertion, so nothing else is in front of it.
      have hat : e.span.start = x ∧ e.span.finish = x := by
        rcases kept e List.mem_cons_self with hfinish | hstart
        · unfold Catches at hcaught
          omega
        · exact absurd hstart hfront
      have hlater : ∀ b ∈ rest, x < b.span.start := by
        intro b hb
        have := (h.head_precedes b hb).1
        omega
      rw [if_pos hcaught, hnone hlater, gains_nil, gain, Side.depth]
      omega
    · rw [if_neg hcaught, ih h.tail fun b hb => kept b (List.mem_cons_of_mem e hb)]
      omega

theorem Ordered.eq_of_catches (h : Ordered length edits) {a : Edit} (ha : a ∈ edits)
    (he : e ∈ edits) (hca : a.Catches offset) (hce : e.Catches offset) : a = e := by
  have : Std.Symm fun a b : Edit => a.span.Apart b.span := ⟨fun _ _ h => h.symm⟩
  have hapart : edits.Pairwise fun a b => a.span.Apart b.span := h.apart.imp Or.inl
  by_contra hne
  have := hapart.forall ha he hne
  unfold Span.Apart Span.Precedes at this
  unfold Catches at hca hce
  omega

end Edit

namespace Change

variable {c : Change} {t : Text} {e : Edit} {x y : Nat}
  (h : Edit.Ordered t.length c.edits)
  (fits : (t.replaceFrom 0 c.edits).length < 9223372036854775808)

include h fits

theorem signedOffset_eq (hx : x ≤ t.length) (side : Side) :
    c.signedOffset x side = Edit.landing x side c.edits := by
  have hlow : (0 : Nat) ≤ Edit.landing x side c.edits :=
    Edit.le_landing h (Nat.zero_le x) fun e _ => Nat.zero_le _
  have hhigh : Edit.landing x side c.edits ≤ t.length + Edit.gains c.edits := Edit.landing_le h hx
  have hlen := Text.length_replaceFrom h (fun e _ => Nat.zero_le e.span.start) (Nat.zero_le _)
  rw [signedOffset, Edit.signedFrom_eq h.upright, Int.zero_add, Word.signed_eq]
  unfold Word.Fits
  omega

/-- In documents whose offsets are words no offset is carried to a negative word. -/
theorem mapOffset_eq_signedOffset (hx : x ≤ t.length) (side : Side) :
    (c.mapOffset x side : Int) = c.signedOffset x side := by
  have hlow : (0 : Nat) ≤ Edit.landing x side c.edits :=
    Edit.le_landing h (Nat.zero_le x) fun e _ => Nat.zero_le _
  have hplace := signedOffset_eq h fits hx side
  have hcut : c.mapOffset x side = (c.signedOffset x side).toNat :=
    mapFrom_eq_toNat x side c.edits 0
  omega

/-- In documents whose offsets are words a change carries offsets to where they land. -/
theorem mapOffset_eq (hx : x ≤ t.length) (side : Side) :
    (c.mapOffset x side : Int) = Edit.landing x side c.edits :=
  (mapOffset_eq_signedOffset h fits hx side).trans (signedOffset_eq h fits hx side)

theorem mapOffset_le_length (hx : x ≤ t.length) (side : Side) :
    c.mapOffset x side ≤ (t.replaceFrom 0 c.edits).length := by
  have hhigh : Edit.landing x side c.edits ≤ t.length + Edit.gains c.edits := Edit.landing_le h hx
  have hlen := Text.length_replaceFrom h (fun e _ => Nat.zero_le e.span.start) (Nat.zero_le _)
  have := mapOffset_eq h fits hx side
  omega

theorem mapOffset_before_le_after (hx : x ≤ t.length) :
    c.mapOffset x .before ≤ c.mapOffset x .after := by
  have := mapOffset_eq h fits hx .before
  have := mapOffset_eq h fits hx .after
  have := Edit.landing_before_le_after x c.edits
  omega

theorem mapOffset_mono (hxy : x ≤ y) (hy : y ≤ t.length) (side : Side) :
    c.mapOffset x side ≤ c.mapOffset y side := by
  have := mapOffset_eq h fits (Nat.le_trans hxy hy) side
  have := mapOffset_eq h fits hy side
  have hmono : Edit.landing x side c.edits ≤ Edit.landing y side c.edits := Edit.landing_mono h hxy
  omega

theorem mapOffset_apart (hxy : x ≤ y) (hy : y ≤ t.length) :
    c.mapOffset x .after ≤ c.mapOffset y .before ∨
      ∃ e ∈ c.edits, e.Catches x ∧ e.Catches y := by
  have hplace := mapOffset_eq h fits (Nat.le_trans hxy hy) .after
  have hplace' := mapOffset_eq h fits hy .before
  rcases Edit.landing_apart h hxy with hle | hcaught
  · left
    omega
  · exact Or.inr hcaught

theorem mapOffset_succ (hx : x < t.length) (kept : Edit.Keeps c.edits x) :
    c.mapOffset (x + 1) .before = c.mapOffset x .after + 1 := by
  have hplace := mapOffset_eq h fits (show x + 1 ≤ t.length from hx) .before
  have hplace' := mapOffset_eq h fits (Nat.le_of_lt hx) .after
  have hsucc := Edit.landing_succ h kept
  omega

/-- A character that is kept is found where the change carries its offset. -/
theorem mapOffset_after_kept (hx : x < t.length) (kept : Edit.Keeps c.edits x) :
    (c.mapOffset x .after : Int) = x + Edit.gains (grownBefore c.edits x) ∧
      (t.replaceFrom 0 c.edits)[c.mapOffset x .after]? = t[x]? := by
  have hplace : (c.mapOffset x .after : Int) = x + Edit.gains (grownBefore c.edits x) :=
    (mapOffset_eq h fits (Nat.le_of_lt hx) .after).trans (Edit.landing_kept h kept)
  have hcut : grownBefore c.edits x ++ c.edits.filter (fun e => !decide (e.span.start ≤ x)) =
      c.edits := by
    refine filter_append_filter_not h.apart fun a b hab hb => ?_
    have := hab.1
    simp only [decide_eq_true_eq] at hb ⊢
    omega
  have hfront : ∀ e ∈ grownBefore c.edits x, e.span.finish ≤ x := by
    intro e he
    obtain ⟨hmem, hle⟩ := List.mem_filter.mp he
    have := kept e hmem
    simp only [decide_eq_true_eq] at hle
    omega
  have hbehind : ∀ e ∈ c.edits.filter (fun e => !decide (e.span.start ≤ x)),
      x + 1 ≤ e.span.start := by
    intro e he
    have := (List.mem_filter.mp he).2
    simp only [Bool.not_eq_true', decide_eq_false_iff_not] at this
    omega
  have hordered := h
  rw [← hcut] at hordered
  have hslice := Text.slice_replaceFrom_kept hordered (Nat.le_succ x) hx hfront hbehind _ hplace
  rw [hcut, Nat.succ_sub (Nat.le_refl x), Nat.sub_self] at hslice
  exact ⟨hplace, Text.getElem?_eq_of_slice hslice⟩

theorem mapOffset_caught {front behind : List Edit} (hc : c.edits = front ++ e :: behind)
    (hx : x ≤ t.length) (caught : e.Catches x) (side : Side) :
    (c.mapOffset x side : Int) = e.span.start + Edit.gains front + side.depth e := by
  have hplace := mapOffset_eq h fits hx side
  rw [hc] at h hplace
  rw [hplace, Edit.landing_caught h caught]

end Change

end Snippets
